import Effectful.Bytes
import Effectful.Target.Arith
/-!
# The machine

`Instr.eval` gives an instruction its meaning.  It runs in an activation, which holds the locals of a
function and the store, and ends with a value, with none, or with an `Exit`: a branch on its way to
its label, a return on its way to its function, or a stop.  The activation is kept in each case, so
what was written before a fault stays written.

Two bounds make every run finite.  Calls nest no deeper than the call depth of the machine, and a call
beyond it traps.  A loop runs for `rounds` rounds at most; a loop that wants more stops the machine
with `Stop.outOfRounds`, which is no outcome of the code itself.
-/

namespace Effectful.Target

/-- What the machine does for a function of the host: a value and the new memory, or a fault. -/
abbrev Imports := HostImport → List Val → Store → Except Trap (Option Val × Memory)

/-- Why a call from the host ends without a result. -/
inductive Stop where
  | trap (why : Trap)
  /-- A loop was given too few rounds. -/
  | outOfRounds
deriving DecidableEq, Repr

/-- How an instruction ends that has no value to go on with. -/
inductive Exit where
  | branch (label : Label) (value : Option Val)
  | ret (value : Option Val)
  | stop (why : Stop)
deriving DecidableEq

/-- The locals of a running function and the store. -/
structure Activation where
  locals : Array Val
  store : Store

/-- Computations that run in an activation. -/
abbrev EvalM := ExceptT Exit (StateM Activation)

/-- A call of a function by its position. -/
abbrev Callee := Nat → List Val → Store → Except Stop (Option Val) × Store

/-- A module with all that fixes how it runs. -/
structure Machine where
  module : Module
  imports : Imports
  maxCallDepth : Nat
  /-- How many rounds a loop may take. -/
  rounds : Nat

/-! ### Steps -/

namespace EvalM

def trap {α : Type} (why : Trap) : EvalM α := throw (.stop (.trap why))

/-- Does something that looks at the heap and may fail. -/
def withHeap {α : Type} (f : Heap → Except Trap α) : EvalM α := do
  match f (← get).store.heap with
  | .ok a => return a
  | .error why => trap why

/-- The value that an instruction must give. -/
def needed : Option Val → EvalM Val
  | some v => return v
  | none => trap (.typeMismatch .noValue)

def getLocal (index : Nat) : EvalM Val := do
  match (← get).locals[index]? with
  | some v => return v
  | none => trap (.typeMismatch (.noLocal index))

def setLocal (index : Nat) (v : Val) : EvalM Unit := do
  if index < (← get).locals.size then
    modify fun ⟨locals, store⟩ => ⟨locals.setIfInBounds index v, store⟩
  else trap (.typeMismatch (.noLocal index))

def alloc (object : Object) : EvalM Val :=
  modifyGet fun ⟨locals, memory, heap⟩ => (.ref (some heap.size), ⟨locals, memory, heap.push object⟩)

def setObject (address : Nat) (object : Object) : EvalM Unit :=
  modify fun ⟨locals, memory, heap⟩ => ⟨locals, memory, heap.setIfInBounds address object⟩

def object (address : Nat) : EvalM Object := do
  match (← get).store.heap[address]? with
  | some object => return object
  | none => trap .nullReference

/-- The number in some bytes of memory. -/
def load (address length : Nat) : EvalM Nat := do
  match (← get).store.memory.read? address length with
  | some bytes => return ofLittleEndian bytes
  | none => trap (.outOfBounds address length)

def save (address length n : Nat) : EvalM Unit := do
  if (← get).store.memory.holds address length then
    modify fun ⟨locals, memory, heap⟩ => ⟨locals, memory.write address (littleEndian length n), heap⟩
  else trap (.outOfBounds address length)

/-- Runs a call in the store of the activation. -/
def call (f : Store → Except Stop (Option Val) × Store) : EvalM (Option Val) := do
  match ← modifyGet fun ⟨locals, store⟩ => let (result, store) := f store; (result, ⟨locals, store⟩) with
  | .ok v => return v
  | .error why => throw (.stop why)

def callImport (m : Machine) (index : Nat) (args : List Val) : EvalM (Option Val) := do
  match m.module.imports[index]? with
  | some target =>
    match m.imports target args (← get).store with
    | .ok (v, memory) =>
      modify fun ⟨locals, _, heap⟩ => ⟨locals, memory, heap⟩
      return v
    | .error why => trap why
  | none => trap (.typeMismatch (.noImport index))

def newStruct (m : Machine) (ty : Nat) (fields : List Val) : EvalM Val := do
  match m.module.types[ty]? with
  | some t =>
    if fields.length = t.fields.length then alloc (.struct ty fields)
    else trap (.typeMismatch (.fieldCount ty t.fields.length fields.length))
  | none => trap (.typeMismatch (.noType ty))

def getField (m : Machine) (ty field address : Nat) : EvalM Val := do
  match ← object address with
  | .struct actual fields =>
    if m.module.isSubtype actual ty then
      match fields[field]? with
      | some v => return v
      | none => trap (.typeMismatch (.noField field))
    else trap (.typeMismatch (.notSubtype actual ty))
  | .array _ => trap (.typeMismatch .fieldOfArray)

/-- Whether a field of a type may be written. -/
def isMutable (m : Machine) (ty field : Nat) : Bool :=
  ((m.module.types[ty]?).bind (·.fields[field]?)).any (·.mutable)

/-- Writes a field of the record at an address. -/
def setField (m : Machine) (ty field address : Nat) (v : Val) : EvalM Unit := do
  if isMutable m ty field then
    match ← object address with
    | .struct actual fields =>
      if m.module.isSubtype actual ty then
        if field < fields.length then setObject address (.struct actual (fields.set field v))
        else trap (.typeMismatch (.noField field))
      else trap (.typeMismatch (.notOfType ty))
    | .array _ => trap (.typeMismatch (.notOfType ty))
  else trap (.typeMismatch (.immutable ty field))

/-- An item of the array at an address; a negative index counts from the top of the 64-bit range. -/
def getItem (address : Nat) (index : Int32) : EvalM Val := do
  let place := index.toInt64.toUInt64.toNat
  match ← object address with
  | .array items =>
    match items[place]? with
    | some v => return v
    | none => trap (.outOfBounds place items.length)
  | .struct _ _ => trap (.typeMismatch .itemOfStruct)

def arrayLength (address : Nat) : EvalM Val := do
  match ← object address with
  | .array items => return .i32 (.ofNat items.length)
  | .struct _ _ => trap (.typeMismatch .lengthOfStruct)

/-- Whether a reference leads nowhere. -/
def isNull : Val → EvalM Val
  | .ref address => return .ofBool address.isNone
  | v => withHeap fun heap => .error (.typeMismatch (.nullTest (v.text heap)))

def catching (label : Label) (body : EvalM (Option Val)) : EvalM (Option Val) :=
  tryCatch body fun exit =>
    match exit with
    | .branch l v => if l = label then return v else throw exit
    | _ => throw exit

/-- Runs a body again as long as it branches to the label. -/
def looping (label : Label) (body : EvalM (Option Val)) : (rounds : Nat) → EvalM (Option Val)
  | 0, a => (.error (.stop .outOfRounds), a)
  | rounds + 1, a =>
    match body a with
    | (.error (.branch l v), a) => if l = label then looping label body rounds a else (.error (.branch l v), a)
    | done => done

end EvalM

open EvalM

/-! ### Instructions -/

mutual

/-- Evaluates an instruction; `callee` does the calls. -/
def Instr.eval (m : Machine) (callee : Callee) : Instr → EvalM (Option Val)
  | .i32Const n => return some (.i32 n)
  | .i64Const n => return some (.i64 n)
  | .f32Const x => return some (.f32 x)
  | .f64Const x => return some (.f64 x)
  | .refNull => return some (.ref none)
  | .localGet index => some <$> getLocal index
  | .localSet index value => do
    let v ← needed (← value.eval m callee)
    setLocal index v
    return none
  | .binary op ty lhs rhs => do
    let a ← needed (← lhs.eval m callee)
    let b ← needed (← rhs.eval m callee)
    some <$> withHeap fun heap => op.apply heap ty a b
  | .unary op ty operand => do
    let v ← needed (← operand.eval m callee)
    some <$> withHeap fun heap => op.apply heap ty v
  | .convert op operand => do
    let v ← needed (← operand.eval m callee)
    some <$> withHeap fun heap => op.apply heap v
  | .block label body => catching label (evalSeq m callee none body)
  | .loop label body => looping label (evalSeq m callee none body) m.rounds
  | .ifElse cond onTrue onFalse => do
    let v ← needed (← cond.eval m callee)
    let n ← withHeap v.asI32
    if n ≠ 0 then evalSeq m callee none onTrue else evalSeq m callee none onFalse
  | .br label value =>
    match value with
    | some value => do
      let v ← needed (← value.eval m callee)
      throw (.branch label (some v))
    | none => throw (.branch label none)
  | .ret value =>
    match value with
    | some value => do
      let v ← needed (← value.eval m callee)
      throw (.ret (some v))
    | none => throw (.ret none)
  | .unreachable code => trap (.code code)
  | .drop value => do
    let _ ← value.eval m callee
    return none
  | .call func args => do
    let vs ← evalAll m callee args
    EvalM.call (callee func vs)
  | .callImport target args => do
    let vs ← evalAll m callee args
    EvalM.callImport m target vs
  | .structNew ty fields => do
    let vs ← evalAll m callee fields
    some <$> newStruct m ty vs
  | .structGet ty field obj => do
    let v ← needed (← obj.eval m callee)
    let address ← withHeap v.asAddress
    some <$> getField m ty field address
  | .structSet ty field obj value => do
    let o ← needed (← obj.eval m callee)
    let address ← withHeap o.asAddress
    let v ← needed (← value.eval m callee)
    setField m ty field address v
    return none
  | .refIsNull value => do
    let v ← needed (← value.eval m callee)
    some <$> isNull v
  | .arrayNew items => do
    let vs ← evalAll m callee items
    some <$> alloc (.array vs)
  | .arrayGet array index => do
    let o ← needed (← array.eval m callee)
    let address ← withHeap o.asAddress
    let i ← needed (← index.eval m callee)
    let n ← withHeap i.asI32
    some <$> getItem address n
  | .arrayLen array => do
    let o ← needed (← array.eval m callee)
    let address ← withHeap o.asAddress
    some <$> arrayLength address
  | .memLoad32 addr => do
    let v ← needed (← addr.eval m callee)
    let address ← withHeap v.asOffset
    return some (.i32 (.ofNat (← load address 4)))
  | .memStore32 addr value => do
    let at_ ← needed (← addr.eval m callee)
    let address ← withHeap at_.asOffset
    let v ← needed (← value.eval m callee)
    let n ← withHeap v.asI32
    save address 4 n.toUInt32.toNat
    return none
  | .memLoad64 addr => do
    let v ← needed (← addr.eval m callee)
    let address ← withHeap v.asOffset
    return some (.i64 (.ofNat (← load address 8)))
  | .memStore64 addr value => do
    let at_ ← needed (← addr.eval m callee)
    let address ← withHeap at_.asOffset
    let v ← needed (← value.eval m callee)
    let n ← withHeap v.asI64
    save address 8 n.toUInt64.toNat
    return none

/-- Evaluates instructions in order; the value is that of the last, or `last` if there are none. -/
def evalSeq (m : Machine) (callee : Callee) (last : Option Val) : List Instr → EvalM (Option Val)
  | [] => return last
  | i :: is => do
    let v ← i.eval m callee
    evalSeq m callee v is

/-- The values of operands, from left to right. -/
def evalAll (m : Machine) (callee : Callee) : List Instr → EvalM (List Val)
  | [] => return []
  | i :: is => do
    let v ← needed (← i.eval m callee)
    let vs ← evalAll m callee is
    return v :: vs

end

/-! ### Calls -/

def Function.run (m : Machine) (callee : Callee) (f : Function) (args : List Val) (store : Store) :
    Except Stop (Option Val) × Store :=
  let locals := args ++ f.locals.map Val.zero
  match evalSeq m callee none f.body { locals := locals.toArray, store } with
  | (.ok v, a) => (.ok v, a.store)
  | (.error (.ret v), a) => (.ok v, a.store)
  | (.error (.branch label _), a) => (.error (.trap (.typeMismatch (.unknownLabel label f.name))), a.store)
  | (.error (.stop why), a) => (.error why, a.store)

namespace Machine

/-- The function at a position, if it takes that many arguments. -/
def target (m : Machine) (func : Nat) (args : List Val) : Except Trap Function :=
  match m.module.functions[func]? with
  | some f =>
    if args.length = f.params.length then .ok f
    else .error (.argumentCount f.params.length args.length)
  | none => .error (.typeMismatch (.noFunction func))

/-- Calls a function when `room` more calls may be nested. -/
def callWithin (m : Machine) : (room : Nat) → Callee
  | 0, func, args, store =>
    match m.target func args with
    | .ok _ => (.error (.trap (.callStackExhausted m.maxCallDepth)), store)
    | .error why => (.error (.trap why), store)
  | room + 1, func, args, store =>
    match m.target func args with
    | .ok f => f.run m (m.callWithin room) args store
    | .error why => (.error (.trap why), store)

def call (m : Machine) : Callee := m.callWithin m.maxCallDepth

def invoke (m : Machine) (name : String) (args : List Val) (store : Store) : Except Stop (Option Val) × Store :=
  match m.module.findExport? name with
  | some func => m.call func args store
  | none => (.error (.trap (.unknownExport name)), store)

def start (m : Machine) : Store := { memory := .zeros m.module.memorySize, heap := #[] }

end Machine

end Effectful.Target
