import Effectful.Target.Memory
import Effectful.Target.Module
/-!
# Values, objects and traps

Running code computes with numbers and references.  A reference is the address of an object in the
heap; objects stay where they are for good, so two references are the same object exactly if their
addresses are equal.  Beside the heap there is linear memory, which the host shares.

A `Trap` is a fault that ends a call from the host.  Faults of typing carry a `Mismatch`, which says
what was wrong; values in it are already shown as text, because an object may change later.
-/

namespace Effectful.Target

/-- A value of running code. -/
inductive Val where
  | i32 (n : Int32)
  | i64 (n : Int64)
  | f32 (x : Binary32)
  | f64 (x : Binary64)
  /-- A reference to the object at an address, or to none. -/
  | ref (address : Option Nat)
deriving DecidableEq, Inhabited

inductive Object where
  | struct (ty : Nat) (fields : List Val)
  | array (items : List Val)
deriving DecidableEq, Inhabited

abbrev Heap := Array Object

/-- What outlives a call: linear memory and the heap. -/
structure Store where
  memory : Memory
  heap : Heap
deriving Inhabited

/-! ### Faults -/

/-- What kind of value an operation takes. -/
inductive Wanted where
  | i32
  | i64
  | f32
  | f64
  | reference
deriving DecidableEq, Repr

def Wanted.text : Wanted → String
  | .i32 => "i32"
  | .i64 => "i64"
  | .f32 => "f32"
  | .f64 => "f64"
  | .reference => "reference"

/-- What is wrong with the types or the places that code relies on. -/
inductive Mismatch where
  | expected (wanted : Wanted) (found : String)
  | noValue
  | noFunction (index : Nat)
  | noImport (index : Nat)
  | noLocal (index : Nat)
  | noType (index : Nat)
  | noField (index : Nat)
  | unknownLabel (label : Label) (function : String)
  | fieldCount (ty declared found : Nat)
  | immutable (ty field : Nat)
  /-- An object that is written to is not of the type. -/
  | notOfType (ty : Nat)
  | notSubtype (actual ty : Nat)
  | fieldOfArray
  | itemOfStruct
  | lengthOfStruct
  | nullTest (found : String)
  | bitsOfFloats (op : BinOp)
  | zeroTestOfFloat
deriving DecidableEq, Repr

def Mismatch.message : Mismatch → String
  | .expected wanted found => s!"expected {wanted.text}, found {found}"
  | .noValue => "instruction produced no value"
  | .noFunction index => s!"no function {index}"
  | .noImport index => s!"no import {index}"
  | .noLocal index => s!"no local {index}"
  | .noType index => s!"no type {index}"
  | .noField index => s!"no field {index}"
  | .unknownLabel label function => s!"branch to unknown label {label.index} in `{function}`"
  | .fieldCount ty declared found => s!"type {ty} has {declared} fields, {found} given"
  | .immutable ty field => s!"field {field} of type {ty} is immutable"
  | .notOfType ty => s!"object is not a {ty}"
  | .notSubtype actual ty => s!"struct of type {actual} is not a subtype of {ty}"
  | .fieldOfArray => "struct.get on array"
  | .itemOfStruct => "array.get on struct"
  | .lengthOfStruct => "array.len on struct"
  | .nullTest found => s!"ref.is_null on {found}"
  | .bitsOfFloats op => s!"{op.caseName} on floats"
  | .zeroTestOfFloat => "eqz on float"

/-- A fault of the host's own functions. -/
inductive HostFault where
  | notProvided (module name : String)
  | unknownModule (module : String)
  | unsupported (name : String) (argCount : Nat)
deriving DecidableEq, Repr

def HostFault.message : HostFault → String
  | .notProvided module name => s!"import `{module}.{name}` is not provided"
  | .unknownModule module => s!"unknown import module `{module}`"
  | .unsupported name argCount => s!"unsupported host import `{name}` with {argCount} arguments"

/-- A fault that ends a call. -/
inductive Trap where
  | code (reason : TrapCode)
  | divisionByZero
  | nullReference
  | typeMismatch (cause : Mismatch)
  | unknownExport (name : String)
  | callStackExhausted (depth : Nat)
  | outOfBounds (address length : Nat)
  | host (fault : HostFault)
  | argumentCount (expected found : Nat)
deriving DecidableEq, Repr

namespace Trap

def message : Trap → String
  | .code reason => s!"trap: {reason.message}"
  | .divisionByZero => "integer division by zero"
  | .nullReference => "null reference"
  | .typeMismatch cause => s!"type mismatch: {cause.message}"
  | .unknownExport name => s!"unknown export `{name}`"
  | .callStackExhausted depth => s!"call stack exhausted at depth {depth}"
  | .outOfBounds address length => s!"memory access out of bounds: {address}+{length}"
  | .host fault => s!"host error: {fault.message}"
  | .argumentCount expected found => s!"expected {expected} arguments, found {found}"

end Trap

/-! ### Looking at values -/

namespace Val

/-- What a local of a type holds at first. -/
def zero : ValTy → Val
  | .i32 => .i32 0
  | .i64 => .i64 0
  | .f32 => .f32 .zero
  | .f64 => .f64 .zero
  | .ref _ => .ref none

/-- The truth of a comparison. -/
def ofBool (b : Bool) : Val := .i32 (if b then 1 else 0)

def text (heap : Heap) : Val → String
  | .i32 n => s!"{n.toInt}:i32"
  | .i64 n => s!"{n.toInt}:i64"
  | .f32 x => x.text ++ ":f32"
  | .f64 x => x.text ++ ":f64"
  | .ref address =>
    match address.bind (heap[·]?) with
    | some (.struct ty _) => s!"<struct {ty}>"
    | some (.array items) => s!"<array {items.length}>"
    | none => "null"

/-- The full text of a value, objects included down to `depth` references. -/
def detail (heap : Heap) : (depth : Nat) → Val → String
  | _, .i32 n => s!"I32({n.toInt})"
  | _, .i64 n => s!"I64({n.toInt})"
  | _, .f32 x => "F32(" ++ x.textIn .detailed ++ ")"
  | _, .f64 x => "F64(" ++ x.textIn .detailed ++ ")"
  | 0, .ref _ => "Ref(None)"
  | depth + 1, .ref address =>
    let all (vs : List Val) : String := "[" ++ ", ".intercalate (vs.map (detail heap depth)) ++ "]"
    match address.bind (heap[·]?) with
    | some (.struct ty fields) =>
      s!"Ref(Some(RefCell \x7b value: Struct \x7b ty: {ty}, fields: " ++ all fields ++ " \x7d \x7d))"
    | some (.array items) => "Ref(Some(RefCell \x7b value: Array(" ++ all items ++ ") \x7d))"
    | none => "Ref(None)"

def detailOption (heap : Heap) : Option Val → String
  | some v => "Some(" ++ v.detail heap (heap.size + 1) ++ ")"
  | none => "None"

/-- The fault that a value is not what an operation takes. -/
def mismatch (heap : Heap) (wanted : Wanted) (v : Val) : Trap := .typeMismatch (.expected wanted (v.text heap))

def asI32 (heap : Heap) : Val → Except Trap Int32
  | .i32 n => .ok n
  | v => .error (v.mismatch heap .i32)

def asI64 (heap : Heap) : Val → Except Trap Int64
  | .i64 n => .ok n
  | v => .error (v.mismatch heap .i64)

def asF32 (heap : Heap) : Val → Except Trap Binary32
  | .f32 x => .ok x
  | v => .error (v.mismatch heap .f32)

def asF64 (heap : Heap) : Val → Except Trap Binary64
  | .f64 x => .ok x
  | v => .error (v.mismatch heap .f64)

/-- The address of the object that a value refers to. -/
def asAddress (heap : Heap) : Val → Except Trap Nat
  | .ref (some address) => .ok address
  | .ref none => .error .nullReference
  | v => .error (v.mismatch heap .reference)

/-- An address of linear memory; the sign bit is an ordinary bit here. -/
def asOffset (heap : Heap) (v : Val) : Except Trap Nat := do return (← v.asI32 heap).toUInt32.toNat

end Val

end Effectful.Target
