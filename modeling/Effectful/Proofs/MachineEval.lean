import Effectful.Emission.Representation
import Effectful.Proofs.Computation
import Effectful.Target.Machine
import Mathlib.Data.List.Basic
/-!
# Running instructions

An instruction that gives a value does so from the values of its parts.  The lemmas below say what
those instructions give that save and restore environments and that compare the numbers of sites.
-/

namespace Effectful.Target

open EvalM

variable {m : Machine} {callee : Callee} {act act₁ act' : Activation}
variable {v : Val} {ty index : Nat} {vs : List Val} {i : Instr} {is : List Instr}
  {last : Option Val}

attribute [local simp] Instr.eval

namespace EvalM

variable {α : Type}

theorem withHeap_of_ok {f : Heap → Except Trap α} {v : α} (h : f act.store.heap = .ok v) :
    withHeap f act = (.ok v, act) := by
  rw [withHeap, get_bind, h]
  rfl

theorem getLocal_of_some {i : Nat} (h : act.locals[i]? = some v) :
    getLocal i act = (.ok v, act) := by
  rw [getLocal, get_bind, h]
  rfl

theorem setLocal_of_lt {i : Nat} (v : Val) (h : i < act.locals.size) :
    setLocal i v act = (.ok (), ⟨act.locals.setIfInBounds i v, act.store⟩) := by
  rw [setLocal, get_bind, if_pos h]
  rfl

theorem getField_of_struct {address actual field : Nat} {fields : List Val}
    (hobject : act.store.heap[address]? = some (.struct actual fields))
    (hty : m.module.isSubtype actual ty = true) (hfield : fields[field]? = some v) :
    getField m ty field address act = (.ok v, act) := by
  have hget : object address act = (.ok (.struct actual fields), act) := by
    rw [object, get_bind, hobject]
    rfl
  rw [getField, bind_of_ok hget]
  simp only [hty, if_true, hfield]
  rfl

end EvalM

/-- The activation with one more object on the heap. -/
def Activation.push (act : Activation) (object : Object) : Activation :=
  ⟨act.locals, act.store.memory, act.store.heap.push object⟩

def Instr.Gives (m : Machine) (callee : Callee) (i : Instr) (act : Activation) (v : Val)
    (act' : Activation) : Prop :=
  i.eval m callee act = (.ok (some v), act')

namespace Instr

variable {lhs rhs cond obj value : Instr} {w : Val}

/-- An instruction goes on with the value of a part. -/
theorem Gives.bind {α : Type} {k : Val → EvalM α} (h : i.Gives m callee act v act') :
    (do k (← EvalM.needed (← i.eval m callee))) act = k v act' := by
  rw [bind_of_ok h]
  rfl

theorem gives_nat (n : Nat) : (nat n).Gives m callee act (.i32 (.ofNat n)) act := rfl

theorem gives_refNull : refNull.Gives m callee act (.ref none) act := rfl

theorem gives_localGet (h : act.locals[index]? = some v) :
    (localGet index).Gives m callee act v act :=
  map_of_ok (getLocal_of_some h)

theorem gives_filler (ty : ValTy) : ty.filler.Gives m callee act (Val.zero ty) act := by
  cases ty <;> rfl

theorem Gives.binary {op : Target.BinOp} {ty : NumTy} {r : Val} (hl : lhs.Gives m callee act v act₁)
    (hr : rhs.Gives m callee act₁ w act') (h : op.apply act'.store.heap ty v w = .ok r) :
    (binary op ty lhs rhs).Gives m callee act r act' := by
  rw [Gives, eval, hl.bind, hr.bind]
  exact map_of_ok (withHeap_of_ok h)

theorem Gives.eqz {n : Int32} (h : value.Gives m callee act (.i32 n) act') :
    value.eqz.Gives m callee act (.ofBool (n == 0)) act' := by
  rw [Gives, Instr.eqz, eval, h.bind]
  exact map_of_ok (withHeap_of_ok rfl)

theorem Gives.i32Eq {x y : Int32} (hl : lhs.Gives m callee act (.i32 x) act₁)
    (hr : rhs.Gives m callee act₁ (.i32 y) act') :
    (lhs.i32Eq rhs).Gives m callee act (.ofBool (x == y)) act' :=
  hl.binary hr rfl

/-- A test whether a number lies between two bounds. -/
theorem Gives.within {x : Int32} (h : value.Gives m callee act (.i32 x) act) (low high : Nat) :
    (value.within low high).Gives m callee act
      (.i32 (if Int32.ofNat low ≤ x ∧ x ≤ Int32.ofNat high then 1 else 0)) act := by
  refine (h.binary (gives_nat low) rfl).binary (h.binary (gives_nat high) rfl) ?_
  by_cases hlow : Int32.ofNat low ≤ x <;> by_cases hhigh : x ≤ Int32.ofNat
    high <;> simp [hlow, hhigh] <;> rfl

/-- Reading a field of an object whose type is known. -/
theorem Gives.structGet {address actual field : Nat} {fields : List Val}
    (h : obj.Gives m callee act (.ref (some address)) act')
    (hobject : act'.store.heap[address]? = some (.struct actual fields))
    (hty : m.module.isSubtype actual ty = true) (hfield : fields[field]? = some v) :
    (structGet ty field obj).Gives m callee act v act' := by
  have haddress : withHeap (Val.ref (some address)).asAddress act' = (.ok address, act') :=
    withHeap_of_ok rfl
  rw [Gives, eval, h.bind, bind_of_ok haddress]
  exact map_of_ok (getField_of_struct hobject hty hfield)

theorem gives_structNew {t : StructTy} {fields : List Instr}
    (h : evalAll m callee fields act = (.ok vs, act')) (hty : m.module.types[ty]? = some t)
    (hlen : vs.length = t.fields.length) :
    (structNew ty fields).Gives m callee act (.ref (some act'.store.heap.size))
      (act'.push (.struct ty vs)) := by
  rw [Gives, eval, bind_of_ok h]
  refine map_of_ok ?_
  rw [newStruct, hty]
  simp only [hlen, if_true]
  rfl

theorem Gives.memLoad32 {addr : Instr} {a : Int32} {bytes : List UInt8}
    (h : addr.Gives m callee act (.i32 a) act')
    (hread : act'.store.memory.read? a.toUInt32.toNat 4 = some bytes) :
    (memLoad32 addr).Gives m callee act (.i32 (.ofNat (ofLittleEndian bytes))) act' := by
  have haddress : withHeap (Val.i32 a).asOffset act' = (.ok a.toUInt32.toNat, act') :=
    withHeap_of_ok rfl
  have hload : load a.toUInt32.toNat 4 act' = (.ok (ofLittleEndian bytes), act') := by
    rw [load, get_bind, hread]
    rfl
  rw [Gives, eval, h.bind, bind_of_ok haddress, bind_of_ok hload]
  rfl

/-- A condition decides which code runs. -/
theorem Gives.eval_ifElse {n : Int32} {onTrue onFalse : List Instr}
    (h : cond.Gives m callee act (.i32 n) act') :
    (ifElse cond onTrue onFalse).eval m callee act =
      if n ≠ 0 then evalSeq m callee none onTrue act' else evalSeq m callee none onFalse act' := by
  have hnumber : withHeap (Val.i32 n).asI32 act' = (.ok n, act') := withHeap_of_ok rfl
  rw [eval, h.bind, bind_of_ok hnumber]
  split <;> rfl

theorem apply_and_ofBool (heap : Heap) (x y : Bool) :
    Target.BinOp.apply heap .and .i32 (.ofBool x) (.ofBool y) = .ok (.ofBool (x && y)) := by
  cases x <;> cases y <;> rfl

/-- A choice by a test. -/
theorem Gives.eval_ifElse_ofBool {b : Bool} {onTrue onFalse : List Instr}
    (h : cond.Gives m callee act (.ofBool b) act') :
    (ifElse cond onTrue onFalse).eval m callee act =
      if b then evalSeq m callee none onTrue act' else evalSeq m callee none onFalse act' := by
  cases b <;> exact eval_ifElse h

theorem Gives.eval_localSet (h : value.Gives m callee act v act') (hlt : index < act'.locals.size) :
    (localSet index value).eval m callee act =
      (.ok none, ⟨act'.locals.setIfInBounds index v, act'.store⟩) := by
  rw [eval, h.bind, bind_of_ok (setLocal_of_lt v hlt)]
  rfl

end Instr

/-! ### Sequences -/

theorem evalSeq_cons_of_ok {v : Option Val} (h : i.eval m callee act = (.ok v, act')) :
    evalSeq m callee last (i :: is) act = evalSeq m callee v is act' := by
  rw [evalSeq, bind_of_ok h]

theorem evalSeq_cons_of_error {e : Exit} (h : i.eval m callee act = (.error e, act')) :
    evalSeq m callee last (i :: is) act = (.error e, act') := by
  rw [evalSeq, bind_of_error h]

theorem evalSeq_singleton (i : Instr) : evalSeq m callee none [i] act = i.eval m callee act := by
  cases hi : i.eval m callee act with
  | mk r act₁ =>
    cases r with
    | ok v =>
      rw [evalSeq_cons_of_ok hi]
      rfl
    | error e => exact evalSeq_cons_of_error hi

/-- Code that ends is followed by the code behind it. -/
theorem evalSeq_append_of_ok {js : List Instr} {v : Option Val}
    (h : evalSeq m callee last is act = (.ok v, act')) :
    evalSeq m callee last (is ++ js) act = evalSeq m callee v js act' := by
  induction is generalizing act last with
  | nil =>
    obtain ⟨hv, rfl⟩ := Prod.mk.inj h
    obtain rfl := Except.ok.inj hv
    rfl
  | cons i is ih =>
    cases hi : i.eval m callee act with
    | mk r act₁ =>
      cases r with
      | ok w =>
        rw [evalSeq_cons_of_ok hi] at h
        rw [List.cons_append, evalSeq_cons_of_ok hi]
        exact ih h
      | error e =>
        rw [evalSeq_cons_of_error hi] at h
        cases h

theorem evalAll_cons_of_gives (h : i.Gives m callee act v act₁)
    (hrest : evalAll m callee is act₁ = (.ok vs, act')) :
    evalAll m callee (i :: is) act = (.ok (v :: vs), act') := by
  rw [evalAll, h.bind, bind_of_ok hrest]
  rfl

/-- Operands that change nothing. -/
theorem evalAll_of_forall₂ (h : List.Forall₂ (fun i v => i.Gives m callee act v act) is vs) :
    evalAll m callee is act = (.ok vs, act) := by
  induction h with
  | nil => rfl
  | cons h _ ih => exact evalAll_cons_of_gives h ih

/-! ### Calls -/

theorem EvalM.call_eq (f : Store → Except Stop (Option Val) × Store) (act : Activation) :
    EvalM.call f act = ((f act.store).1.mapError Exit.stop, ⟨act.locals, (f act.store).2⟩) := by
  rw [EvalM.call, modifyGet_bind]
  cases (f act.store).1 <;> rfl

/-- How a function is left that gives back the result of a call. -/
def Exit.ofCall : Except Stop (Option Val) → Exit
  | .ok (some v) => .ret (some v)
  | .ok none => .stop (.trap (.typeMismatch .noValue))
  | .error why => .stop why

/-- What such a function gives back. -/
def passedOn : Except Stop (Option Val) × Store → Except Stop (Option Val) × Store
  | (.ok none, store) => (.error (.trap (.typeMismatch .noValue)), store)
  | result => result

/-- A unit may end with what a call gives. -/
theorem Instr.eval_give_call {args : List Instr}
    (hargs : evalAll m callee args act = (.ok vs, act)) :
    (Instr.give (.call index args)).eval m callee act =
      (.error (.ofCall (callee index vs act.store).1),
        ⟨act.locals, (callee index vs act.store).2⟩) := by
  have hcall : (Instr.call index args).eval m callee act =
      ((callee index vs act.store).1.mapError Exit.stop,
      ⟨act.locals, (callee index vs act.store).2⟩) := by
    rw [Instr.eval, bind_of_ok hargs, EvalM.call_eq]
  rw [Instr.give, Instr.eval]
  generalize callee index vs act.store = result at hcall
  obtain ⟨result, store⟩ := result
  match result with
  | .ok (some v) =>
    rw [bind_of_ok hcall]
    rfl
  | .ok none =>
    rw [bind_of_ok hcall]
    rfl
  | .error why =>
    rw [bind_of_error hcall]
    rfl

theorem Function.run_of_stop {f : Function} {args : List Val} {store : Store} {why : Stop}
    (h : evalSeq m callee none f.body ⟨(args ++ f.locals.map Val.zero).toArray, store⟩ =
      (.error (.stop why), act')) :
    f.run m callee args store = (.error why, act'.store) := by
  rw [run, h]

theorem Function.run_of_call {f : Function} {args : List Val} {store : Store}
    {result : Except Stop (Option Val)}
    (h : evalSeq m callee none f.body ⟨(args ++ f.locals.map Val.zero).toArray, store⟩ =
      (.error (.ofCall result), act')) :
    f.run m callee args store = passedOn (result, act'.store) := by
  rw [run, h]
  match result with
  | .ok (some v) => rfl
  | .ok none => rfl
  | .error why => rfl

end Effectful.Target
