import Effectful.Execution
import Effectful.Proofs.UntouchedLocals
/-!
# Operators in compiled code

Interpretation applies operators to values, compiled code applies those of the machine to numbers,
among them zero and one for Booleans.  Both agree on all operands (`operators_agree`), also where
arithmetic wraps around, with one exception: `not` flips the bits of a number in interpretation, and
is a test for zero in compiled code (`run_not_five`).
-/

namespace Effectful

open Target
open Interp (Value EvalError)

/-- How compiled code holds a number or a Boolean of a type. -/
inductive HeldAs : Value → Ty → Val → Prop
  | i32 (n : Int32) : HeldAs (.i32 n) .i32 (.i32 n)
  | i64 (n : Int64) : HeldAs (.i64 n) .i64 (.i64 n)
  | bool (b : Bool) : HeldAs (.bool b) .bool (.ofBool b)

/-- A run agrees with interpretation: it gives the value if there is one, and where a division by
zero is the reason that there is none, it traps for the same reason.  It leaves the given store. -/
def Agrees (store : Store) (run : Except Exit (Option Val) × Activation) :
    Except EvalError Value → Prop
  | .ok x => ∃ t v, HeldAs x t v ∧ run.1 = .ok (some v) ∧ run.2.store = store
  | .error .divisionByZero => run.1 = .error (.stop (.trap .divisionByZero)) ∧ run.2.store = store
  | .error _ => True

/-- How an instruction ends whose last step may trap. -/
def Target.Exit.ofStep : Except Trap Val → Except Exit (Option Val)
  | .ok v => .ok (some v)
  | .error why => .error (.stop (.trap why))

/-! ### Values -/

section Values

variable {x y : Value} {t : Ty} {v w : Val} (act : Activation)

theorem agrees_binary (op : BinOp) (hx : HeldAs x t v) (hy : HeldAs y t w) :
    Agrees act.store (Exit.ofStep (op.compile.apply act.store.heap t.numTy v w), act)
      (Interp.binary op x y) := by
  cases hx with
  | i32 n =>
    cases hy with
    | i32 k =>
      show Agrees _ (Exit.ofStep (op.compile.i32s n k), act) (Interp.binary32Ints op n k)
      cases op
      case add | sub | mul | and | or => exact ⟨_, _, .i32 _, rfl, rfl⟩
      case eq | ne | lt | le | gt | ge => exact ⟨_, _, .bool _, rfl, rfl⟩
      all_goals
        simp only [Interp.binary32Ints, BinOp.compile, Target.BinOp.i32s]
        split
        · exact ⟨rfl, rfl⟩
        · exact ⟨_, _, .i32 _, rfl, rfl⟩
  | i64 n =>
    cases hy with
    | i64 k =>
      show Agrees _ (Exit.ofStep (op.compile.i64s n k), act) (Interp.binary64Ints op n k)
      cases op
      case add | sub | mul | and | or => exact ⟨_, _, .i64 _, rfl, rfl⟩
      case eq | ne | lt | le | gt | ge => exact ⟨_, _, .bool _, rfl, rfl⟩
      all_goals
        simp only [Interp.binary64Ints, BinOp.compile, Target.BinOp.i64s]
        split
        · exact ⟨rfl, rfl⟩
        · exact ⟨_, _, .i64 _, rfl, rfl⟩
  | bool a =>
    cases hy with
    | bool b =>
      -- the bits of zero and one are those of the Booleans
      cases op
      case and | or | eq | ne => cases a <;> cases b <;> exact ⟨_, _, .bool _, rfl, rfl⟩
      all_goals trivial

theorem binary_zero {op : BinOp} (hx : HeldAs x t v) (hy : HeldAs y t w)
    (hop : op = .div ∨ op = .rem) (hzero : y = .i32 0 ∨ y = .i64 0) :
    Interp.binary op x y = .error .divisionByZero := by
  rcases hop with rfl | rfl <;> rcases hzero with rfl | rfl <;> cases hy <;> cases hx <;> rfl

theorem agrees_neg (hx : HeldAs x t v) :
    Agrees act.store (Exit.ofStep (UnOp.neg.apply act.store.heap t.numTy v), act)
      (Interp.unary .neg x) := by
  cases hx with
  | i32 n => exact ⟨_, _, .i32 _, rfl, rfl⟩
  | i64 n => exact ⟨_, _, .i64 _, rfl, rfl⟩
  | bool b => trivial

/-- A test for zero flips the bits of no number but that of ones alone. -/
theorem agrees_eqz_iff (hx : HeldAs x t v) :
    Agrees act.store (Exit.ofStep (UnOp.eqz.apply act.store.heap .i32 v), act)
      (Interp.unary .not x) ↔ x = .i32 (-1) ∨ ∃ b, x = .bool b := by
  cases hx with
  | i32 n =>
    constructor
    · rintro ⟨t, v, h, hv, -⟩
      obtain rfl : Val.ofBool (n == 0) = v := Option.some.inj (Except.ok.inj hv)
      have hn : n ≠ 0 := fun hn => by subst hn; cases h
      rw [beq_false_of_ne hn] at h
      generalize hbits : ~~~n = bits at h
      cases h
      exact .inl (congrArg Value.i32 (Int32.not_eq_comm.mp hbits))
    · rintro (h | ⟨b, h⟩) <;> cases h
      exact ⟨_, _, .i32 0, rfl, rfl⟩
  | i64 n =>
    constructor
    · rintro ⟨t, v, -, hv, -⟩
      cases hv
    · simp
  | bool b => exact ⟨fun _ => .inr ⟨b, rfl⟩,
      fun _ => by cases b <;> exact ⟨_, _, .bool _, rfl, rfl⟩⟩

theorem int32_abs (n : Int32) : n.abs = if n < 0 then -n else n := by
  rw [← Int32.toBitVec_inj, apply_ite Int32.toBitVec]
  simp only [Int32.lt_iff_toBitVec_slt, Int32.toBitVec_ofNat, BitVec.ofNat_eq_ofNat,
    BitVec.slt_zero_eq_msb]
  rfl

theorem int64_abs (n : Int64) : n.abs = if n < 0 then -n else n := by
  rw [← Int64.toBitVec_inj, apply_ite Int64.toBitVec]
  simp only [Int64.lt_iff_toBitVec_slt, Int64.toBitVec_ofNat, BitVec.ofNat_eq_ofNat,
    BitVec.slt_zero_eq_msb]
  rfl

theorem atMost_cases (hx : HeldAs x t v) (hy : HeldAs y t w) (heap : Heap) :
    (∃ b, Interp.atMost x y = .ok b ∧ Target.BinOp.le.apply heap t.numTy v w = .ok (.ofBool b)) ∨
      ∃ cause, Interp.atMost x y = .error (.typeMismatch cause) := by
  cases hx <;> cases hy
  · exact .inl ⟨_, rfl, rfl⟩
  · exact .inl ⟨_, rfl, rfl⟩
  · exact .inr ⟨_, rfl⟩

theorem HeldAs.ite (b : Bool) (hx : HeldAs x t v) (hy : HeldAs y t w) :
    HeldAs (if b then x else y) t (if b then v else w) := by
  cases b
  · exact hy
  · exact hx

end Values

/-! ### Code -/

section Code

variable {mc : Machine} {callee : Callee} {act act₁ act' : Activation} {i j : Instr}
  {v w p q : Val} {b : Bool}

theorem Target.EvalM.map_withHeap (f : Heap → Except Trap Val) :
    (some <$> withHeap f) act = (Exit.ofStep (f act.store.heap), act) := by
  have h : withHeap f act = ((f act.store.heap).mapError (.stop ∘ .trap), act) := by
    rw [withHeap, get_bind]
    cases f act.store.heap <;> rfl
  rw [← bind_pure_comp, bind_eq, h]
  cases f act.store.heap <;> rfl

theorem Target.Instr.Gives.eval_binary (hi : i.Gives mc callee act v act₁)
    (hj : j.Gives mc callee act₁ w act') (op : Target.BinOp) (ty : NumTy) :
    (Instr.binary op ty i j).eval mc callee act =
      (Exit.ofStep (op.apply act'.store.heap ty v w), act') := by
  rw [Instr.eval, hi.bind, hj.bind, EvalM.map_withHeap]

theorem Target.Instr.Gives.eval_unary (hi : i.Gives mc callee act v act') (op : UnOp) (ty : NumTy) :
    (Instr.unary op ty i).eval mc callee act =
      (Exit.ofStep (op.apply act'.store.heap ty v), act') := by
  rw [Instr.eval, hi.bind, EvalM.map_withHeap]

theorem Target.Instr.Gives.size_eq {k : Nat} (hi : i.Gives mc callee act v act')
    (h : (i.eval mc callee).Avoids k) :
    act'.locals.size = act.locals.size := by
  have hsize := (h act).1
  rwa [show i.eval mc callee act = _ from hi] at hsize

theorem gives_put {k : Nat} (hk : k < act.locals.size) (v : Val) :
    (Instr.localGet k).Gives mc callee (act.put k v) v (act.put k v) :=
  Instr.gives_localGet (by simp [Activation.put, hk])

/-- A value is kept and then looked at. -/
theorem gives_block {l : Label} {kept : List Instr} {test onTrue onFalse : Instr}
    (hkept : evalSeq mc callee none kept act = (.ok none, act'))
    (htest : test.Gives mc callee act' (.ofBool b) act') (hp : onTrue.Gives mc callee act' p act')
    (hq : onFalse.Gives mc callee act' q act') :
    (Instr.block l (kept ++ [.ifElse test [onTrue] [onFalse]])).Gives mc callee act
      (if b then p else q) act' := by
  refine tryCatch_of_ok _ ((evalSeq_append_of_ok hkept).trans ?_)
  rw [evalSeq_singleton, htest.eval_ifElse_ofBool]
  cases b
  · exact (evalSeq_singleton _).trans hq
  · exact (evalSeq_singleton _).trans hp

/-- Operands are kept in two locals, of which the code of the second one avoids the first. -/
theorem keeps_two {k k' : Nat} (hi : i.Gives mc callee act v act₁)
    (hj : j.Gives mc callee act₁ w act') (havoids : (j.eval mc callee).Avoids k) (hlt : k < k')
    (hk : k' < act₁.locals.size) :
    let final := (act'.put k v).put k' w
    evalSeq mc callee none [.localSet k i, .localSet k' j] act = (.ok none, final) ∧
      (Instr.localGet k).Gives mc callee final v final ∧ (Instr.localGet k').Gives mc callee final w
      final := by
  obtain ⟨hsize, hput⟩ := havoids act₁
  rw [show j.eval mc callee act₁ = _ from hj] at hsize hput
  refine ⟨?_, Instr.gives_localGet ?_, Instr.gives_localGet ?_⟩
  · rw [evalSeq_cons_of_ok (hi.eval_localSet (by omega)), evalSeq_singleton]
    exact Instr.Gives.eval_localSet (hput v) (by simp [Activation.put, hsize, hk])
  · simp [Activation.put, hsize, Nat.ne_of_gt hlt, show k < act₁.locals.size by omega]
  · simp [Activation.put, hsize, hk]

end Code

/-! ### Nodes -/

/-- The code of operands of a type gives their values, one after the other. -/
inductive Computes (mc : Machine) (callee : Callee) (t : Ty) :
    List Instr → Activation → List Value → Activation → Prop
  | nil {act} : Computes mc callee t [] act [] act
  | cons {i is act v act₁ x xs act'} (hi : i.Gives mc callee act v act₁) (hx : HeldAs x t v)
      (his : Computes mc callee t is act₁ xs act') :
      Computes mc callee t (i :: is) act (x :: xs) act'

section Nodes

variable {c : UnitContext} {s : Scope} {st : EmitState} {ty : Ty} {span : Span} {mc : Machine}
  {callee : Callee} {act act' : Activation} {v w : Val}

theorem Agrees.of_gives {i : Instr} {x : Value} {result : Except EvalError Value} {store : Store}
    (h : i.Gives mc callee act v act') (hx : HeldAs x ty v) (hresult : result = .ok x)
    (hstore : act'.store = store) :
    Agrees store (i.eval mc callee act) result := by
  rw [hresult, show i.eval mc callee act = _ from h]
  exact ⟨ty, v, hx, rfl, hstore⟩

theorem agrees_abs {x : Value} (hx : HeldAs x ty v) {i : Instr} (hi : i.Gives mc callee act v act')
    (hk : c.firstTemp + st.temps.length < act'.locals.size) :
    Agrees act'.store ((Intrinsic.abs.compile c ty span [i] st).1.eval mc callee act)
      (Interp.intrinsic .abs [x]) := by
  have hget : (Instr.localGet (c.firstTemp + st.temps.length)).Gives mc callee _ v _ :=
    gives_put hk v
  have hkept : evalSeq mc callee none [.localSet (c.firstTemp + st.temps.length) i] act = _ :=
    (evalSeq_singleton _).trans (hi.eval_localSet hk)
  have hrun {b : Bool} {z p : Val} (hzero : ((Literal.int 0).compile ty).Gives mc callee _ z _)
      (hlt : Target.BinOp.lt.apply act'.store.heap ty.numTy v z = .ok (.ofBool b))
      (hneg : UnOp.neg.apply act'.store.heap ty.numTy v = .ok p) :=
    gives_block (l := ⟨st.nextLabel⟩) hkept (hget.binary hzero hlt)
      ((hget.eval_unary .neg ty.numTy).trans (congrArg (fun r => (Exit.ofStep r, _)) hneg)) hget
  cases hx with
  | i32 n =>
    refine .of_gives (hrun rfl rfl rfl) (.ite (n < 0) (.i32 (-n)) (.i32 n)) ?_ rfl
    by_cases h : n < 0 <;> simp [Interp.intrinsic, int32_abs, h]
  | i64 n =>
    refine .of_gives (hrun rfl rfl rfl) (.ite (n < 0) (.i64 (-n)) (.i64 n)) ?_ rfl
    by_cases h : n < 0 <;> simp [Interp.intrinsic, int64_abs, h]
  | bool b => trivial

theorem agrees_choice {which : Intrinsic} (hwhich : which ≠ .abs) {x y : Value} (hx : HeldAs x ty v)
    (hy : HeldAs y ty w)
    {i j : Instr} {act₁ : Activation} (hi : i.Gives mc callee act v act₁)
    (hj : j.Gives mc callee act₁ w act')
    (havoids : (j.eval mc callee).Avoids (c.firstTemp + st.temps.length))
    (hk : c.firstTemp + (st.temps ++ [ty.valTy]).length < act₁.locals.size) :
    Agrees act'.store ((which.compile c ty span [i, j] st).1.eval mc callee act)
      (Interp.intrinsic which [x, y]) := by
  obtain ⟨hkept, hv, hw⟩ := keeps_two hi hj havoids (by simp) hk
  generalize hfinal : (act'.put _ v).put _ w = final at *
  have hstore : final.store = act'.store := hfinal ▸ rfl
  obtain ⟨b, hmost, hle⟩ | ⟨cause, hmost⟩ := atMost_cases hx hy final.store.heap
  · have htest := hv.binary hw hle
    cases which with
    | abs => exact absurd rfl hwhich
    | min => exact .of_gives (gives_block hkept htest hv hw) (.ite b
        hx hy) (by rw [Interp.intrinsic, hmost]; rfl) hstore
    | max => exact .of_gives (gives_block hkept htest hw hv) (.ite b
        hy hx) (by rw [Interp.intrinsic, hmost]; rfl) hstore
  · cases which with
    | abs => exact absurd rfl hwhich
    | min | max =>
      rw [Interp.intrinsic, hmost]
      trivial

theorem agrees_intrinsic {which : Intrinsic} {xs : List Value} {is : List Instr}
    (h : Computes mc callee ty is act xs act')
    (havoids : ∀ i ∈ is, (i.eval mc callee).Avoids (c.firstTemp + st.temps.length))
    (hroom : c.firstTemp + (which.compile c ty span is st).2.temps.length ≤ act.locals.size) :
    Agrees act'.store ((which.compile c ty span is st).1.eval mc callee act)
      (Interp.intrinsic which xs) := by
  obtain - | ⟨hi, hx, - | ⟨hj, hy, - | _⟩⟩ := h
  · cases which <;> trivial
  · cases which with
    | abs =>
      refine agrees_abs hx hi (hi.size_eq (havoids _ (by simp)) ▸ Nat.lt_of_lt_of_le ?_ hroom)
      show _ < c.firstTemp + (st.temps ++ [ty.valTy]).length
      simp
    | min | max => trivial
  · by_cases hwhich : which = .abs
    · cases hwhich
      cases hx <;> trivial
    · refine agrees_choice hwhich hx hy hi hj (havoids _ (by simp))
        (hi.size_eq (havoids _ (by simp)) ▸ Nat.lt_of_lt_of_le ?_ hroom)
      cases which with
      | abs => exact absurd rfl hwhich
      | min | max =>
        show _ < c.firstTemp + ((st.temps ++ [ty.valTy]) ++ [ty.valTy]).length
        simp
  · cases which <;> cases hx <;> trivial

/-- **Operators in compiled code.** Let the code of operands give what compiled code holds for
values of one type.  Then the code of a binary operator agrees with interpretation, and division by
zero is an error on both sides.  So does the code of a unary operator, if and only if it is not a
`not` of a number (`-1` apart).  The code of a built-in function agrees as well, if the operands
keep to the locals that were handed out before and there are enough locals. -/
theorem operators_agree {es : List Expr} {t : Ty} {xs : List Value}
    (hoperands : Computes mc callee t (compileAll c s es st).1 act xs act') (id : ExprId) (ty : Ty)
    (span : Span) :
    (∀ op lhs rhs x y, es = [lhs, rhs] → xs = [x, y] → lhs.ty = t →
      Agrees act'.store (((Form.binary op lhs rhs).compile c s id ty span st).1.eval mc callee act)
          (Interp.binary op x y) ∧
        (op = .div ∨ op = .rem → y = .i32 0 ∨ y = .i64 0 → Interp.binary op x y = .error
          .divisionByZero)) ∧
    (∀ op operand x, es = [operand] → xs = [x] → operand.ty = t →
      (Agrees act'.store (((Form.unary op operand).compile c s id ty span st).1.eval mc callee act)
        (Interp.unary op x) ↔ (op = .not → x = .i32 (-1) ∨ ∃ b, x = .bool b))) ∧
    ∀ which target L, target.form = .intrinsic which → ty = t →
      allFit mc.module (c.firstTemp + (compileAll c s es st).2.temps.length) L
      (compileAll c s es st).1 = true → c.firstTemp +
      ((Form.call target es).compile c s id ty span st).2.temps.length ≤ act.locals.size →
      Agrees act'.store (((Form.call target es).compile c s id ty span st).1.eval mc callee act)
        (Interp.intrinsic which xs) := by
  refine ⟨?_, ?_, ?_⟩
  · rintro op lhs rhs x y rfl rfl rfl
    -- the operands are two instructions, one for each value
    generalize his : (compileAll c s [lhs, rhs] st).1 = is at hoperands
    obtain - | ⟨hi, hx, - | ⟨hj, hy, - | _⟩⟩ := hoperands
    cases his
    have hrun : ((Form.binary op lhs rhs).compile c s id ty span st).1.eval mc callee act = _ :=
      hi.eval_binary hj _ _
    rw [hrun]
    exact ⟨agrees_binary _ op hx hy, binary_zero hx hy⟩
  · rintro op operand x rfl rfl rfl
    generalize his : (compileAll c s [operand] st).1 = is at hoperands
    obtain - | ⟨hi, hx, - | _⟩ := hoperands
    cases his
    cases op with
    | neg =>
      have hrun : ((Form.unary .neg operand).compile c s id ty span st).1.eval mc callee act = _ :=
        hi.eval_unary .neg _
      rw [hrun]
      simpa using agrees_neg _ hx
    | not =>
      have hrun : ((Form.unary .not operand).compile c s id ty span st).1.eval mc callee act = _ :=
        hi.eval_unary .eqz .i32
      rw [hrun]
      simpa using agrees_eqz_iff _ hx
  · rintro which target L htarget rfl hfits hroom
    have hcode : (Form.call target es).compile c s id ty span st =
        which.compile c ty span (compileAll c s es st).1 (compileAll c s es st).2 := by
      rw [Form.compile, htarget]
      rfl
    rw [hcode] at hroom ⊢
    exact agrees_intrinsic hoperands
      (fun i hi => Instr.avoids_eval (Nat.le_refl _) (allFit_iff.mp hfits i hi)) hroom

def number (n : Int64) (ty : Ty) : Expr := .node ⟨0⟩ (.literal (.int n)) ty {}

/-- Division of the least number by minus one wraps around.  To find the minimum, both are kept in
locals. -/
theorem operators_agree_least :
    ∃ (c : UnitContext) (s : Scope) (mc : Machine) (callee : Callee) (act :
      Activation) (min : Expr),
      let run := fun form => (Form.compile c s ⟨1⟩ .i32 {} form {}).1.eval mc callee act
      let operands := [number (-2147483648) .i32, number (-1) .i32]
      Agrees act.store (run (.binary .div operands[0] operands[1])) (.ok (.i32 (-2147483648))) ∧
      Agrees act.store (run (.call min operands)) (.ok (.i32 (-2147483648))) := by
  let c : UnitContext := ⟨default, {}, default, default, 0, default⟩
  let mc : Machine := ⟨default, fun _ _ _ => .error .divisionByZero, 0, 0⟩
  let callee : Callee := fun _ _ store => (.ok none, store)
  let act : Activation := ⟨(List.replicate (c.firstTemp + 2) (.i32 0)).toArray, default⟩
  have h : Computes mc callee .i32
      (compileAll c ⟨[], none, none⟩ [number (-2147483648) .i32, number (-1) .i32] {}).1 act
      [.i32 (-2147483648), .i32 (-1)] act := .cons rfl (.i32 _) (.cons rfl (.i32 _) .nil)
  obtain ⟨hbinary, -, hcall⟩ := operators_agree h ⟨1⟩ .i32 {}
  exact ⟨c, _, mc, callee, act, .node ⟨2⟩ (.intrinsic .min) .i32 {},
    (hbinary .div _ _ _ _ rfl rfl rfl).1, hcall .min _ [] rfl rfl (by decide) (by decide)⟩

end Nodes

/-- `main` computes `not` of five. -/
def notFive (ty : Ty) : Program where
  functions := [{ id := ⟨0⟩, name := "main", params := [], ret := ty, exported := true, locals := []
                  body := .node ⟨1⟩ (.unary .not (number 5 ty)) ty {} }]

/-- **Compiled code does not flip the bits of numbers.** Of a 32-bit number it makes zero, a 64-bit
one is a trap. -/
theorem run_not_five :
    let compiled := fun ty =>
      ((notFive ty).runCompiled {} {} 10 "main" [] (fun s _ => (.error "", s)) ()).1.toOption
    let interpreted :=
      fun ty => ((notFive ty).runInterpreted {} {} 10 "main" [] (fun s _ => (.error "", s))
        ()).1.toOption
    compiled .i32 = some (.i32 0) ∧ interpreted .i32 = some (.i32 (-6)) ∧
      compiled .i64 = none ∧ interpreted .i64 = some (.i64 (-6)) := by
  decide +kernel

end Effectful
