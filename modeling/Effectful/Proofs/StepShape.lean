import Effectful.Interp.Run
/-!
# What a step can do

A step works on the top of the stack.  What stands below does not change it (`Setting.step_under`).
It leaves the suspended calls alone (`Step.Leaves`), and of the continuations it changes none but
the count of the one that it calls (`Captured.Kept`).  All of this is said by `Step.Acts`, with one
lemma for each function of the interpreter.
-/

namespace Effectful.Interp

/-! ### Outcomes -/

namespace Step

/-- The store that an outcome of a step has. -/
def store : Step → Store
  | .next st => st.store
  | .fail _ store | .done _ store => store

/-- The outcome of a step with further constructs below the stack. -/
def under (below : List Pending) : Step → Step
  | .next st => .next { st with stack := st.stack ++ below }
  | .fail e store => .fail e store
  | .done c store => .of c below store

@[simp]
theorem under_of (below : List Pending) (c : Control) (stack : List Pending) (store : Store) :
    (Step.of c stack store).under below = .of c (stack ++ below) store := rfl

/-- The computation goes on with the suspended calls of a store, or it fails and leaves the
store. -/
def Leaves (store : Store) : Step → Prop
  | .next st => st.store.suspensions = store.suspensions
  | .fail _ store₁ => store₁ = store
  | .done _ _ => False

end Step

/-- The frame that the construct gives back when it is over. -/
def Pending.owned? : Pending → Option FrameId
  | .call owned | .clause _ _ owned => owned
  | _ => none

/-! ### Calls of continuations -/

def Value.isContinuation (c : ContinuationId) : Value → Bool
  | .callable (.continuation target) => target == c
  | _ => false

theorem Value.isContinuation_iff {c : ContinuationId} {v : Value} :
    v.isContinuation c = true ↔ v = .callable (.continuation c) := by
  cases v with
  | callable callable => cases callable <;> simp [Value.isContinuation]
  | _ => simp [Value.isContinuation]

/-- Whether the next step calls the given continuation: all operands are there, and it is the
callee. -/
def State.calls (c : ContinuationId) (st : State) : Bool :=
  match st.control, st.stack with
  | .value callee, .callee [] _ :: _ => callee.isContinuation c
  | .value _, .operands _ [] _ (.apply callee) :: _ => callee.isContinuation c
  | _, _ => false

/-- Continuations stay, and the count changes only of those that are called. -/
def Captured.Kept (called : ContinuationId → Prop) (ks ks' : Array Captured) : Prop :=
  ∀ (c : ContinuationId) k, ks[c.index]? = some k →
    ∃ n, ks'[c.index]? = some { k with resumed := n } ∧ (n = k.resumed ∨ called c)

theorem Captured.Kept.refl {called : ContinuationId → Prop} {ks : Array Captured} :
    Kept called ks ks :=
  fun _ k hk => ⟨k.resumed, hk, .inl rfl⟩

/-- What a step does, whether or not other constructs stand below the stack. -/
structure Step.Acts (below : List Pending) (called : ContinuationId → Prop) (store : Store)
    (step step' : Step) :
    Prop where
  under : step' = step.under below
  leaves : step.Leaves store
  kept : Captured.Kept called store.continuations step.store.continuations

/-! ### Functions of the interpreter -/

variable {control : Control} {stack : List Pending} {store : Store}

namespace Setting

open Step (Acts)

variable (s : Setting) (below : List Pending) {called : ContinuationId → Prop}

theorem acts_result (r : Except EvalError Value) :
    Acts below called store (.result r stack store) (.result r (stack ++ below) store) := by
  cases r <;> exact ⟨rfl, rfl, .refl⟩

theorem acts_callFn (target : DefId) (args : List Value) :
    Acts below called store (s.callFn target args stack store)
      (s.callFn target args (stack ++ below) store) := by
  unfold callFn
  split
  · exact ⟨rfl, rfl, .refl⟩
  · split <;> exact ⟨rfl, rfl, .refl⟩

theorem acts_resumeContinuation {id : ContinuationId} (hid : called id) (v : Value) :
    Acts below called store (resumeContinuation id v stack store)
      (resumeContinuation id v (stack ++ below) store) := by
  unfold resumeContinuation
  split
  · exact ⟨rfl, rfl, .refl⟩
  · rename_i k hk
    split
    · exact ⟨rfl, rfl, .refl⟩
    · refine ⟨by split <;> simp [List.reverseAux_eq], rfl, fun c k' hk' => ?_⟩
      by_cases hc : id = c
      · subst hc
        obtain rfl : k = k' := Option.some.inj (hk.symm.trans hk')
        exact ⟨k.resumed + 1, Array.getElem?_setIfInBounds_self_of_lt
          (Array.getElem?_eq_some_iff.mp hk).1, .inr hid⟩
      · have hne : id.index ≠ c.index := by
          intro h
          exact hc (by cases id; cases c; exact congrArg _ h)
        exact ⟨k'.resumed, (Array.getElem?_setIfInBounds_ne hne).trans hk', .inl rfl⟩

theorem acts_apply {callee : Value} (hcallee : ∀ c, callee.isContinuation c = true → called c)
    (args : List Value) :
    Acts below called store (s.apply callee args stack store)
      (s.apply callee args (stack ++ below) store) := by
  unfold apply
  split
  · exact s.acts_callFn below _ _
  · split <;> exact ⟨rfl, rfl, .refl⟩
  · exact ⟨rfl, rfl, .refl⟩
  · exact acts_resumeContinuation below (hcallee _ (Value.isContinuation_iff.mpr rfl)) _
  · exact acts_result below _
  · exact ⟨rfl, rfl, .refl⟩

theorem acts_operands (done : List Value) {rest : List Expr} (frame : FrameId) {use : OperandUse}
    (huse : ∀ callee c, rest = [] → use = .apply callee → callee.isContinuation c = true →
      called c) :
    Acts below called store (s.operands done rest frame use stack store)
      (s.operands done rest frame use (stack ++ below) store) := by
  unfold operands
  split
  · exact ⟨rfl, rfl, .refl⟩
  · split
    · exact s.acts_apply below (huse _ · rfl rfl) _
    · exact ⟨rfl, rfl, .refl⟩
    · exact ⟨rfl, rfl, .refl⟩

theorem acts_block (frame : FrameId) (tail : Option Expr) (stmts : List Stmt) {store' : Store}
    (h : store'.suspensions = store.suspensions) (h' : store'.continuations = store.continuations) :
    Acts below called store (block frame tail stack store' stmts)
      (block frame tail (stack ++ below) store' stmts) := by
  have hnext {c : Control} {stack stack' : List Pending} (hstack : stack' = stack ++ below) :
      Acts below called store (.of c stack store') (.of c stack' store') :=
    ⟨by rw [hstack]; rfl, h, h' ▸ .refl⟩
  induction stmts with
  | nil => cases tail <;> exact hnext rfl
  | cons stmt stmts ih =>
    cases stmt with
    | bind target init =>
      cases init with
      | none => exact ih
      | some e => exact hnext rfl
    | expr e => exact hnext rfl

theorem acts_round (cond : Option Expr) (body : Expr) (frame : FrameId) :
    Acts below called store (round cond body frame stack store)
      (round cond body frame (stack ++ below) store) := by
  cases cond <;> exact ⟨rfl, rfl, .refl⟩

theorem acts_select (v : Value) (frame : FrameId) (arms : List Arm) :
    Acts below called store (select v frame stack store arms)
      (select v frame (stack ++ below) store arms) := by
  induction arms with
  | nil => exact ⟨rfl, rfl, .refl⟩
  | cons arm arms ih =>
    obtain ⟨pattern, body⟩ := arm
    cases pattern with
    | literal l =>
      rw [select, select]
      split
      · exact ⟨rfl, rfl, .refl⟩
      · exact ih
    | wildcard | binding => exact ⟨rfl, rfl, .refl⟩

theorem acts_eval (e : Expr) (frame : FrameId) :
    Acts below called store (s.eval e frame stack store)
      (s.eval e frame (stack ++ below) store) := by
  obtain ⟨id, form, ty, span⟩ := e
  cases form with
  | var source =>
    simp only [eval, Expr.form]
    split <;> exact ⟨rfl, rfl, .refl⟩
  | perform | tuple => exact s.acts_operands below _ _ (by simp)
  | block stmts tail => exact acts_block below _ _ _ rfl rfl
  | ret value => cases value <;> exact ⟨rfl, rfl, .refl⟩
  | handle body clauses finalizer => cases finalizer <;> exact ⟨rfl, rfl, .refl⟩
  | _ => exact ⟨rfl, rfl, .refl⟩

theorem acts_endClause (kind : ResumeKind) (v : Value) :
    Acts below called store (endClause kind v stack store)
      (endClause kind v (stack ++ below) store) := by
  cases kind <;> exact ⟨rfl, rfl, .refl⟩

theorem acts_give (v : Value) (q : Pending) :
    Acts below (State.calls · ⟨.value v, q :: stack, store⟩ = true) (store.release q.owned?)
      (s.give v stack store q) (s.give v (stack ++ below) store q) := by
  cases q with
  | binaryRight | unary => exact acts_result below _
  | callee args frame =>
    refine s.acts_operands below _ _ ?_
    rintro callee c rfl ⟨rfl⟩ hc
    exact hc
  | operands done rest frame use =>
    refine s.acts_operands below _ _ ?_
    rintro callee c rfl rfl hc
    exact hc
  | stmt target rest tail frame =>
    refine acts_block below _ _ _ ?_ ?_
    all_goals cases target <;> rfl
  | branch onTrue onFalse frame =>
    simp only [give]
    split
    · exact ⟨rfl, rfl, .refl⟩
    · cases onFalse <;> exact ⟨rfl, rfl, .refl⟩
    · exact ⟨rfl, rfl, .refl⟩
  | select arms frame => exact acts_select below _ _ _
  | loopCond cond body frame =>
    simp only [give]
    split <;> exact ⟨rfl, rfl, .refl⟩
  | loopBody cond body frame => exact acts_round below _ _ _
  | field index =>
    cases v with
    | tuple items =>
      simp only [give]
      split <;> exact ⟨rfl, rfl, .refl⟩
    | _ => exact ⟨rfl, rfl, .refl⟩
  | clause handle kind owned => exact acts_endClause below _ _
  | _ => exact ⟨rfl, rfl, .refl⟩

theorem acts_leave (x : Exit) (q : Pending) :
    Acts below called (store.release q.owned?) (leave x stack store q)
      (leave x (stack ++ below) store q) := by
  cases q with
  | loopBody cond body frame =>
    cases x with
    | continueLoop => exact acts_round below _ _ _
    | _ => exact ⟨rfl, rfl, .refl⟩
  | call owned => cases x <;> exact ⟨rfl, rfl, .refl⟩
  | clause handle kind owned =>
    cases x with
    | transfer target v =>
      simp only [leave]
      split <;> exact ⟨rfl, rfl, .refl⟩
    | ret v => exact acts_endClause below _ _
    | _ => exact ⟨rfl, rfl, .refl⟩
  | _ => exact ⟨rfl, rfl, .refl⟩

theorem acts_raise (op : OpRef) (args : List Value) (rest : List Pending) (q : Pending) :
    Acts below called (store.release q.owned?) (s.raise op args rest stack store q)
      (s.raise op args rest (stack ++ below) store q) := by
  cases q with
  | call owned | clause _ _ owned => cases owned <;> exact ⟨rfl, rfl, .refl⟩
  | guard handle clauses frame =>
    simp only [raise]
    split
    · exact ⟨rfl, rfl, .refl⟩
    · refine ⟨rfl, rfl, fun c k hk => ⟨k.resumed, ?_, .inl rfl⟩⟩
      have hlt := (Array.getElem?_eq_some_iff.mp hk).1
      exact (Array.getElem?_push_lt hlt).trans ((Array.getElem?_eq_getElem hlt).symm.trans hk)
  | _ => exact ⟨rfl, rfl, .refl⟩

end Setting

/-! ### Steps -/

/-- What a step leaves that ends the run: a call or a clause gives its frame back when it is
left. -/
def State.leftBehind (st : State) : Store :=
  match st.control, st.stack with
  | .eval _ _, _ => st.store
  | _, [] => st.store
  | _, q :: _ => st.store.release q.owned?

@[simp]
theorem State.continuations_leftBehind (st : State) :
    st.leftBehind.continuations = st.store.continuations := by
  have hrelease (store : Store) (owned : Option FrameId) : (store.release owned).continuations =
      store.continuations := by
    cases owned <;> rfl
  unfold leftBehind
  split
  all_goals first | rfl | exact hrelease _ _

namespace Setting

variable (s : Setting)

/-- **A step works on the top of the stack**, unless the run is over. -/
theorem acts_step (below : List Pending) (h : stack ≠ [] ∨ ∃ e frame, control = .eval e frame)
    (store : Store) :
    Step.Acts below (State.calls · ⟨control, stack, store⟩ = true)
      (State.leftBehind ⟨control, stack, store⟩) (s.step ⟨control, stack, store⟩)
      (s.step ⟨control, stack ++ below, store⟩) := by
  cases control with
  | eval e frame => exact s.acts_eval below e frame
  | value v =>
    cases stack with
    | nil => simp at h
    | cons q stack => exact s.acts_give below v q
  | exit x =>
    cases stack with
    | nil => simp at h
    | cons q stack => exact acts_leave below x q
  | request op args rest =>
    cases stack with
    | nil => simp at h
    | cons q stack => exact s.acts_raise below op args rest q

/-- **A step does not look below the topmost construct.** -/
theorem step_under (below : List Pending) (h : stack ≠ [] ∨ ∃ e frame, control = .eval e frame) :
    s.step ⟨control, stack ++ below, store⟩ = (s.step ⟨control, stack, store⟩).under below :=
  (s.acts_step below h store).under

theorem step_of_nil (h : ∀ e frame, control ≠ .eval e frame) (store : Store) :
    s.step ⟨control, [], store⟩ = .done control store := by
  cases control with
  | eval e frame => exact absurd rfl (h e frame)
  | value | exit | request => rfl

/-- Only an empty stack is the end of a computation. -/
theorem step_ne_done {c : Control} (h : stack ≠ [] ∨ ∃ e frame, control = .eval e frame)
    (store' : Store) :
    s.step ⟨control, stack, store⟩ ≠ .done c store' := by
  intro hdone
  have hleaves := (s.acts_step [] h store).leaves
  rw [hdone] at hleaves
  exact hleaves

end Setting

end Effectful.Interp
