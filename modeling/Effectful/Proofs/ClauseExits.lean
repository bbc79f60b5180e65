import Effectful.Proofs.HandledRun
/-!
# Exits that pass clauses

An exit goes down the stack until a construct stops it (`Pending.stops`); what stands on the way is
left without a trace but the frames that it gives back (`reaches_exit`).  Two things follow for
handlers.

A transfer knows the handle expression that it ends, not the activation.  So it ends the innermost
clause of that expression, whichever activation this clause belongs to
(`reaches_below_innermost_clause`).

A body that a clause has resumed stands above this clause.  An exit of the body that the handle
expression would let pass comes to the clause first, which takes it for its own
(`reaches_of_exit_guarded`): a `return` becomes the value of the handle expression, or the trap of a
tail clause that has not resumed, and no loop around the handle expression gets to see a `break` or
a `continue`.
-/

namespace Effectful.Interp

open StateTransition

/-- Whether a construct does something with an exit.  All others let it pass. -/
def Pending.stops (x : Exit) : Pending → Bool
  | .loopBody _ _ _ =>
    match x with
    | .breakLoop | .continueLoop => true
    | _ => false
  | .call _ =>
    match x with
    | .transfer _ _ => false
    | _ => true
  | .clause handle _ _ =>
    match x with
    | .transfer target _ => target == handle
    | _ => true
  | _ => false

/-- Gives back the frames of constructs that are left. -/
def Store.releaseAll (store : Store) (left : List Pending) : Store :=
  left.foldl (fun store q => store.release q.owned?) store

section Exits

variable {σ : Type} (s : Setting) (host : σ → Request → Except EvalError Value × σ) (state : σ)

/-- An exit passes a construct that does not stop it. -/
theorem step_exit_of_not_stops {x : Exit} {q : Pending} (hq : q.stops x = false)
    (stack : List Pending) (store : Store) :
    s.step ⟨.exit x, q :: stack, store⟩ = .of (.exit x) stack (store.release q.owned?) := by
  cases q with
  | loopBody cond body frame => cases x <;> first | rfl | simp [Pending.stops] at hq
  | call owned => cases x <;> first | rfl | simp [Pending.stops] at hq
  | clause handle kind owned =>
    cases x with
    | transfer target v => exact if_neg (by simpa [Pending.stops] using hq)
    | _ => simp [Pending.stops] at hq
  | _ => rfl

/-- An exit passes all constructs that do not stop it. -/
theorem reaches_exit {x : Exit} {above : List Pending} (habove : ∀ q ∈ above, q.stops x = false)
    (stack : List Pending) (store : Store) :
    Reaches (s.advance host) (state, .of (.exit x) (above ++ stack) store)
      (state, .of (.exit x) stack (store.releaseAll above)) := by
  induction above generalizing store with
  | nil => exact .refl
  | cons q above ih =>
    obtain ⟨hq, habove⟩ := List.forall_mem_cons.mp habove
    exact Setting.reaches_next (step_exit_of_not_stops s hq _ store)
      (ih habove (store.release q.owned?))

/-- **A transfer ends the innermost clause of its handle expression.** When a tail continuation of
the expression is through with a value, the activation whose clause is the innermost one gets this
value, even if the continuation belongs to an activation further down. -/
theorem reaches_below_innermost_clause {handle : ExprId} {above : List Pending}
    (habove : ∀ kind owned, .clause handle kind owned ∉ above) (v : Value) (kind : ResumeKind)
    (owned : Option FrameId) (below : List Pending) (store : Store) :
    Reaches (s.advance host)
      (state, .of (.value v) (.transfer handle :: (above ++ .clause handle kind owned :: below))
        store)
      (state, .of (.value v) below ((store.releaseAll above).release owned)) := by
  have hpass : ∀ q ∈ above, q.stops (.transfer handle v) = false := by
    intro q hq
    cases q with
    | clause target kind owned =>
      have hne : handle ≠ target := by
        rintro rfl
        exact habove kind owned hq
      simpa [Pending.stops] using hne
    | _ => rfl
  have htaken : s.step ⟨.exit (.transfer handle v), .clause handle kind owned :: below,
      store.releaseAll above⟩ = .of (.value v) below ((store.releaseAll above).release owned) :=
      if_pos rfl
  refine Setting.reaches_next rfl ?_
  exact (reaches_exit s host state hpass _ store).trans (Setting.reaches_next htaken .refl)

/-- The handle expression of `visit` is active twice, and the clause of the inner activation calls
the continuation of the outer one through the closure that it was given. -/
def nestedVisits : Program where
  effects := [{ id := ⟨0⟩, name := "A", ops := [⟨"a", 0, [], .i32, .tail⟩] }]
  functions := [
    { id := ⟨1⟩, name := "visit", params := [⟨0⟩, ⟨1⟩], ret := .i32
      locals := [⟨"n", .i32⟩, ⟨"f", .fn [.i32] .i32⟩, ⟨"k", .continuation .i32 .i32⟩, ⟨"x", .i32⟩]
      body := .i32 0 (.handle (.i32 1 (.perform ⟨⟨0⟩, 0⟩ [] []))
        [.mk ⟨⟨0⟩, "a", none, [], ⟨2⟩, {}⟩ (.i32 2 (.branch
          (.node ⟨3⟩ (.binary .eq (.i32 4 (.var ⟨0⟩))
          (.i32 5 (.literal (.int 0)))) .bool {})
          (.i32 6 (.call (.node ⟨7⟩ (.fn ⟨1⟩) (.fn [.i32, .fn [.i32] .i32] .i32) {})
            [.i32 8 (.literal (.int 1)),
              .node ⟨9⟩ (.closure [⟨3⟩]
              (.i32 10 (.call (.node ⟨11⟩ (.var ⟨2⟩) (.continuation .i32 .i32) {})
                [.i32 12 (.var ⟨3⟩)]))) (.fn [.i32] .i32) {}]))
          (some (.i32 13 (.call (.node ⟨14⟩ (.var ⟨1⟩) (.fn [.i32] .i32) {})
            [.i32 15 (.literal (.int 7))])))))]
        none) },
    { id := ⟨2⟩, name := "main", params := [], ret := .i32, locals := [⟨"y", .i32⟩]
      body := .i32 16 (.call (.node ⟨17⟩ (.fn ⟨1⟩) (.fn [.i32, .fn [.i32] .i32] .i32) {})
        [.i32 18 (.literal (.int 0)),
          .node ⟨19⟩ (.closure [⟨0⟩] (.i32 20 (.var ⟨0⟩))) (.fn [.i32] .i32) {}])
          }]

/-- The inner activation takes the value, and the clause of the outer one has nothing to end
with. -/
theorem reaches_below_innermost_clause_nestedVisits :
    let s : Setting := { program := nestedVisits, analysis := nestedVisits.analyze false }
    ∃ store, Reaches (s.advance fun (_ : Unit) _ => (.ok .unit, ())) ((), s.startCall {} "main" [])
      ((), .fail (.trap .tailResumeMissing) store) := by
  intro s
  -- the closure has resumed the continuation of the outer activation, which is through with 7
  obtain ⟨store, hstore⟩ : ∃ store, s.after 45 (s.startCall {} "main" []) =
      .of (.value (.i32 7)) (.transfer ⟨0⟩ :: ([.call (some ⟨5⟩)] ++ .clause ⟨0⟩ .tail (some ⟨4⟩) ::
        [.call (some ⟨3⟩), .clause ⟨0⟩ .tail (some ⟨2⟩), .call (some ⟨1⟩), .call (some ⟨0⟩)]))
        store :=
    ⟨_, rfl⟩
  have hresumed := s.reaches_after (fun (_ : Unit) _ => (.ok .unit, ())) () 45
    (s.startCall {} "main" [])
  rw [hstore] at hresumed
  have htaken := reaches_below_innermost_clause s (fun (_ : Unit) _ => (.ok .unit, ())) ()
    (show ∀ kind owned, .clause ⟨0⟩ kind owned ∉ [Pending.call (some ⟨5⟩)] by simp) (.i32 7)
    .tail (some ⟨4⟩) [.call (some ⟨3⟩), .clause ⟨0⟩ .tail (some ⟨2⟩), .call (some ⟨1⟩),
    .call (some ⟨0⟩)] store
  exact ⟨_, (hresumed.trans htaken).trans
    (Setting.reaches_next rfl (Setting.reaches_next rfl .refl))⟩

/-- What a clause makes of an exit of the body that it has resumed. -/
def Exit.atClause (kind : ResumeKind) (below : List Pending) (store : Store) : Exit → Step
  | .ret v =>
    match kind with
    | .tail => .fail (.trap .tailResumeMissing) store
    | .resume => .of (.value v) below store
  | .breakLoop | .continueLoop => .fail .strayExit store
  | .transfer target v => .of (.exit (.transfer target v)) below store

/-- **Exits of a guarded body depend on whether the body has been resumed.** As long as no operation
of the body was handled, `return`, `break` and `continue` leave the handle expression the same way.
In a body that was resumed by a clause, they end at this clause. -/
theorem reaches_of_exit_guarded {x : Exit} (hx : ∀ target v, x ≠ .transfer target v)
    {inner around : List Pending} (hinner : ∀ q ∈ inner, q.stops x = false)
    (haround : ∀ q ∈ around, q.stops x = false) (handle : ExprId) (clauses : List Clause)
    (frame : FrameId) (kind : ResumeKind) (owned : Option FrameId) (below : List Pending)
    (store : Store) :
    Reaches (s.advance host)
      (state, .of (.exit x) (inner ++ .guard handle clauses frame :: below) store)
        (state, .of (.exit x) below (store.releaseAll inner)) ∧
      Reaches (s.advance host)
        (state, .of (.exit x) (inner ++ .guard handle clauses frame ::
          marked handle kind (around ++ .clause handle kind owned :: below)) store)
        (state, x.atClause kind below
          (((store.releaseAll inner).releaseAll around).release owned)) := by
  have hguard (stack : List Pending) : Reaches (s.advance host)
      (state, .of (.exit x) (inner ++ .guard handle clauses frame :: stack) store)
      (state, .of (.exit x) stack (store.releaseAll inner)) :=
    (reaches_exit s host state hinner _ store).trans (Setting.reaches_next rfl .refl)
  -- the mark of a tail continuation only waits for a value
  have hmark (stack : List Pending) (store : Store) : Reaches (s.advance host)
      (state, .of (.exit x) (marked handle kind stack) store)
      (state, .of (.exit x) stack store) := by
    cases kind with
    | tail => exact Setting.reaches_next rfl .refl
    | resume => exact .refl
  have hclause (store : Store) : s.step ⟨.exit x, .clause handle kind owned :: below, store⟩ =
      x.atClause kind below (store.release owned) := by
    cases x with
    | transfer target v => exact absurd rfl (hx target v)
    | ret v => cases kind <;> rfl
    | breakLoop => rfl
    | continueLoop => rfl
  refine ⟨hguard below, ?_⟩
  exact (hguard _).trans <| (hmark _ _).trans <|
    (reaches_exit s host state haround _ _).trans <| Setting.reaches_next (hclause _) .refl

end Exits

/-- A function that is left from within a handle expression, after an operation of the given kind
was handled there. -/
def returnAfterOperation (kind : ResumeKind) : Program where
  effects := [{ id := ⟨0⟩, name := "A", ops := [⟨"a", 0, [], .i32, kind⟩] }]
  functions := [{
    id := ⟨1⟩, name := "main", params := [], ret := .i32, locals := [⟨"k", .continuation .i32 .i32⟩]
    body := .i32 0 (.block
      [.expr (.i32 1 (.handle
        (.i32 2 (.block [.expr (.i32 3 (.perform ⟨⟨0⟩, 0⟩ [] []))]
          (some (.i32 4 (.ret (some (.i32 5 (.literal (.int 5)))))))))
        [.mk ⟨⟨0⟩, "a", none, [], ⟨0⟩, {}⟩
          (.i32 6 (.call (.node ⟨7⟩ (.var ⟨0⟩) (.continuation .i32 .i32) {})
            [.i32 8 (.literal (.int 1))]))]
        none))]
      (some (.i32 9 (.literal (.int 100))))) }]

/-- Its `return` traps if the operation is a tail operation. -/
theorem reaches_of_exit_guarded_return :
    let s : Setting :=
      { program := returnAfterOperation .tail,
        analysis := (returnAfterOperation .tail).analyze false }
    ∃ store, Reaches (s.advance fun (_ : Unit) _ => (.ok .unit, ())) ((), s.startCall {} "main" [])
      ((), .fail (.trap .tailResumeMissing) store) := by
  intro s
  apply Exists.intro
  -- the body has been resumed and is about to return
  iterate 15 refine Setting.reaches_next rfl ?_
  exact (reaches_of_exit_guarded s _ () (by simp) (List.forall_mem_nil _) (List.forall_mem_nil _)
    ⟨1⟩ _ _ .tail _ _ _).2

end Effectful.Interp
