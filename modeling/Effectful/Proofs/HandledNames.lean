import Effectful.Proofs.RowSoundness
/-!
# Handled names are handled

Rows know operations by their labels, which overloads share: a handler takes the labels of its
clauses out of the row of its body.  A clause answers one operation only.  So a request that no
clause of a handler answers shows in the row of the handler if the handler answers either all
operations with one label or none (`Program.CoversOverloads`).

`Visited` are the states that calls and resumptions go through.  When a request gets to a guard
there, its label is in the row of the body of the handler (`Visited.exists_handler`), unless the
body resumed the continuation of a clause around the handler: calling a continuation adds nothing to
a row.
-/

namespace Effectful.Interp

open List

/-- The states that calls and resumptions by a host go through, after any history. -/
inductive Visited (s : Setting) : State → Prop
  | call {log : List (DefId × Request)} {store : Store} (h : History s log store) {name : String}
      {f : FnDecl} (hf : s.program.functionNamed? name = some f) {args : List Value}
      (hargs : ∀ v ∈ args, s.program.Admits v) {st : State}
      (hst : s.startCall store name args = .next st) :
      Visited s st
  | resume {log : List (DefId × Request)} {store : Store} (h : History s log store) {d : DefId}
      {r : Request} (hr : (d, r) ∈ log) {v : Value} (hv : s.program.Admits v) {st : State}
      (hst : Setting.startResume store r.suspension v = .next st) : Visited s st
  | step {st st' : State} (h : Visited s st) (hst : s.step st = .next st') : Visited s st'

section Covered

variable {s : Setting} {c : InferenceContext} (hs : s.Covered c) {st : State}
include hs

theorem Visited.valid (h : Visited s st) (l : String) :
    ∃ owners may w, st.Valid c l owners may w := by
  induction h with
  | call h hf hargs hst =>
    have hlog := h.fits_of_covered hs l
    obtain ⟨w, hstore⟩ := hlog.store
    rw [hs.program] at hf hargs
    have hvalid := Setting.startCall_valid hs hstore hf hargs
    rw [hst] at hvalid
    exact ⟨_, _, hvalid⟩
  | resume h hr hv hst =>
    have hlog := h.fits_of_covered hs l
    obtain ⟨w, hstore⟩ := hlog.store
    rw [hs.program] at hv
    have hvalid := Setting.startResume_valid hstore (hlog.owner hr) hv
    rw [hst] at hvalid
    exact ⟨_, _, hvalid⟩
  | step h hst ih =>
    obtain ⟨owners, may, w, hvalid⟩ := ih
    have hnext := Setting.step_valid hs hvalid
    rw [hst] at hnext
    exact ⟨owners, may, hnext⟩

variable {op : OpRef} {args : List Value} {rest below : List Pending} {handle : ExprId}
  {clauses : List Clause} {frame : FrameId} {store : Store}

/-- A request that gets to a guard is for a declared operation, and the guard is that of a handler
of the program.  If no clause answers the operation, then none handles its label.  If the handler is
not inside of a clause, then the label is in the row of its body. -/
theorem Visited.exists_handler
    (h : Visited s ⟨.request op args rest, .guard handle clauses frame :: below, store⟩) :
    ∃ x ∈ c.program.nodes, x.id = handle ∧ ∃ body finalizer, x.form =
      .handle body clauses finalizer ∧
      (s.clauseFor? handle clauses op = none →
        c.program.opLabel op ∉ clauses.filterMap (·.head.label? c.program)) ∧
      ((store.frames.cell? frame).bind (·.parent) = none →
        body.performs c (c.program.opLabel op)) := by
  obtain ⟨owners, may, w, hvalid⟩ := h.valid hs (c.program.opLabel op)
  obtain ⟨hop, -, -, -, -, hnot⟩ := hvalid.control
  have hframes := hvalid.store.frames
  have hinUse : store.frames.InUse frame := hvalid.anchored.inUse_frame? hframes.sound
    mem_cons_self rfl
  have hfn : w.fn frame ∈ c.program.functions := hframes.fn_mem frame hinUse
  have hfit := hvalid.fits _ mem_cons_self
  -- what has passed the constructs above the guard is what the guard expects
  have hadmits : w.admits c (c.program.opLabel op) (.guard handle clauses frame) := by
    have hflow : w.Bounds c (c.program.opLabel op) may
        (rest.reverse ++ .guard handle clauses frame :: below)
        (c.program.opLabel op = c.program.opLabel op) := hvalid.flow
    refine (World.bounds_append_iff.mp hflow).2.1 (World.flow_of_not_handles (fun q hq => ?_) rfl)
    exact hnot q (mem_reverse.mp hq)
  obtain ⟨x, hx, hid, body, finalizer, hform⟩ := hfit.handler handle clauses frame rfl
  refine ⟨x, Program.mem_nodes hfn hx, hid, body, finalizer, hform, hs.not_handles hop hfn hfit,
    fun hroot => ?_⟩
  obtain ⟨cell, hcell⟩ := hinUse.exists_cell
  have hreach : ¬ w.reach frame :=
    hframes.root frame cell hinUse hcell (by simpa [hcell] using hroot)
  obtain ⟨x', hx', hid', body', finalizer', hform', hperforms⟩ := hadmits.resolve_left hreach
  -- the handler is known from its id
  obtain rfl : x' = x := inj_on_of_nodup_map hs.nodes (Program.mem_nodes hfn hx')
    (Program.mem_nodes hfn hx) (hid'.trans hid.symm)
  rw [hform, Form.handle.injEq] at hform'
  rwa [hform'.1]

/-- The clause that answers an operation fits it. -/
theorem Setting.Covered.answers_of_clauseFor? {x body : Expr} {finalizer : Option Expr}
    (hx : x ∈ c.program.nodes) (hform : x.form = .handle body clauses finalizer) {cl : Clause}
    {kind : ResumeKind} (h : s.clauseFor? x.id clauses op = some (cl, kind)) :
    cl.head.answers? c.program = some op := by
  rw [Setting.clauseFor?, hs.analysis, Program.handler?_analyze hs.nodes hx hform] at h
  obtain ⟨⟨cl', i⟩, hmem, hsome⟩ := exists_of_findSome?_eq_some h
  obtain ⟨plan, hplan, heq⟩ := Option.map_eq_some_iff.mp hsome
  obtain ⟨rfl, rfl⟩ := Prod.mk.inj heq
  obtain ⟨hclause, hop⟩ := Option.filter_eq_some_iff.mp hplan
  have hget : clauses[i]? = some cl' := mk_mem_zipIdx_iff_getElem?.mp hmem
  rw [x.clause?_handlerPlan_eq, hget, Option.bind_some] at hclause
  rw [← eq_of_beq hop]
  exact Program.answers?_of_plan hclause

end Covered

/-- What the body of a handler performs and no clause handles is in the rows of the handler. -/
theorem mem_labels_handlerPlan {c : InferenceContext} {x body : Expr} {clauses : List Clause}
    {finalizer : Option Expr} {l : String} (hbody : body.performs c l)
    (hl : l ∉ clauses.filterMap (·.head.label? c.program)) :
    l ∈ (x.handlerPlan c body clauses finalizer).1.continuationRow.labels ∧
      l ∈ (x.handlerPlan c body clauses finalizer).1.resultRow.labels := by
  have hrow : l ∈ (x.handlerPlan c body clauses finalizer).1.continuationRow.labels :=
    Row.mem_labels_drop.mpr ⟨hbody, hl⟩
  exact ⟨hrow, Row.mem_labels_compose.mpr ⟨_, mem_cons_self, hrow⟩⟩

/-- **Handled names are handled.** In a first-order program about which the analysis has no
complaint, and whose handlers answer all overloads of an operation or none, a request that gets to a
handler in any run is answered there by a clause that fits the operation, or it goes on.  If it goes
on and the handler is not inside of a clause (its frame is that of a call, which has no parent),
then the label of the operation is in the row that is left of the body, and in the row of the
handler. -/
theorem Visited.answered_or_shown (p : Program) (exhaustive recycle : Bool)
    (hfunctions : p.DistinctFunctions) (hnodes : p.DistinctNodes) (hoverloads : p.CoversOverloads)
    (hfirst : p.isFirstOrder = true) (herrors : (p.analyze exhaustive).hasErrors = false)
    {op : OpRef} {args : List Value} {rest below : List Pending} {handle : ExprId}
    {clauses : List Clause} {frame : FrameId} {store : Store}
    (h : Visited { program := p, analysis := p.analyze exhaustive, recycle }
      ⟨.request op args rest, .guard handle clauses frame :: below, store⟩) :
    let next := Setting.step { program := p, analysis := p.analyze exhaustive, recycle }
      ⟨.request op args rest, .guard handle clauses frame :: below, store⟩
    (∃ cl ∈ clauses, cl.head.answers? p = some op ∧ ∃ kind inner store',
        next = .next ⟨.eval cl.body inner, .clause handle kind (some inner) :: below, store'⟩) ∨
      next = .next ⟨.request op args (.guard handle clauses frame :: rest), below, store⟩ ∧
        ((store.frames.cell? frame).bind (·.parent) = none →
          ∃ plan, (p.analyze exhaustive).handler? handle = some plan ∧
            p.opLabel op ∈ plan.continuationRow.labels ∧ p.opLabel op ∈ plan.resultRow.labels) := by
  set s : Setting := { program := p, analysis := p.analyze exhaustive, recycle }
  have hs : s.Covered (p.finalContext exhaustive) :=
    ⟨rfl, rfl, rfl, herrors, hfunctions, hnodes, hoverloads, hfirst⟩
  obtain ⟨x, hx, rfl, body, finalizer, hform, hhandled, hperforms⟩ := h.exists_handler hs
  intro next
  cases hclause : s.clauseFor? x.id clauses op with
  | some answer =>
    obtain ⟨cl, kind⟩ := answer
    refine .inl ⟨cl, Setting.mem_of_clauseFor? hclause, hs.answers_of_clauseFor? hx hform
      hclause, kind, ?_⟩
    simp only [next, Setting.step, Setting.raise, hclause]
    exact ⟨_, _, rfl⟩
  | none =>
    refine .inr ⟨?_, fun hroot => ?_⟩
    · simp only [next, Setting.step, Setting.raise, hclause]
      rfl
    · exact ⟨_, Program.handler?_analyze hnodes hx hform, mem_labels_handlerPlan (hperforms hroot)
        (hhandled hclause)⟩

/-- The state after some steps of a run, if it goes on for so long. -/
def Setting.stateAfter (s : Setting) : Nat → Step → Option State
  | 0, .next st => some st
  | n + 1, .next st => s.stateAfter n (s.step st)
  | _, _ => none

theorem Visited.of_stateAfter {s : Setting} {n : Nat} {step : Step} {st : State}
    (hstart : ∀ st, step = .next st → Visited s st) (h : s.stateAfter n step = some st) :
    Visited s st := by
  induction n generalizing step with
  | zero =>
    cases step with
    | next st' =>
      obtain rfl := Option.some.inj h
      exact hstart _ rfl
    | _ => cases h
  | succ n ih =>
    cases step with
    | next st' => exact ih (fun st hst => (hstart st' rfl).step hst) h
    | _ => cases h

/-- A request that arrives at a guard: the operation, whether it has no arguments, the handler,
whether none of its clauses fits, and whether it is outside of clauses. -/
def State.arrival? (st : State) (p : Program) : Option (OpRef × Bool × ExprId × Bool × Bool) :=
  match st.control, st.stack with
  | .request op args _, .guard handle clauses frame :: _ =>
    some (op, args.isEmpty, handle, clauses.all fun cl => cl.head.answers? p != some op,
      ((st.store.frames.cell? frame).bind (·.parent)).isNone)
  | _, _ => none

/-- An effect with two overloads of `x` and an operation `y`, and a function that performs the first
`x` and then `y` under a handler of `x`. -/
def handlerOfOverloads (clauses : List Clause) : Program where
  effects := [{ id := ⟨0⟩, name := "E",
                ops := [⟨"x", 0, [], .i32, .tail⟩, ⟨"x", 0, [.i32], .i32, .tail⟩,
                  ⟨"y", 0, [], .i32, .tail⟩] }]
  functions := [{
    id := ⟨1⟩, name := "main", params := [], ret := .i32,
    locals := [⟨"k", .continuation .i32 .i32⟩, ⟨"n", .i32⟩, ⟨"k", .continuation .i32 .i32⟩],
    body := .i32 0 (.handle
      (.i32 1 (.binary .add (.i32 2 (.perform ⟨⟨0⟩, 0⟩ [] []))
        (.i32 3 (.perform ⟨⟨0⟩, 2⟩ [] []))))
      clauses none) }]

/-- The clause of the first overload resumes with one. -/
def firstClause : Clause :=
  .mk ⟨⟨0⟩, "x", some [], [], ⟨0⟩, {}⟩
    (.i32 4 (.call (.node ⟨5⟩ (.var ⟨0⟩) (.continuation .i32 .i32) {})
      [.i32 6 (.literal (.int 1))]))

/-- The clause of the second overload resumes with the argument. -/
def secondClause : Clause :=
  .mk ⟨⟨0⟩, "x", some [.i32], [⟨1⟩], ⟨2⟩, {}⟩
    (.i32 7 (.call (.node ⟨8⟩ (.var ⟨2⟩) (.continuation .i32 .i32) {})
      [.i32 9 (.var ⟨1⟩)]))

/-- With clauses for both overloads, `x` is answered and `y`, which the resumed body performs,
shows. -/
theorem Visited.answered_or_shown_both :
    let p := handlerOfOverloads [firstClause, secondClause]
    ∃ rest clauses frame below store,
      Visited { program := p, analysis := p.analyze false }
        ⟨.request ⟨⟨0⟩, 2⟩ [] rest, .guard ⟨0⟩ clauses frame :: below, store⟩ ∧
      ∃ plan, (p.analyze false).handler? ⟨0⟩ = some plan ∧ "E.y" ∈ plan.continuationRow.labels ∧
        "E.y" ∈ plan.resultRow.labels := by
  intro p
  let s : Setting := { program := p, analysis := p.analyze false }
  have hrun : (s.stateAfter 13 (s.startCall {} "main" [])).bind (·.arrival? p) =
      some (⟨⟨0⟩, 2⟩, true, ⟨0⟩, true, true) := by
    decide +kernel
  obtain ⟨⟨control, stack, store⟩, hst, harrival⟩ := Option.bind_eq_some_iff.mp hrun
  have hvisited : Visited s ⟨control, stack, store⟩ :=
    .of_stateAfter (fun st hst => .call .start rfl (by simp) hst) hst
  unfold State.arrival? at harrival
  split at harrival
  · rename_i op args rest handle clauses frame below hcontrol hstack
    obtain rfl : control = _ := hcontrol
    obtain rfl : stack = _ := hstack
    simp only [Option.some.injEq, Prod.mk.injEq, List.isEmpty_iff, all_eq_true, bne_iff_ne,
      Option.isNone_iff_eq_none] at harrival
    obtain ⟨rfl, rfl, rfl, hnot, hroot⟩ := harrival
    refine ⟨rest, clauses, frame, below, store, hvisited, ?_⟩
    rcases Visited.answered_or_shown p false true (by decide) (by decide) (by decide +kernel)
      (by decide) (by decide +kernel) hvisited with ⟨cl, hcl, hanswers, -⟩ | ⟨-, hshown⟩
    · exact absurd hanswers (hnot cl hcl)
    · exact hshown hroot
  · cases harrival

/-- **A handler of some overloads loses the others.** With a clause for the second overload only,
the host is asked for the first one, which is in no row: neither in that of the function nor in that
which is left of the body.  There is no complaint about it. -/
theorem requested_lostOverload :
    let p := handlerOfOverloads [secondClause]
    let s : Setting := { program := p, analysis := p.analyze false }
    (p.analyze false).hasErrors = false ∧ ¬ p.CoversOverloads ∧
      ((s.call 100 {} "main" []).map fun after => (requested ⟨1⟩ after.result).map (·.2.label)) =
      some ["E.x"] ∧ "E.x" ∉ ((p.analyze false).functionRow ⟨1⟩).labels ∧
      ((p.analyze false).handler? ⟨0⟩).map (·.continuationRow.labels) = some ["E.y"] := by
  decide +kernel

end Effectful.Interp
