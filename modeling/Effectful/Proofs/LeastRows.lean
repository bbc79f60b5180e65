import Effectful.Proofs.RowInference
import Mathlib.Data.Set.Basic
import Mathlib.Logic.Relation
import Mathlib.Order.Bounds.Defs
/-!
# Inference finds the least rows

The labels of the functions of a program depend on each other through direct calls.  `Expr.Raises`
says which labels an expression has when the labels of the functions are given, one rule for each
way in which a label comes about, and a family of label sets is a *solution* if each function has
the labels that its body raises (`Program.SolvesRows`).

A program may have many solutions: functions that only call each other may be given any label at
all. Inference finds the least one, and a function is open exactly if it or a function that it
reaches by direct calls is declared so (`Program.labels_analyze_isLeast`).
-/

namespace Effectful

open List

/-! ### The equations -/

/-- The expression raises a label, if functions raise the labels that `R` gives them. -/
inductive Expr.Raises (p : Program) (R : DefId → Set String) (l : String) : Expr → Prop where
  /-- Performing a declared operation raises its label. -/
  | perform {e : Expr} {operation : OpRef} {args : List Expr} {typeArgs : List Ty}
      (hform : e.form = .perform operation args typeArgs) (hop : (p.op? operation).isSome)
      (hlabel : p.opLabel operation = l) : Raises p R l e
  /-- A direct call raises what the function raises. -/
  | call {e callee : Expr} {args : List Expr} {f : FnDecl} (hform : e.form = .call callee args)
      (hcallee : callee.form = .fn f.id) (hf : f ∈ p.functions) (hl : l ∈ R f.id) : Raises p R l e
  /-- Every construct but a handler raises what its parts raise. -/
  | part {e c : Expr} (hform : e.form.isHandle = false) (hc : c ∈ e.form.children)
      (h : Raises p R l c) :
      Raises p R l e
  /-- A handler lets the labels of its body through that none of its clauses names. -/
  | guarded {e body : Expr} {clauses : List Clause} {finalizer : Option Expr}
      (hform : e.form = .handle body clauses finalizer) (h : Raises p R l body)
      (hl : ∀ c ∈ clauses, c.head.label? p ≠ some l) : Raises p R l e
  | clause {e body : Expr} {clauses : List Clause} {finalizer : Option Expr} {c : Clause}
      (hform : e.form = .handle body clauses finalizer) (hc : c ∈ clauses)
      (h : Raises p R l c.body) :
      Raises p R l e
  | finalizer {e body f : Expr} {clauses : List Clause}
      (hform : e.form = .handle body clauses (some f)) (h : Raises p R l f) : Raises p R l e

def FnDecl.DeclaresOpen (f : FnDecl) : Prop := ∃ row, f.effects = some row ∧ row.isOpen = true

namespace Program

/-- Each function has the labels that its body raises. -/
def SolvesRows (p : Program) (R : DefId → Set String) : Prop :=
  ∀ f ∈ p.functions, R f.id = {l | f.body.Raises p R l}

/-- The function calls the other one by its name, anywhere in its body. -/
def Calls (p : Program) (f g : FnDecl) : Prop :=
  g ∈ p.functions ∧ ∃ x ∈ f.body.walk, ∃ callee args, x.form = .call callee args ∧
    callee.form = .fn g.id

end Program

/-! ### Labels -/

section Labels

variable {p : Program} {exhaustive : Bool} {rows : List (DefId × Row)} {R : DefId → Set String}
  {l : String}

/-- Inference finds only what the equations give, as long as the known rows keep to them. -/
theorem Expr.raises_of_performs
    (hR : ∀ d, l ∈ (Program.rowIn rows d).labels → ∃ f ∈ p.functions, f.id = d ∧ l ∈ R d) {e : Expr}
    (h : e.performs ⟨p, exhaustive, rows⟩ l) : e.Raises p R l := by
  induction e using Expr.induction with
  | step e ih =>
    cases hh : e.form.isHandle with
    | false =>
      rw [performs_iff hh] at h
      obtain ⟨c, hc, h⟩ | h := h
      · exact .part hh hc (ih c hc h)
      cases hf : e.form with
      | call callee args =>
        rw [hf] at h
        obtain ⟨d, hd, hl⟩ := h
        obtain ⟨f, hfn, rfl, hl⟩ := hR d hl
        exact .call hf hd hfn hl
      | perform operation args typeArgs =>
        rw [hf] at h
        exact .perform hf h.1 h.2
      | _ => simp [hf, Form.performsItself] at h
    | true =>
      cases hf : e.form with
      | handle body clauses finalizer =>
        rw [performs_iff_of_handle hf] at h
        simp only [hf, Form.children, mem_cons, mem_append, mem_map, Option.mem_toList] at ih
        obtain ⟨hb, hl⟩ | ⟨c, hc, h⟩ | ⟨f, rfl, h⟩ := h
        · refine .guarded hf (ih body (.inl rfl) hb) fun c hc hlabel => hl ?_
          exact mem_filterMap.mpr ⟨c, hc, hlabel⟩
        · exact .clause hf hc (ih c.body (.inr (.inl ⟨c, hc, rfl⟩)) h)
        · exact .finalizer hf (ih f (.inr (.inr rfl)) h)
      | _ => simp [hf, Form.isHandle] at hh

/-- Inference finds all that the equations give, if the known rows have all that the functions
raise. -/
theorem Expr.performs_of_raises (hR : ∀ f ∈ p.functions, l ∈ R f.id →
      l ∈ (Program.rowIn rows f.id).labels)
    {e : Expr} (h : e.Raises p R l) : e.performs ⟨p, exhaustive, rows⟩ l := by
  induction h with
  | perform hform hop hlabel =>
    rw [performs_iff (by rw [hform]; rfl), hform]
    exact .inr ⟨hop, hlabel⟩
  | call hform hcallee hf hl =>
    rw [performs_iff (by rw [hform]; rfl), hform]
    exact .inr ⟨_, hcallee, hR _ hf hl⟩
  | part hform hc _ ih =>
    rw [performs_iff hform]
    exact .inl ⟨_, hc, ih⟩
  | guarded hform _ hl ih =>
    rw [performs_iff_of_handle hform]
    refine .inl ⟨ih, fun hmem => ?_⟩
    obtain ⟨c, hc, hlabel⟩ := mem_filterMap.mp hmem
    exact hl c hc hlabel
  | clause hform hc _ ih =>
    rw [performs_iff_of_handle hform]
    exact .inr (.inl ⟨_, hc, ih⟩)
  | finalizer hform _ ih =>
    rw [performs_iff_of_handle hform]
    exact .inr (.inr ⟨_, rfl, ih⟩)

namespace Program

/-- Only functions of the program have labels. -/
theorem exists_function_of_mem_labels {d : DefId}
    (h : l ∈ ((p.analyze exhaustive).functionRow d).labels) :
    ∃ f ∈ p.functions, f.id = d := by
  let S (d : DefId) : Prop := ∃ f ∈ p.functions, f.id = d
  have hS (rows : List (DefId × Row)) (f : FnDecl) (hf : f ∈ p.functions) : S f.id := ⟨f, hf, rfl⟩
  exact (tracks_label p exhaustive l).of_functionRow (fun rows f hf _ _ => hS rows f hf) d h

/-- The final rows solve the equations. -/
theorem solvesRows_analyze (hp : p.DistinctFunctions) :
    p.SolvesRows fun d => {l | l ∈ ((p.analyze exhaustive).functionRow d).labels} := by
  intro f hf
  ext l
  change l ∈ ((p.analyze exhaustive).functionRow f.id).labels ↔ f.body.Raises p _ l
  rw [(tracks_label p exhaustive l).functionRow_iff hp hf, mem_labels_inferFunction]
  constructor
  · refine Expr.raises_of_performs fun d hl => ?_
    obtain ⟨g, hg, hid⟩ := exists_function_of_mem_labels hl
    exact ⟨g, hg, hid, hl⟩
  · exact Expr.performs_of_raises fun _ _ hl => hl

/-- The final rows are within every solution of the equations. -/
theorem labels_functionRow_subset (hR : p.SolvesRows R) (d : DefId) :
    {l | l ∈ ((p.analyze exhaustive).functionRow d).labels} ⊆ R d := by
  intro l hl
  let S (d : DefId) : Prop := ∃ f ∈ p.functions, f.id = d ∧ l ∈ R d
  suffices S d by
    obtain ⟨-, -, -, hl⟩ := this
    exact hl
  -- every pass keeps to the functions to which the solution gives the label
  refine (tracks_label p exhaustive l).of_functionRow (fun rows f hf hrows h => ⟨f, hf, rfl, ?_⟩) d
    hl
  rw [hR f hf]
  exact Expr.raises_of_performs hrows (mem_labels_inferFunction.mp h)

end Program

end Labels

/-! ### Open rows -/

/-- The construct calls a function by its name whose row is open, as far as it is known. -/
def Form.CallsOpen (rows : List (DefId × Row)) (form : Form) : Prop :=
  ∃ callee args d, form = .call callee args ∧ callee.form = .fn d ∧
    (Program.rowIn rows d).isOpen = true

section Open

variable {p : Program} {exhaustive : Bool} {rows : List (DefId × Row)}

theorem Form.exists_added_isOpen {c : InferenceContext} (span : Span) {form : Form} :
    (∃ i ∈ form.added c span, i.row.isOpen = true) ↔ form.CallsOpen c.rows := by
  cases form with
  | call callee args =>
    obtain ⟨id, form, ty, span'⟩ := callee
    cases form <;> simp [Form.added, Form.CallsOpen, InferenceContext.calleeRow, Program.rowIn]
  | perform operation args typeArgs =>
    cases h : c.program.op? operation <;>
      simp [Form.added, Form.CallsOpen, InferenceContext.performed, h, Row.single,
        Row.isOpen, Row.pure]
  | _ => simp [Form.added, Form.CallsOpen]

/-- The row of an expression is open if one of its nodes calls a function whose row is. -/
theorem Expr.isOpen_infer {c : InferenceContext} (e : Expr) :
    (e.infer c).row.isOpen = true ↔ ∃ x ∈ e.walk, x.form.CallsOpen c.rows := by
  induction e using Expr.induction with
  | step e ih =>
    have hparts : (∃ y ∈ e.form.children, (y.infer c).row.isOpen = true) ↔
        ∃ x ∈ e.form.children.flatMap Expr.walk, x.form.CallsOpen c.rows := by
      simp only [mem_flatMap]
      constructor
      · rintro ⟨y, hy, h⟩
        obtain ⟨x, hx, h⟩ := (ih y hy).mp h
        exact ⟨x, ⟨y, hy, hx⟩, h⟩
      · rintro ⟨x, ⟨y, hy, hx⟩, h⟩
        exact ⟨y, hy, (ih y hy).mpr ⟨x, hx, h⟩⟩
    rw [walk_eq]
    simp only [mem_cons, or_and_right, exists_or, exists_eq_left, ← hparts]
    cases hh : e.form.isHandle with
    | false =>
      rw [(e.infer_joins c hh).isOpen, ← Form.exists_added_isOpen e.span, or_comm]
      simp only [mem_append, or_and_right, exists_or, mem_map, exists_exists_and_eq_and]
    | true =>
      cases hf : e.form with
      | handle body clauses finalizer =>
        have hcalls : ¬ (Form.handle body clauses finalizer).CallsOpen c.rows := by
          simp [Form.CallsOpen]
        rw [(infer_of_handle c hf).1, or_iff_right hcalls]
        -- taking labels out of the row of the body leaves its tail
        simp only [handlerPlan, HandlerPlan.make, Row.isOpen_compose, any_cons, any_append,
          Form.children, mem_cons, mem_append, or_and_right, exists_or, exists_eq_left]
        cases finalizer <;> simp [Row.drop, Row.isOpen]
      | _ => simp [hf, Form.isHandle] at hh

namespace Program

/-- A function is given a row variable if it is declared with an open row. -/
theorem isSome_rowVars (hp : p.DistinctFunctions) {f : FnDecl} (hf : f ∈ p.functions) :
    (Assoc.get? p.rowVars f.id).isSome ↔ f.DeclaresOpen := by
  have hopen (g : FnDecl) : (g.effects.map (·.isOpen)).getD false = true ↔ g.DeclaresOpen := by
    cases h : g.effects <;> simp [FnDecl.DeclaresOpen, h]
  have hvars := Assoc.isSome_get?_foldl_set (fun b : FnDecl × Nat => b.1.id)
    (fun b => (⟨b.2⟩ : RowVar)) f.id
    (p.functions.filter fun g => (g.effects.map (·.isOpen)).getD false).zipIdx []
  rw [rowVars, hvars, ← hopen f]
  simp only [Assoc.get?_nil, Option.isSome_none, Bool.false_eq_true, false_or]
  constructor
  · rintro ⟨⟨g, i⟩, hg, hid⟩
    obtain ⟨hg, hdeclared⟩ := mem_filter.mp (fst_mem_of_mem_zipIdx hg)
    rwa [← hp.eq_of_id hg hf hid]
  · intro h
    have hmem : f ∈ p.functions.filter fun g => (g.effects.map (·.isOpen)).getD false :=
      mem_filter.mpr ⟨hf, h⟩
    obtain ⟨i, hi⟩ := mem_iff_getElem?.mp hmem
    exact ⟨(f, i), mem_zipIdx_iff_getElem?.mpr hi, rfl⟩

theorem isOpen_inferFunction (f : FnDecl) :
    (p.inferFunction exhaustive rows f).row.isOpen = true ↔
      (Assoc.get? p.rowVars f.id).isSome ∨ ∃ x ∈ f.body.walk, x.form.CallsOpen rows := by
  have hbody := f.body.isOpen_infer (c := ⟨p, exhaustive, rows⟩)
  rw [← hbody, inferFunction]
  split
  · rename_i v hv
    rw [Row.isOpen_compose]
    simp [hv, Row.ofVar, Row.isOpen]
  · rename_i hv
    simp [hv]

/-- Inference keeps track of which rows are open. -/
theorem tracks_isOpen (p : Program) (exhaustive : Bool) :
    p.Tracks exhaustive (·.isOpen = true) where
  not_pure := by simp [Row.pure, Row.isOpen]
  mono f hrows h := by
    rw [isOpen_inferFunction] at h ⊢
    refine h.imp_right ?_
    rintro ⟨x, hx, callee, args, d, hform, hcallee, hopen⟩
    exact ⟨x, hx, callee, args, d, hform, hcallee, hrows d hopen⟩

/-- A function is open only if it reaches one that is declared so. -/
theorem exists_reaches_of_isOpen (hp : p.DistinctFunctions) {f : FnDecl} (hf : f ∈ p.functions)
    (h : ((p.analyze exhaustive).functionRow f.id).isOpen = true) :
    ∃ g, Relation.ReflTransGen p.Calls f g ∧ g.DeclaresOpen := by
  let S (d : DefId) : Prop :=
    ∃ f ∈ p.functions, f.id = d ∧ ∃ g, Relation.ReflTransGen p.Calls f g ∧ g.DeclaresOpen
  have hS : S f.id := by
    refine (tracks_isOpen p exhaustive).of_functionRow (fun rows f hf hrows h => ⟨f, hf, rfl, ?_⟩)
      f.id h
    obtain hvar | ⟨x, hx, callee, args, d, hform, hcallee, hopen⟩ := (isOpen_inferFunction f).mp h
    · exact ⟨f, .refl, (isSome_rowVars hp hf).mp hvar⟩
    · obtain ⟨f', hf', rfl, g, hreach, hg⟩ := hrows d hopen
      exact ⟨g, hreach.head ⟨hf', x, hx, callee, args, hform, hcallee⟩, hg⟩
  obtain ⟨f', hf', hid, hreach⟩ := hS
  rwa [hp.eq_of_id hf' hf hid] at hreach

/-- A function is open if it reaches one that is declared so. -/
theorem isOpen_of_reaches (hp : p.DistinctFunctions) {f g : FnDecl}
    (hreach : Relation.ReflTransGen p.Calls f g) (hg : g.DeclaresOpen) (hf : f ∈ p.functions) :
    ((p.analyze exhaustive).functionRow f.id).isOpen = true := by
  induction hreach using Relation.ReflTransGen.head_induction_on with
  | refl =>
    rw [(tracks_isOpen p exhaustive).functionRow_iff hp hf, isOpen_inferFunction]
    exact .inl ((isSome_rowVars hp hf).mpr hg)
  | head hcall _ ih =>
    obtain ⟨hmem, x, hx, callee, args, hform, hcallee⟩ := hcall
    rw [(tracks_isOpen p exhaustive).functionRow_iff hp hf, isOpen_inferFunction]
    exact .inr ⟨x, hx, callee, args, _, hform, hcallee, ih hmem⟩

end Program

end Open

/-! ### The least solution -/

namespace Program

/-- **Inference finds the least rows.** The labels of the final rows are the least family in which
each function has the labels that its body raises, and the row of a function is open exactly if the
function itself, or one that it reaches by direct calls, is declared with an open row. -/
theorem labels_analyze_isLeast (p : Program) (exhaustive : Bool) (hp : p.DistinctFunctions) :
    IsLeast {R | p.SolvesRows R}
      (fun d => {l | l ∈ ((p.analyze exhaustive).functionRow d).labels}) ∧
      ∀ f ∈ p.functions, ((p.analyze exhaustive).functionRow f.id).isOpen = true ↔
        ∃ g, Relation.ReflTransGen p.Calls f g ∧ g.DeclaresOpen := by
  refine ⟨⟨solvesRows_analyze hp, fun R hR d => labels_functionRow_subset hR d⟩, fun f hf => ?_⟩
  constructor
  · exact exists_reaches_of_isOpen hp hf
  · rintro ⟨g, hreach, hg⟩
    exact isOpen_of_reaches hp hreach hg hf

/-- Two functions that call each other: `ping` sends, and `pong`, which is declared open, answers
what `ping` sends and logs. -/
def pingPong : Program where
  effects := [{ id := ⟨0⟩, name := "Net", ops := [⟨"send", 0, [], .i32, .tail⟩] },
    { id := ⟨1⟩, name := "Log", ops := [⟨"emit", 0, [], .i32, .resume⟩] }]
  functions := [
    { id := ⟨2⟩, name := "ping", params := [], ret := .i32, locals := []
      body := .i32 0 (.binary .add (.i32 1 (.perform ⟨⟨0⟩, 0⟩ [] []))
        (.i32 2 (.call (.node ⟨3⟩ (.fn ⟨3⟩) (.fn [] .i32) {}) []))) },
    { id := ⟨3⟩, name := "pong", params := [], ret := .i32,
      locals := [⟨"k", .continuation .i32 .i32⟩]
      effects := some ⟨[], true⟩
      body := .i32 4 (.handle
        (.i32 5 (.call (.node ⟨6⟩ (.fn ⟨2⟩) (.fn [] .i32) {}) []))
        [.mk ⟨⟨0⟩, "send", none, [], ⟨0⟩, {}⟩
          (.i32 7 (.call (.node ⟨8⟩ (.var ⟨0⟩) (.continuation .i32 .i32) {})
            [.i32 9 (.perform ⟨⟨1⟩, 0⟩ [] [])]))]
        none) }]

/-- `ping` sends and logs, `pong` only logs, and both are open. -/
theorem labels_analyze_isLeast_pingPong :
    pingPong.DistinctFunctions ∧
      IsLeast {R | pingPong.SolvesRows R}
        (fun d => {l | l ∈ ((pingPong.analyze true).functionRow d).labels}) ∧
      ((pingPong.analyze true).functionRow ⟨2⟩).labels = ["Log.emit", "Net.send"] ∧
      ((pingPong.analyze true).functionRow ⟨3⟩).labels = ["Log.emit"] ∧
      ∀ f ∈ pingPong.functions, ∃ g, Relation.ReflTransGen pingPong.Calls f g ∧ g.DeclaresOpen := by
  obtain ⟨hleast, hopen⟩ := labels_analyze_isLeast pingPong true (by decide)
  refine ⟨by decide, hleast, by decide +kernel, by decide +kernel, fun f hf => (hopen f hf).mp ?_⟩
  have hall : pingPong.functions.all
      fun f => ((pingPong.analyze true).functionRow f.id).isOpen := by
    decide +kernel
  exact all_eq_true.mp hall f hf

end Program

end Effectful
