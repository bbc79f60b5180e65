import Effectful.Proofs.RowRounds
import Effectful.Proofs.Walk
import Mathlib.Data.List.Pairwise
/-!
# What the inferred rows say

Everything about rows is said here of one label at a time: `e.performs c l` says that the row of the
expression `e` has the label `l`.  `Expr.performs_iff` gives it construct by construct, and
`Expr.performs_mono` says that it only grows with the rows of the functions.

So the rounds of inference keep track of every label, and the final rows are closed: whatever a body
performs is in the row of its function (`Program.labels_functionRow_of_performs`).
-/

namespace Effectful

open List

variable {l : String} {ops : List RowOp} {e body x : Expr} {finalizer : Option Expr} {f : FnDecl}
  {op : OpRef} {decl : OpDecl} {cl : Clause}

/-! ### Labels of rows -/

namespace Row

theorem mem_map_label_insertOp {op : RowOp} :
    l ∈ (insertOp op ops).map (·.label) ↔ l = op.label ∨ l ∈ ops.map (·.label) := by
  induction ops with
  | nil => simp [insertOp]
  | cons o os ih =>
    rw [insertOp]
    split
    · rename_i h
      simp only [map_cons, mem_cons, h]
      tauto
    · split
      · simp only [map_cons, mem_cons]
      · simp only [map_cons, mem_cons, ih]
        tauto

theorem mem_map_label_foldl_insertOp {sorted : List RowOp} :
    l ∈ (ops.foldl (fun sorted op => insertOp op sorted) sorted).map (·.label) ↔
      l ∈ ops.map (·.label) ∨ l ∈ sorted.map (·.label) := by
  induction ops generalizing sorted with
  | nil => simp
  | cons op ops ih =>
    rw [foldl_cons, ih, mem_map_label_insertOp, map_cons, mem_cons]
    tauto

theorem mem_labels_ofOps {tail : Option RowVar} :
    l ∈ (ofOps ops tail).labels ↔ l ∈ ops.map (·.label) := by
  simp only [labels, ofOps, sortOps, mem_map_label_foldl_insertOp, map_nil, not_mem_nil, or_false]

theorem mem_labels_compose {rs : List Row} : l ∈ (compose rs).labels ↔ ∃ r ∈ rs, l ∈ r.labels := by
  match rs with
  | [] => simp [compose, pure, labels]
  | [r] => simp [compose]
  | r :: r' :: rs =>
    rw [compose, mem_labels_ofOps, map_flatMap, mem_flatMap]
    · rfl
    · simp
    · simp

theorem mem_labels_drop {r : Row} {dropped : List String} :
    l ∈ (r.drop dropped).labels ↔ l ∈ r.labels ∧ l ∉ dropped := by
  simp only [labels, drop, mem_map, mem_filter, Bool.not_eq_true', contains_eq_mem,
    decide_eq_false_iff_not]
  constructor
  · rintro ⟨op, ⟨hop, hl⟩, rfl⟩
    exact ⟨⟨op, hop, rfl⟩, hl⟩
  · rintro ⟨⟨op, hop, rfl⟩, hl⟩
    exact ⟨op, ⟨hop, hl⟩, rfl⟩

theorem isEmpty_iff_labels {r : Row} : r.isEmpty = true ↔ r.labels = [] := by
  simp [isEmpty, labels]

theorem isSome_mergeTail (v w : Option RowVar) :
    (mergeTail v w).isSome = (v.isSome || w.isSome) := by
  cases v <;> cases w <;> rfl

theorem isSome_foldl_mergeTail (rs : List Row) (tail : Option RowVar) :
    (rs.foldl (fun tail r => mergeTail tail r.tail) tail).isSome =
      (tail.isSome || rs.any isOpen) := by
  induction rs generalizing tail with
  | nil => simp
  | cons r rs ih => rw [foldl_cons, ih, isSome_mergeTail, any_cons, Bool.or_assoc]; rfl

/-- A union of rows is open if one of them is. -/
theorem isOpen_compose (rs : List Row) : (compose rs).isOpen = rs.any isOpen := by
  match rs with
  | [] => rfl
  | [r] => simp [compose]
  | r :: r' :: rs =>
    rw [compose, isOpen, ofOps, isSome_foldl_mergeTail]
    · rfl
    · simp
    · simp

end Row

/-! ### Inference construct by construct -/

theorem inferAll_eq_map (c : InferenceContext) (es : List Expr) :
    inferAll c es = es.map (·.infer c) := by
  induction es with
  | nil => rfl
  | cons e es ih => rw [inferAll, ih, map_cons]

theorem inferStmts_eq_map (c : InferenceContext) (ss : List Stmt) :
    inferStmts c ss = (ss.filterMap Stmt.expr?).map (·.infer c) := by
  induction ss with
  | nil => rfl
  | cons s ss ih =>
    match s with
    | .bind _ (some e) | .expr e => rw [inferStmts, ih, filterMap_cons_some (by rfl), map_cons]
    | .bind _ none => rw [inferStmts, ih, filterMap_cons_none (by rfl)]

theorem inferArms_eq_map (c : InferenceContext) (as : List Arm) :
    inferArms c as = (as.map Arm.body).map (·.infer c) := by
  induction as with
  | nil => rfl
  | cons a as ih =>
    obtain ⟨pattern, body⟩ := a
    rw [inferArms, ih, map_cons, map_cons, Arm.body]

theorem inferClauses_eq_map (c : InferenceContext) (cs : List Clause) :
    inferClauses c cs = (cs.map Clause.body).map (·.infer c) := by
  induction cs with
  | nil => rfl
  | cons a cs ih =>
    obtain ⟨head, body⟩ := a
    rw [inferClauses, ih, map_cons, map_cons, Clause.body]

/-- What a construct other than a handler adds to its parts. -/
def Form.added (c : InferenceContext) (span : Span) : Form → List Inference
  | .call callee _ => c.calleeRow callee.form
  | .perform operation _ _ => [c.performed operation span]
  | _ => []

/-- What was found is what was found in some parts. -/
structure Inference.Joins (found : Inference) (parts : List Inference) : Prop where
  row : found.row = .compose (parts.map (·.row))
  handlers : found.handlers = parts.flatMap (·.handlers)
  diagnostics : found.diagnostics = parts.flatMap (·.diagnostics)

namespace Inference

variable {found : Inference} {parts : List Inference}

theorem Joins.labels (h : found.Joins parts) (l : String) :
    l ∈ found.row.labels ↔ ∃ i ∈ parts, l ∈ i.row.labels := by
  simp [h.row, Row.mem_labels_compose]

theorem Joins.isOpen (h : found.Joins parts) :
    found.row.isOpen = true ↔ ∃ i ∈ parts, i.row.isOpen = true := by
  simp [h.row, Row.isOpen_compose]

theorem joins_compose (parts : List Inference) : (compose parts).Joins parts := ⟨rfl, rfl, rfl⟩

/-- One part alone stands for itself, also if its row is not canonical. -/
theorem joins_self (found : Inference) : found.Joins [found] := by
  refine ⟨rfl, ?_, ?_⟩ <;> simp

theorem joins_nil : ({} : Inference).Joins [] := ⟨rfl, rfl, rfl⟩

end Inference

/-- What inference finds in a construct other than a handler: what it finds in the parts, and what
the construct adds. -/
theorem Expr.infer_joins (c : InferenceContext) (e : Expr) (h : e.form.isHandle = false) :
    (e.infer c).Joins (e.form.children.map (·.infer c) ++ e.form.added c e.span) := by
  obtain ⟨id, form, ty, span⟩ := e
  simp only [Expr.infer, Expr.form, Expr.span] at h ⊢
  cases form with
  | literal | var | fn | op | breakLoop | continueLoop | intrinsic => exact Inference.joins_nil
  | binary | whileLoop => exact Inference.joins_compose _
  | unary | assign | loop | closure | field => exact Inference.joins_self _
  | call callee args =>
    simp only [Form.infer, Form.children, Form.added, inferAll_eq_map, map_cons, cons_append]
    exact Inference.joins_compose _
  | perform op args typeArgs =>
    simp only [Form.infer, Form.children, Form.added, inferAll_eq_map]
    exact Inference.joins_compose _
  | tuple items =>
    simp only [Form.infer, Form.children, Form.added, inferAll_eq_map, append_nil]
    exact Inference.joins_compose _
  | block stmts tail =>
    cases tail <;>
      simp only [Form.infer, Form.children, Form.added, inferStmts_eq_map, append_nil,
        map_append, Option.toList, map_cons, map_nil] <;>
      exact Inference.joins_compose _
  | branch cond onTrue onFalse => cases onFalse <;> exact Inference.joins_compose _
  | select scrutinee arms =>
    simp only [Form.infer, Form.children, Form.added, inferArms_eq_map, map_cons, append_nil]
    exact Inference.joins_compose _
  | ret value =>
    cases value with
    | none => exact Inference.joins_nil
    | some e => exact Inference.joins_self _
  | handle => simp [Form.isHandle] at h

def Expr.handlerPlan (c : InferenceContext) (e body : Expr) (clauses : List Clause)
    (finalizer : Option Expr) : HandlerPlan × List Diagnostic :=
  HandlerPlan.make c.program c.exhaustive e.id e.ty e.span body clauses (body.infer c).row
    (clauses.map fun cl => (cl.body.infer c).row) (finalizer.map fun f => (f.infer c).row)

theorem Expr.clause?_handlerPlan_eq (c : InferenceContext) (e body : Expr) (clauses : List Clause)
    (finalizer : Option Expr) (i : Nat) :
    (e.handlerPlan c body clauses finalizer).1.clause? i = (clauses[i]?).bind fun cl =>
      (cl.plan c.program body e.ty
        (e.handlerPlan c body clauses finalizer).1.continuationRow).1 := by
  simp only [HandlerPlan.clause?, Expr.handlerPlan, HandlerPlan.make, getElem?_map]
  cases clauses[i]? <;> rfl

/-- What inference finds in a handler: the row of its plan, what it finds in the parts, and the
plan. -/
theorem Expr.infer_of_handle (c : InferenceContext) {clauses : List Clause}
    (h : e.form = .handle body clauses finalizer) :
    let parts := e.form.children.map (·.infer c)
    let plan := e.handlerPlan c body clauses finalizer
    (e.infer c).row = plan.1.resultRow ∧
      (e.infer c).handlers = parts.flatMap (·.handlers) ++ [plan.1] ∧
      (e.infer c).diagnostics = parts.flatMap (·.diagnostics) ++ plan.2 := by
  obtain ⟨id, form, ty, span⟩ := e
  obtain rfl : form = .handle body clauses finalizer := h
  cases finalizer <;>
    simp [infer, Form.infer, Form.children, inferClauses_eq_map, InferenceContext.handled,
      handlerPlan, Inference.compose, Expr.id, Expr.ty, Expr.span, Function.comp_def]

/-! ### Labels construct by construct -/

def Expr.performs (c : InferenceContext) (l : String) (e : Expr) : Prop :=
  l ∈ (e.infer c).row.labels

/-- The row of the function has the label, as far as it is known. -/
def InferenceContext.rowHas (c : InferenceContext) (l : String) (d : DefId) : Prop :=
  l ∈ ((Assoc.get? c.rows d).getD .pure).labels

/-- What a construct other than a handler performs beside its parts. -/
def Form.performsItself (c : InferenceContext) (l : String) : Form → Prop
  | .call callee _ => ∃ d, callee.form = .fn d ∧ c.rowHas l d
  | .perform operation _ _ => (c.program.op? operation).isSome ∧ c.program.opLabel operation = l
  | _ => False

namespace Expr

variable {c : InferenceContext}

theorem exists_added_iff (span : Span) {form : Form} :
    (∃ i ∈ form.added c span, l ∈ i.row.labels) ↔ form.performsItself c l := by
  cases form with
  | call callee args =>
    obtain ⟨id, form, ty, span'⟩ := callee
    cases form <;>
      simp [Form.added, Form.performsItself, InferenceContext.calleeRow, InferenceContext.rowHas]
  | perform operation args typeArgs =>
    cases h : c.program.op? operation <;>
      simp [Form.added, Form.performsItself, InferenceContext.performed, h, Row.single, Row.labels,
        Row.pure, eq_comm]
  | _ => simp [Form.added, Form.performsItself]

/-- **The labels of a construct other than a handler**: those of its parts, and its own. -/
theorem performs_iff (h : e.form.isHandle = false) :
    e.performs c l ↔ (∃ x ∈ e.form.children, x.performs c l) ∨ e.form.performsItself c l := by
  rw [performs, (e.infer_joins c h).labels, ← exists_added_iff e.span]
  simp only [mem_append, or_and_right, exists_or, mem_map, exists_exists_and_eq_and, performs]

/-- **The labels of a handler**: those of its body that it does not handle, and those of its clauses
and its finalizer. -/
theorem performs_iff_of_handle {clauses : List Clause}
    (h : e.form = .handle body clauses finalizer) :
    e.performs c l ↔
      (body.performs c l ∧ l ∉ clauses.filterMap (·.head.label? c.program)) ∨
        (∃ cl ∈ clauses, cl.body.performs c l) ∨ ∃ f ∈ finalizer, f.performs c l := by
  rw [performs, (infer_of_handle c h).1]
  simp only [handlerPlan, HandlerPlan.make, Row.mem_labels_compose, mem_cons, or_and_right,
    exists_or, exists_eq_left, mem_append, mem_map, exists_exists_and_eq_and, performs]
  rw [Row.mem_labels_drop]
  cases finalizer <;> simp

/-- More known rows give more labels. -/
theorem performs_mono {p : Program} {exhaustive : Bool} {rows rows' : List (DefId × Row)}
    (hrows : ∀ d, InferenceContext.rowHas ⟨p, exhaustive, rows⟩ l d →
      InferenceContext.rowHas ⟨p, exhaustive, rows'⟩ l d)
    (e : Expr) (h : e.performs ⟨p, exhaustive, rows⟩ l) : e.performs ⟨p, exhaustive, rows'⟩ l := by
  induction e using Expr.induction with
  | step e ih =>
    cases hh : e.form.isHandle with
    | false =>
      rw [performs_iff hh] at h ⊢
      refine h.imp (fun ⟨x, hx, hl⟩ => ⟨x, hx, ih x hx hl⟩) fun h => ?_
      cases hf : e.form with
      | call callee args =>
        rw [hf] at h
        obtain ⟨d, hd, hl⟩ := h
        exact ⟨d, hd, hrows d hl⟩
      | perform operation args typeArgs =>
        rw [hf] at h
        exact h
      | _ => simp [hf, Form.performsItself] at h
    | true =>
      cases hf : e.form with
      | handle body clauses finalizer =>
        rw [performs_iff_of_handle hf] at h ⊢
        simp only [hf, Form.children, mem_cons, mem_append, mem_map, Option.mem_toList]
          at ih
        obtain ⟨hb, hl⟩ | ⟨cl, hcl, hl⟩ | ⟨f, hfin, hl⟩ := h
        · exact .inl ⟨ih body (.inl rfl) hb, hl⟩
        · exact .inr (.inl ⟨cl, hcl, ih _ (.inr (.inl ⟨cl, hcl, rfl⟩)) hl⟩)
        · exact .inr (.inr ⟨f, hfin, ih f (.inr (.inr hfin)) hl⟩)
      | _ => simp [hf, Form.isHandle] at hh

end Expr

/-! ### Rounds -/

namespace Program

variable {p : Program} {exhaustive : Bool}

theorem mem_labels_inferFunction {rows : List (DefId × Row)} :
    l ∈ (p.inferFunction exhaustive rows f).row.labels ↔
      f.body.performs ⟨p, exhaustive, rows⟩ l := by
  rw [inferFunction]
  split
  · rw [Row.mem_labels_compose]
    simp [Row.ofVar, Row.labels, Expr.performs]
  · rfl

/-- Inference keeps track of every label. -/
theorem tracks_label (p : Program) (exhaustive : Bool) (l : String) :
    p.Tracks exhaustive (l ∈ ·.labels) where
  not_pure := by simp [Row.pure, Row.labels]
  mono f hrows h := by
    rw [mem_labels_inferFunction] at h ⊢
    exact Expr.performs_mono hrows f.body h

/-- **The final rows are closed**: what the body of a function performs, given the final rows, is in
the row of the function. -/
theorem labels_functionRow_of_performs (hp : p.DistinctFunctions) (hf : f ∈ p.functions)
    (h : f.body.performs ⟨p, exhaustive, (p.analyze exhaustive).rows⟩ l) :
    l ∈ ((p.analyze exhaustive).functionRow f.id).labels :=
  ((tracks_label p exhaustive l).functionRow_iff hp hf).mpr (mem_labels_inferFunction.mpr h)

end Program

/-! ### Plans and complaints -/

namespace Expr

variable {c : InferenceContext}

/-- The complaints about a node are complaints about the whole. -/
theorem diagnostics_infer_subset (hx : x ∈ e.walk) :
    (x.infer c).diagnostics ⊆ (e.infer c).diagnostics := by
  induction e using Expr.induction with
  | step e ih =>
    rw [walk_eq] at hx
    obtain rfl | hx := mem_cons.mp hx
    · exact List.Subset.refl _
    obtain ⟨y, hy, hx⟩ := mem_flatMap.mp hx
    have hparts : (y.infer c).diagnostics ⊆ (e.form.children.map (·.infer c)).flatMap
        (·.diagnostics) :=
      fun d hd => mem_flatMap.mpr ⟨_, mem_map_of_mem hy, hd⟩
    refine List.Subset.trans (ih y hy hx) (List.Subset.trans hparts ?_)
    cases hh : e.form.isHandle with
    | false =>
      rw [(e.infer_joins c hh).diagnostics, flatMap_append]
      exact subset_append_left _ _
    | true =>
      cases hf : e.form with
      | handle body clauses finalizer =>
        rw [(infer_of_handle c hf).2.2, hf]
        exact subset_append_left _ _
      | _ => simp [hf, Form.isHandle] at hh

/-- The plans that inference makes are those of the handlers among the nodes. -/
theorem mem_handlers_infer {plan : HandlerPlan} :
    plan ∈ (e.infer c).handlers ↔ ∃ x ∈ e.walk, ∃ body clauses finalizer,
      x.form = .handle body clauses finalizer ∧
      plan = (x.handlerPlan c body clauses finalizer).1 := by
  induction e using Expr.induction with
  | step e ih =>
    have hparts : plan ∈ (e.form.children.map (·.infer c)).flatMap (·.handlers) ↔
        ∃ x ∈ e.form.children.flatMap Expr.walk, ∃ body clauses finalizer,
          x.form = .handle body clauses finalizer ∧
          plan = (x.handlerPlan c body clauses finalizer).1 := by
      simp only [mem_flatMap, mem_map, exists_exists_and_eq_and]
      constructor
      · rintro ⟨y, hy, hplan⟩
        obtain ⟨x, hx, hrest⟩ := (ih y hy).mp hplan
        exact ⟨x, ⟨y, hy, hx⟩, hrest⟩
      · rintro ⟨x, ⟨y, hy, hx⟩, hrest⟩
        exact ⟨y, hy, (ih y hy).mpr ⟨x, hx, hrest⟩⟩
    simp only [walk_eq e, mem_cons, or_and_right, exists_or, exists_eq_left, ← hparts]
    cases hh : e.form.isHandle with
    | false =>
      have hadded : (e.form.added c e.span).flatMap (·.handlers) = [] := by
        cases hf : e.form with
        | call callee args =>
          cases hc : callee.form <;> simp [Form.added, InferenceContext.calleeRow, hc]
        | perform operation args typeArgs =>
          cases ho : c.program.op? operation <;> simp [Form.added, InferenceContext.performed, ho]
        | _ => rfl
      rw [(e.infer_joins c hh).handlers, flatMap_append, hadded, append_nil]
      refine ⟨.inr, fun h => h.resolve_left ?_⟩
      rintro ⟨body, clauses, finalizer, hf, -⟩
      simp [hf, Form.isHandle] at hh
    | true =>
      cases hf : e.form with
      | handle body clauses finalizer =>
        rw [(infer_of_handle c hf).2.1, ← hf, mem_append, mem_singleton, or_comm]
        refine or_congr_left ⟨fun h => ⟨_, _, _, hf, h⟩, ?_⟩
        rintro ⟨body', clauses', finalizer', hf', h⟩
        rw [hf, Form.handle.injEq] at hf'
        obtain ⟨rfl, rfl, rfl⟩ := hf'
        exact h
      | _ => simp [hf, Form.isHandle] at hh

end Expr

/-- The clauses of a handler; other constructs have none. -/
def Form.clauses : Form → List Clause
  | .handle _ clauses _ => clauses
  | _ => []

/-- The operation that the clause answers, if it fits one. -/
def ClauseHead.answers? (head : ClauseHead) (p : Program) : Option OpRef :=
  (head.resolve p).toOption.map (·.1)

theorem ClauseHead.answers?_eq_some_iff {head : ClauseHead} {p : Program} :
    head.answers? p = some op ↔ ∃ decl, head.resolve p = .ok (op, decl) := by
  rw [answers?]
  rcases head.resolve p with problem | ⟨op', decl'⟩ <;> simp [Except.toOption]

namespace Program

variable {p : Program} {exhaustive : Bool} {clauses : List Clause}

/-- What inference knows once the rows are final. -/
def finalContext (p : Program) (exhaustive : Bool) : InferenceContext :=
  ⟨p, exhaustive, (p.analyze exhaustive).rows⟩

def nodes (p : Program) : List Expr := p.functions.flatMap (·.body.walk)

/-- The nodes of a program have ids of their own. -/
def DistinctNodes (p : Program) : Prop := (p.nodes.map (·.id)).Nodup

/-- The operations of a program have labels of their own. -/
def DistinctLabels (p : Program) : Prop :=
  (p.effects.flatMap fun e => e.ops.map fun op => e.name ++ "." ++ op.name).Nodup

instance : Decidable p.DistinctNodes := inferInstanceAs (Decidable (List.Nodup _))

instance : Decidable p.DistinctLabels := inferInstanceAs (Decidable (List.Nodup _))

theorem mem_nodes (hf : f ∈ p.functions) (hx : x ∈ f.body.walk) : x ∈ p.nodes :=
  mem_flatMap.mpr ⟨f, hf, hx⟩

/-- Without complaints about the program there is none about a node. -/
theorem diagnostics_infer_eq_nil (h : (p.analyze exhaustive).hasErrors = false) (hx : x ∈ p.nodes) :
    (x.infer (p.finalContext exhaustive)).diagnostics = [] := by
  obtain ⟨f, hf, hx⟩ := mem_flatMap.mp hx
  rw [← subset_nil]
  refine List.Subset.trans (Expr.diagnostics_infer_subset hx) ?_
  have hnil : (p.analyze exhaustive).diagnostics = [] := by
    simpa [EffectAnalysis.hasErrors] using h
  rw [← hnil]
  intro d hd
  simp only [analyze, mem_flatMap, mem_map, exists_exists_and_eq_and, mem_append]
  refine ⟨f, hf, .inl ?_⟩
  rw [inferFunction]
  split <;> exact hd

/-- The operation of a node that performs one is declared. -/
theorem isSome_op?_of_perform (h : (p.analyze exhaustive).hasErrors = false) (hx : x ∈ p.nodes)
    {operation : OpRef} {args : List Expr} {typeArgs : List Ty}
    (hform : x.form = .perform operation args typeArgs) :
    (p.op? operation).isSome := by
  have hnil := diagnostics_infer_eq_nil h hx
  have hjoin := (x.infer_joins (p.finalContext exhaustive) (by rw [hform]; rfl)).diagnostics
  rw [hnil, hform] at hjoin
  cases ho : p.op? operation with
  | some decl => rfl
  | none => simp [Form.added, InferenceContext.performed, finalContext, ho] at hjoin

theorem handler?_analyze (hp : p.DistinctNodes) (hx : x ∈ p.nodes)
    (hform : x.form = .handle body clauses finalizer) :
    (p.analyze exhaustive).handler? x.id =
      some (x.handlerPlan (p.finalContext exhaustive) body clauses finalizer).1 := by
  have hhandlers (plan : HandlerPlan) :
      plan ∈ (p.functions.map fun f => (f, p.inferFunction exhaustive
        (p.analyze exhaustive).rows f)).flatMap (·.2.handlers) ↔
      ∃ y ∈ p.nodes, ∃ body clauses finalizer, y.form = .handle body clauses finalizer ∧
        plan = (y.handlerPlan (p.finalContext exhaustive) body clauses finalizer).1 := by
    have hfound (f : FnDecl) : (p.inferFunction exhaustive (p.analyze exhaustive).rows f).handlers =
        (f.body.infer (p.finalContext exhaustive)).handlers := by
      rw [inferFunction]
      split <;> rfl
    simp only [mem_flatMap, mem_map, exists_exists_and_eq_and, hfound, Expr.mem_handlers_infer,
      nodes]
    constructor
    · rintro ⟨f, hf, y, hy, hrest⟩
      exact ⟨y, ⟨f, hf, hy⟩, hrest⟩
    · rintro ⟨y, ⟨f, hf, hy⟩, hrest⟩
      exact ⟨f, hf, y, hy, hrest⟩
  set plan := (x.handlerPlan (p.finalContext exhaustive) body clauses finalizer).1 with hplan
  refine Assoc.get?_foldl_set (·.handle) id [] ((hhandlers plan).mpr ⟨x, hx, _, _, _, hform, hplan⟩)
    ?_
  -- a plan under the same id is the plan of the same node
  intro plan' hplan' hkey
  obtain ⟨y, hy, body', clauses', finalizer', hform', rfl⟩ := (hhandlers plan').mp hplan'
  obtain rfl : y = x := inj_on_of_nodup_map hp hy hx hkey
  rw [hform, Form.handle.injEq] at hform'
  obtain ⟨rfl, rfl, rfl⟩ := hform'
  rfl

/-! ### Which operation a clause answers -/

theorem op?_eq_some_iff : p.op? op = some decl ↔ ∃ e, p.effect? op.effect = some e ∧
    e.ops[op.index]? = some decl := by
  simp [op?, Option.bind_eq_some_iff]

theorem opLabel_eq {e : EffectDecl} (he : p.effect? op.effect = some e)
    (hop : e.ops[op.index]? = some decl) :
    p.opLabel op = e.name ++ "." ++ decl.name := by
  rw [opLabel, op?_eq_some_iff.mpr ⟨e, he, hop⟩, he]

/-- Operations with one label are one operation. -/
theorem DistinctLabels.eq_of_opLabel (hp : p.DistinctLabels) {op' : OpRef} (hop : (p.op? op).isSome)
    (hop' : (p.op? op').isSome) (h : p.opLabel op = p.opLabel op') : op = op' := by
  obtain ⟨decl, hdecl⟩ := Option.isSome_iff_exists.mp hop
  obtain ⟨decl', hdecl'⟩ := Option.isSome_iff_exists.mp hop'
  obtain ⟨e, he, hi⟩ := op?_eq_some_iff.mp hdecl
  obtain ⟨e', he', hi'⟩ := op?_eq_some_iff.mp hdecl'
  rw [opLabel_eq he hi, opLabel_eq he' hi'] at h
  obtain ⟨hnodup, hpairwise⟩ := nodup_flatMap.mp hp
  have hmem : e ∈ p.effects := mem_of_find?_eq_some he
  have hmem' : e' ∈ p.effects := mem_of_find?_eq_some he'
  have hlabel : e.name ++ "." ++ decl.name ∈ e.ops.map fun op => e.name ++ "." ++ op.name :=
    mem_map.mpr ⟨decl, mem_of_getElem? hi, rfl⟩
  -- effects that share a label are the same one
  have hsame : e = e' := by
    by_contra hne
    have : Std.Symm (Function.onFun List.Disjoint
        fun e : EffectDecl => e.ops.map fun op => e.name ++ "." ++ op.name) :=
          ⟨fun _ _ h _ h₁ h₂ => h h₂ h₁⟩
    refine hpairwise.forall hmem hmem' hne hlabel ?_
    rw [h]
    exact mem_map.mpr ⟨decl', mem_of_getElem? hi', rfl⟩
  subst hsame
  have hindex : op.index = op'.index := by
    have hlt : op.index < (e.ops.map fun op => e.name ++ "." ++ op.name).length := by
      rw [length_map]
      exact (List.getElem?_eq_some_iff.mp hi).1
    refine (getElem?_inj hlt (hnodup e hmem)).mp ?_
    rw [getElem?_map, getElem?_map, hi, hi', Option.map_some, Option.map_some, h]
  have heffect : op.effect = op'.effect := by
    have h₁ : e.id = op.effect := by simpa using find?_some he
    have h₂ : e.id = op'.effect := by simpa using find?_some he'
    exact h₁.symm.trans h₂
  cases op
  simp_all

/-- A clause that is resolved answers a declared operation with the label that the clause
handles. -/
theorem resolve_spec {head : ClauseHead} (h : head.resolve p = .ok (op, decl)) :
    p.op? op = some decl ∧ head.label? p = some (p.opLabel op) := by
  unfold ClauseHead.resolve at h
  split at h
  · cases h
  rename_i effect heffect
  dsimp only at h
  cases hchoice : head.chooseOverload effect (effect.name ++ "." ++ head.op) with
  | error problem => rw [hchoice] at h; cases h
  | ok choice =>
    obtain ⟨index, decl'⟩ := choice
    -- whichever way the overload is chosen, it has the name of the clause
    have hmem : (index, decl') ∈ effect.opsNamed head.op := by
      unfold ClauseHead.chooseOverload at hchoice
      split at hchoice
      · cases hchoice
      · rename_i hsingle _
        cases hchoice
        rw [hsingle]
        exact mem_singleton_self _
      · rename_i hsingle _
        split at hchoice
        · cases hchoice
          rw [hsingle]
          exact mem_singleton_self _
        · cases hchoice
      · cases hchoice
      · split at hchoice
        · rename_i hfilter
          cases hchoice
          have hmem := mem_singleton_self (index, decl')
          rw [← hfilter] at hmem
          exact (mem_filter.mp hmem).1
        · cases hchoice
    simp only [EffectDecl.opsNamed, mem_map, mem_filter, Prod.mk.injEq, Prod.exists] at hmem
    obtain ⟨decl'', index', ⟨hzip, hname⟩, rfl, rfl⟩ := hmem
    have hget : effect.ops[index']? = some decl'' := mk_mem_zipIdx_iff_getElem?.mp hzip
    have hop : op = ⟨head.effect, index'⟩ ∧ decl = decl'' := by
      rw [hchoice] at h
      simp only [bind, Except.bind] at h
      split at h
      · cases h
        exact ⟨rfl, rfl⟩
      · cases h
    obtain ⟨rfl, rfl⟩ := hop
    refine ⟨op?_eq_some_iff.mpr ⟨effect, heffect, hget⟩, ?_⟩
    have hlabel : p.opLabel ⟨head.effect, index'⟩ = effect.name ++ "." ++ decl.name :=
      opLabel_eq heffect hget
    rw [ClauseHead.label?, heffect, hlabel, Option.map_some, eq_of_beq hname]

/-- Without complaints about the program there is none about a clause. -/
theorem diagnostics_plan_eq_nil (h : (p.analyze exhaustive).hasErrors = false)
    (hx : x ∈ p.nodes) (hform : x.form = .handle body clauses finalizer) (hcl : cl ∈ clauses) :
    (cl.plan p body x.ty
      (x.handlerPlan (p.finalContext exhaustive) body clauses finalizer).1.continuationRow).2 =
      [] := by
  have hnil := diagnostics_infer_eq_nil h hx
  rw [(Expr.infer_of_handle _ hform).2.2, append_eq_nil_iff] at hnil
  have hall := hnil.2
  simp only [Expr.handlerPlan, HandlerPlan.make, append_eq_nil_iff, flatMap_eq_nil_iff,
    forall_mem_map] at hall
  exact hall.1 cl hcl

/-- In a program without complaints, a clause answers an operation of the label that it handles. -/
theorem exists_answers_of_label? (h : (p.analyze exhaustive).hasErrors = false)
    (hx : x ∈ p.nodes) (hform : x.form = .handle body clauses finalizer) (hcl : cl ∈ clauses)
    (hlabel : cl.head.label? p = some l) : ∃ op, cl.head.answers? p = some op ∧
    p.opLabel op = l := by
  have hplan := diagnostics_plan_eq_nil h hx hform hcl
  cases hresolve : cl.head.resolve p with
  | error problem => simp [Clause.plan, hresolve] at hplan
  | ok resolved =>
    obtain ⟨op, decl⟩ := resolved
    refine ⟨op, ClauseHead.answers?_eq_some_iff.mpr ⟨decl, hresolve⟩, ?_⟩
    rw [(resolve_spec hresolve).2] at hlabel
    exact Option.some.inj hlabel

/-- In a program without complaints, the plan of a clause is for the operation that the clause
answers. -/
theorem clause?_of_answers (h : (p.analyze exhaustive).hasErrors = false) (hx : x ∈ p.nodes)
    (hform : x.form = .handle body clauses finalizer) {i : Nat} (hcl : clauses[i]? = some cl)
    (hop : cl.head.answers? p = some op) :
    ∃ plan, (x.handlerPlan (p.finalContext exhaustive) body clauses finalizer).1.clause? i =
      some plan ∧ plan.op = op := by
  have hplan := diagnostics_plan_eq_nil h hx hform (mem_of_getElem? hcl)
  rw [x.clause?_handlerPlan_eq, hcl, Option.bind_some]
  change ∃ plan, (cl.plan p body x.ty _).1 = some plan ∧ plan.op = op
  obtain ⟨decl, hresolve⟩ := ClauseHead.answers?_eq_some_iff.mp hop
  simp only [Clause.plan, hresolve] at hplan ⊢
  generalize (if decl.generics = 0 then [] else body.instancesOf op) = instances at hplan ⊢
  match instances with
  | _ :: _ :: _ => cases hplan
  | [] | [_] => exact ⟨_, rfl, rfl⟩

/-- The plan of a clause is for the operation that the clause answers. -/
theorem answers?_of_plan {ty : Ty} {row : Row} {plan : ClausePlan}
    (h : (cl.plan p body ty row).1 = some plan) :
    cl.head.answers? p = some plan.op := by
  unfold Clause.plan at h
  split at h
  · cases h
  · rename_i op decl hresolve
    split at h
    · cases h
    · obtain rfl := Option.some.inj h
      exact ClauseHead.answers?_eq_some_iff.mpr ⟨decl, hresolve⟩

def operations (p : Program) : List OpRef :=
  (p.effects.flatMap fun e => (List.range e.ops.length).map fun i => ⟨e.id, i⟩).filter
    fun op => (p.op? op).isSome

theorem mem_operations : op ∈ p.operations ↔ (p.op? op).isSome := by
  rw [operations, mem_filter, and_iff_right_iff_imp]
  intro h
  obtain ⟨decl, hdecl⟩ := Option.isSome_iff_exists.mp h
  obtain ⟨e, he, hi⟩ := op?_eq_some_iff.mp hdecl
  have hid : e.id = op.effect := by simpa using find?_some he
  refine mem_flatMap.mpr ⟨e, mem_of_find?_eq_some he, mem_map.mpr ⟨op.index, ?_, by rw [hid]⟩⟩
  exact mem_range.mpr (List.getElem?_eq_some_iff.mp hi).1

/-- A handler that answers an operation answers all operations with the label of that one. -/
def CoversOverloads (p : Program) : Prop :=
  ∀ x ∈ p.nodes, ∀ cl ∈ x.form.clauses, ∀ op ∈ cl.head.answers? p, ∀ op' ∈ p.operations,
    p.opLabel op' = p.opLabel op → ∃ cl' ∈ x.form.clauses, cl'.head.answers? p = some op'

instance : Decidable p.CoversOverloads :=
  inferInstanceAs (Decidable (∀ x ∈ p.nodes, ∀ cl ∈ x.form.clauses, ∀ op ∈ cl.head.answers? p,
    ∀ op' ∈ p.operations, p.opLabel op' = p.opLabel op → ∃ cl' ∈ x.form.clauses, cl'.head.answers?
      p = some op'))

/-- Without overloads there is nothing to cover. -/
theorem DistinctLabels.coversOverloads (hp : p.DistinctLabels) : p.CoversOverloads := by
  intro x hx cl hcl op hop op' hop' hlabel
  obtain ⟨decl, hresolve⟩ := ClauseHead.answers?_eq_some_iff.mp hop
  have hdecl : (p.op? op).isSome := by rw [(resolve_spec hresolve).1]; rfl
  rw [hp.eq_of_opLabel (mem_operations.mp hop') hdecl hlabel]
  exact ⟨cl, hcl, hop⟩

end Program

end Effectful
