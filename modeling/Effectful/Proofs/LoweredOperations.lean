import Effectful.Proofs.LexicalScope
import Effectful.Proofs.Ordinals
import Effectful.Proofs.ResumeDispatch
/-!
# Operations in lowered code

A construct that performs an operation is compiled to a request if its unit has a site for it and
the operation has an ordinal, and else to an instruction that traps.  Operations have ordinals if
they are declared, and units have sites for all that they perform if they are effectful.  Where an
operation is performed at once, both is the case (`Program.operations_lowered`): inference complains
unless the operation is declared, and what a function still performs when handlers are cut out is in
its row (`Expr.performs_of_stillPerforms`).  A call of an operation is in no row, so a function can
be taken for pure that makes one.
-/

namespace Effectful

open List

variable {e x : Expr} {form : Form} {cs : List Expr} {op : OpRef} {k : OpRef × Bool}
  {a : EffectAnalysis}

/-! ### Mentioned operations -/

/-- The operation that a construct performs at once (`true`) or names (`false`). -/
def Form.mention? : Form → Option (OpRef × Bool)
  | .perform op _ _ => some (op, true)
  | .op op _ => some (op, false)
  | _ => none

namespace Form

theorem mention?_withChildren : (form.withChildren cs).mention? = form.mention? := by
  unfold withChildren
  split <;> rfl

theorem op?_eq_map_mention? : form.op? = form.mention?.map (·.1) := by
  cases form <;> rfl

theorem exists_eq_perform_of_mention? (h : form.mention? = some (op, true)) :
    ∃ args typeArgs, form = .perform op args typeArgs := by
  cases form <;> simp_all [mention?]

/-- The operation that a construct performs, at once or by a call of it. -/
def performed? : Form → Option OpRef
  | .perform op _ _ => some op
  | .call (.node _ (.op op _) _ _) _ => some op
  | _ => none

theorem performs_of_performed? (h : form.performed? = some op) : form.Performs op := by
  unfold performed? at h
  split at h <;> simp_all [Performs]

end Form

theorem placeRule_mentions (Q : OpRef × Bool → Prop) :
    PlaceRule fun _ form => ∀ k, form.mention? = some k → Q k where
  mono _ h := h
  withChildren _ h k hk := h k (Form.mention?_withChildren ▸ hk)
  plain _ _ hop k hk := by
    rw [Form.op?_eq_map_mention?, hk] at hop
    cases hop
  var _ k hk := by cases hk

/-! ### What is left when handlers are cut out -/

namespace Expr

/-- The expression performs the operation at once, also when the handlers are cut out. -/
def StillPerforms (a : EffectAnalysis) (op : OpRef) (e : Expr) : Prop :=
  ∃ x ∈ (e.cut a).walk, x.form.mention? = some (op, true)

theorem StillPerforms.of_stays (h : e.StillPerforms a op)
    (hstays : e.form.isHandle = false ∨ a.isLifted e.id = false) :
    e.form.mention? = some (op, true) ∨ ∃ c ∈ e.form.children, c.StillPerforms a op := by
  obtain ⟨x, hx, hk⟩ := h
  have hlen : (e.form.children.map (Expr.cut a)).length = e.form.children.length := length_map _
  rw [cut_eq hstays, walk_eq, form, (Form.resembles_withChildren hlen).children] at hx
  obtain rfl | hx := mem_cons.mp hx
  · exact .inl (Form.mention?_withChildren ▸ hk)
  · obtain ⟨c', hc', hx⟩ := mem_flatMap.mp hx
    obtain ⟨c, hc, rfl⟩ := mem_map.mp hc'
    exact .inr ⟨c, hc, x, hx, hk⟩

theorem StillPerforms.stays (h : e.StillPerforms a op) (hfin : e.form.finalizer? = none) :
    e.form.isHandle = false ∨ a.isLifted e.id = false := by
  by_contra hstays
  rw [not_or, Bool.not_eq_false, Bool.not_eq_false] at hstays
  obtain ⟨id, form, ty, span⟩ := e
  cases form with
  | handle body clauses finalizer =>
    obtain rfl : finalizer = none := hfin
    obtain ⟨x, hx, hk⟩ := h
    replace hstays : a.isLifted id = true := hstays.2
    rw [cut_of_isLifted hstays, walk_eq] at hx
    -- an empty handler around nothing is left
    obtain rfl | rfl : x = _ ∨ x = body.hole := by
      simpa [Form.children, walk_eq, hole, unitAt] using hx
    all_goals cases hk
  | _ => cases hstays.1

theorem not_stillPerforms_var {l : LocalId} (h : e.form = .var l) : ¬e.StillPerforms a op := by
  intro hperforms
  obtain hk | ⟨c, hc, -⟩ := hperforms.of_stays (.inl (by rw [h]; rfl))
  · rw [h] at hk
    cases hk
  · rw [h] at hc
    cases hc

end Expr

theorem Finishes.stillPerforms {s s' : NormalState} {id : ExprId} {ty : Ty} {span : Span}
    {e' : Expr} (h : Finishes a s id form ty span e' s') (hfin : form.finalizer? = none)
    (hperforms : e'.StillPerforms a op) :
    (form.isHandle = false ∨ a.isLifted id = false) ∧
      (form.mention? = some (op, true) ∨ ∃ c ∈ form.children, c.StillPerforms a op) := by
  cases h with
  | plain =>
    have hstays := hperforms.stays hfin
    exact ⟨hstays, hperforms.of_stays hstays⟩
  | @block stmts ops s₁ spills hne =>
    have hops := Form.operands_eq_children hne
    have hhandle : form.isHandle = false := by
      cases form <;> first | rfl | exact absurd rfl hne
    have hsame := Form.resembles_withChildren (spills.length_eq.trans (by rw [hops]))
    refine ⟨.inl hhandle, ?_⟩
    replace hperforms := hperforms.of_stays (.inl rfl)
    obtain hk | ⟨c, hc, hperforms⟩ := hperforms
    · cases hk
    obtain hc | hc := mem_append.mp hc
    · -- a statement binds an old operand
      obtain ⟨st, hst, hcode⟩ := mem_filterMap.mp hc
      obtain ⟨l, c', rfl, hc', -⟩ := spills.mem_stmts hst
      obtain rfl : c' = c := Option.some.inj hcode
      exact .inr ⟨c', hops ▸ hc', hperforms⟩
    · obtain rfl := mem_singleton.mp hc
      obtain hk | ⟨c, hc, hperforms⟩ := hperforms.of_stays (.inl (hsame.isHandle.trans hhandle))
      · exact .inl (Form.mention?_withChildren ▸ hk)
      · rw [Expr.form, hsame.children] at hc
        obtain hc | ⟨l, hl, -⟩ := spills.mem_ops hc
        · exact .inr ⟨c, hops ▸ hc, hperforms⟩
        · exact absurd hperforms (Expr.not_stillPerforms_var hl)

namespace Expr

/-- Every handler is cut out whose body performs something. -/
def Lifts (c : InferenceContext) (a : EffectAnalysis) (e : Expr) : Prop :=
  ∀ x ∈ e.walk, ∀ body clauses finalizer l, x.form = .handle body clauses finalizer →
    body.performs c l → a.isLifted x.id = true

theorem lifts_iff {c : InferenceContext} : e.Lifts c a ↔
    (∀ body clauses finalizer l, e.form = .handle body clauses finalizer → body.performs c l →
      a.isLifted e.id = true) ∧ ∀ part ∈ e.form.children, part.Lifts c a :=
  forall_walk_iff

/-- **What is left is inferred**: what normal code still performs is in the row of the source. -/
theorem performs_of_stillPerforms {c : InferenceContext} (hop : (c.program.op? op).isSome)
    (e : Expr) (s : NormalState) (hlifts : e.Lifts c a)
    (h : (e.normalize a s).1.StillPerforms a op) : e.performs c (c.program.opLabel op) := by
  refine normalize_induction
    (P := fun _ e e' _ => e.Lifts c a → e'.StillPerforms a op → e.performs c (c.program.opLabel op))
    (Q := fun _ es es' _ => (∀ part ∈ es, part.Lifts c a) → ∀ part' ∈ es',
    part'.StillPerforms a op →
      ∃ part ∈ es, part.performs c (c.program.opLabel op)) ?_ ?_ ?_ ?_ e s hlifts h
  · exact fun _ _ _ h => by cases h
  · intro s s₁ s' e e' es es' h h' hlifts part' hpart' hperforms
    obtain ⟨he, hes⟩ := forall_mem_cons.mp hlifts
    obtain rfl | hpart' := mem_cons.mp hpart'
    · exact ⟨e, mem_cons_self, h he hperforms⟩
    · obtain ⟨part, hpart, hl⟩ := h' hes part' hpart' hperforms
      exact ⟨part, mem_cons_of_mem _ hpart, hl⟩
  · intro s s₁ s' e e' cs hfin hcs h hfinish hlifts hperforms
    rw [lifts_iff] at hlifts
    have hsame := Form.resembles_withChildren (length_of_normalizeAll_eq hcs)
    obtain ⟨hstays, hperforms⟩ :=
      hfinish.stillPerforms (Form.finalizer?_withChildren hfin) hperforms
    rw [hsame.isHandle] at hstays
    rw [Form.mention?_withChildren, hsame.children] at hperforms
    obtain hk | ⟨part', hpart', hperforms⟩ := hperforms
    · obtain ⟨args, typeArgs, hform⟩ := Form.exists_eq_perform_of_mention? hk
      rw [performs_iff (by rw [hform]; rfl), hform]
      exact .inr ⟨hop, rfl⟩
    obtain ⟨part, hpart, hl⟩ := h hlifts.2 part' hpart' hperforms
    cases hform : e.form with
    | handle body clauses finalizer =>
      rw [hform] at hstays hpart hfin
      obtain rfl : finalizer = none := hfin
      rw [performs_iff_of_handle hform]
      simp only [Form.children, Option.toList_none, append_nil, mem_cons, mem_map] at hpart
      obtain rfl | ⟨cl, hcl, rfl⟩ := hpart
      · -- the body performs, so the handler was lifted and its body is cut
        simp [Form.isHandle, hlifts.1 _ _ _ _ hform hl] at hstays
      · exact .inr (.inl ⟨cl, hcl, hl⟩)
    | _ =>
      rw [performs_iff (by rw [hform]; rfl)]
      exact .inl ⟨part, hpart, hl⟩
  · intro s s₁ s₂ id body clauses ty span handle finalizer finalizer' h h' hlifts hperforms
    rw [lifts_iff] at hlifts
    rw [performs_iff_of_handle rfl]
    replace hperforms := hperforms.of_stays (.inl rfl)
    obtain hk | ⟨part, hpart, hperforms⟩ := hperforms
    · cases hk
    simp only [NormalState.finalized, form, Form.children, filterMap_cons, Stmt.expr?,
      filterMap_nil, Option.toList_some, cons_append, nil_append, mem_cons, not_mem_nil,
      or_false] at hpart
    -- the handler, its finalizer, and the result between them
    obtain rfl | rfl | rfl := hpart
    · have hhandle : (Expr.node id (.handle body clauses none) ty span).Lifts c a :=
        lifts_iff.mpr ⟨fun _ _ _ l hform => hlifts.1 _ _ _ l (by cases hform; rfl),
          fun part hpart => hlifts.2 part (by
          simp only [form, Form.children, Option.toList_none, append_nil, mem_cons] at hpart ⊢
          exact hpart.imp_right (mem_append_left _))⟩
      have hl := h hhandle hperforms
      rw [performs_iff_of_handle rfl] at hl
      exact hl.imp_right (Or.imp_right (by simp))
    · exact .inr (.inr ⟨finalizer, rfl, h' (hlifts.2 _ (by simp [Form.children])) hperforms⟩)
    · exact absurd hperforms (not_stillPerforms_var rfl)

end Expr

/-! ### Units -/

namespace LoweringUnit

variable {u : LoweringUnit} {f : FnDecl}

/-- The code of a unit was cut out of its function. -/
theorem Origin.exists_of_mem_regions (h : u.Origin f a) {r : Expr} (hr : r ∈ u.regions) :
    ∃ e ∈ f.body.walk, r = e.cut a := by
  cases h with
  | function => exact ⟨f.body, Expr.self_mem_walk _, mem_singleton.mp hr⟩
  | @body id body clauses finalizer ty span n mem =>
    refine ⟨body, Expr.walk_subset_of_mem_walk mem ?_, mem_singleton.mp hr⟩
    exact Expr.mem_walk_of_mem_children (by exact mem_cons_self)
  | @drive id body clauses finalizer ty span n mem =>
    replace hr : r ∈ (cutClauses a clauses).map Clause.body := hr
    rw [map_body_cutClauses] at hr
    obtain ⟨e, he, rfl⟩ := mem_map.mp hr
    refine ⟨e, Expr.walk_subset_of_mem_walk mem ?_, rfl⟩
    exact Expr.mem_walk_of_mem_children (mem_cons_of_mem _ (mem_append_left _ he))

/-- Neither the handler of a drive unit nor the hole in it performs anything. -/
theorem Orderly.mem_nodesPost_of_performs (h : u.Orderly) (hx : x ∈ u.body.walk)
    (hop : x.form.Performs op) :
    x ∈ u.nodesPost := by
  cases hdrive : u.isDrive with
  | false =>
    rw [mem_nodesPost, regions_of_not_isDrive hdrive]
    exact ⟨u.body, mem_singleton_self _, hx⟩
  | true =>
    obtain ⟨ty, span, clauses, hbody, hregions, -⟩ := h.drive hdrive
    rw [hbody, ← Expr.mem_walkPost, walkPost_emptyHandle, cons_append, mem_cons, mem_append,
      mem_singleton] at hx
    rw [nodesPost, hregions]
    obtain rfl | hx | rfl := hx
    · obtain ⟨_, _, hform⟩ | ⟨_, _, _, hform, -⟩ := hop <;> cases hform
    · exact hx
    · obtain ⟨_, _, hform⟩ | ⟨_, _, _, hform, -⟩ := hop <;> cases hform

theorem Origin.effectful_iff (h : u.Origin f a) :
    u.effectful = true ↔ u.kind ≠ .function ∨ a.isEffectful u.owner = true := by
  cases h <;> simp [functionUnit, bodyUnit, driveUnit]

end LoweringUnit

/-- Code that performs an operation does nothing but trap if it has no site or no ordinal for it. -/
theorem Form.Performs.compile_eq_unreachable_iff {c : UnitContext} {id : ExprId}
    (h : form.Performs op) (scope : Scope) (ty : Ty) (span : Span) (state : EmitState) :
    (form.compile c scope id ty span state).1 = .unreachable .unreachable ↔
      ¬((c.site? id).isSome ∧ (c.metadata.ordinalOf? op).isSome) := by
  have hnone (hnone : c.site? id = none ∨ c.metadata.ordinalOf? op = none) :
      (form.compile c scope id ty span state).1 = .unreachable .unreachable := by
    obtain ⟨args, typeArgs, rfl⟩ | ⟨callee, args, typeArgs, rfl, hcallee⟩ := h
    · rw [Form.compile]
      obtain hnone | hnone := hnone <;> rw [hnone]
      · rfl
      · cases c.site? id <;> rfl
    · rw [Form.compile, hcallee]
      dsimp only
      obtain hnone | hnone := hnone <;> rw [hnone]
      · rfl
      · cases c.site? id <;> rfl
  cases hsite : c.site? id with
  | none => exact iff_of_true (hnone (.inl hsite)) (by simp)
  | some site =>
    cases ho : c.metadata.ordinalOf? op with
    | none => exact iff_of_true (hnone (.inr ho)) (by simp)
    | some o =>
      obtain ⟨values, behind, hcode⟩ := OpOrdinal.exists_request_of_performs h hsite ho scope
        ty span state
      simp [hcode]

theorem UnitContext.HasSites.isSome_site?_of_performs {c : UnitContext} {f : FnDecl} {first : Nat}
    (h : c.HasSites f first) (hx : x ∈ c.unit.body.walk) (hop : x.form.Performs op) :
    (c.site? x.id).isSome := by
  obtain ⟨d, hd, hexpr⟩ : ∃ d, x.siteDraft? c.analysis c.program.units
      (c.unit.continuationsOf c.analysis .resume) = some d ∧ d.expr = x.id := by
    obtain ⟨args, typeArgs, hform⟩ | ⟨callee, args, typeArgs, hform, hcallee⟩ := hop
    · exact ⟨_, by rw [Expr.siteDraft?, hform], rfl⟩
    · exact ⟨_, by rw [Expr.siteDraft?, hform]; simp only [hcallee]; rfl, rfl⟩
  have hmem : x.id ∈ c.sites.map (·.expr) := by
    rw [h.sites, LoweringUnit.map_expr_sites, h.orderly.siteDrafts_eq, map_append, ← hexpr]
    have hnode := h.orderly.mem_nodesPost_of_performs hx hop
    exact mem_append_left _ (mem_map_of_mem (mem_filterMap.mpr ⟨x, hnode, hd⟩))
  obtain ⟨s, hs, hexpr⟩ := mem_map.mp hmem
  rw [h.site?_eq_some_iff.mpr ⟨hs, hexpr⟩]
  rfl

/-- A unit that is not effectful has no sites. -/
theorem UnitContext.effectful_of_isSome_site? {p : Program} {md : EffectMetadata} {i : Nat}
    {u : LoweringUnit} (hu : (p.lift a).units[i]? = some u) {id : ExprId}
    (h : (((p.lowered a md).unitContext a md i u).site? id).isSome) : u.effectful = true := by
  obtain ⟨s, hs⟩ := Option.isSome_iff_exists.mp h
  obtain ⟨first, hsites, -⟩ := Program.unitSites_siteTable (p := p) (a := a) (m := md) hu
  have hmem := mem_filter.mp (mem_of_getLast? hs)
  have hown : s ∈ u.ownSites p a md (p.lift a) i first := by
    rw [← hsites, SiteTable.unitSites, mem_filter]
    exact ⟨hmem.1, (Bool.and_eq_true_iff.mp hmem.2).1⟩
  unfold LoweringUnit.ownSites at hown
  split at hown
  · rename_i heff _
    exact heff
  · cases hown

/-- How a unit of the compiled program deals with a construct that performs an operation. -/
structure UnitContext.Lowers (c : UnitContext) (p : Program) (x : Expr) (op : OpRef) : Prop where
  site : (c.site? x.id).isSome ↔ c.unit.kind ≠ .function ∨ c.analysis.isEffectful
    c.unit.owner = true
  ordinal : (c.metadata.ordinalOf? op).isSome ↔ (p.op? op).isSome
  code : ∀ scope ty span state, (x.form.compile c scope x.id ty span state).1 = .unreachable
    .unreachable ↔ ¬((c.site? x.id).isSome ∧ (c.metadata.ordinalOf? op).isSome)
  /-- The code never traps where the operation is performed at once. -/
  atOnce : ∀ args typeArgs, x.form = .perform op args typeArgs →
    (c.site? x.id).isSome ∧ (c.metadata.ordinalOf? op).isSome

namespace Program

variable {p p' : Program} {exhaustive : Bool} {f : FnDecl} {config : CompilerConfig}
  {compiled : CompiledProgram} {u : LoweringUnit}

/-- What the code of a unit mentions is mentioned in the source. -/
theorem exists_mention (hp' : p.normalize? a = some p') (hu : u ∈ (p'.lift a).units) {r : Expr}
    (hr : r ∈ u.regions) (hx : x ∈ r.walk) (hk : x.form.mention? = some k) :
    ∃ f ∈ p.functions, ∃ y ∈ f.body.walk, y.form.mention? = some k := by
  obtain ⟨f', hf', horigin⟩ := exists_origin hu
  obtain ⟨f, hf, s, -, rfl⟩ := exists_of_mem_normalize? hp' hf'
  obtain ⟨e, he, rfl⟩ := horigin.exists_of_mem_regions hr
  have hR := placeRule_mentions fun k => ∃ y ∈ f.body.walk, y.form.mention? = some k
  have hnormal := hR.normalize (a := a) f.body s ⟨[], false⟩
    fun d hd k hk => ⟨d.2, Expr.mem_walk_of_mem_walkIn hd, hk⟩
  obtain ⟨P, he⟩ := Expr.exists_mem_walkIn he ⟨[], false⟩
  obtain ⟨Q, hx⟩ := Expr.exists_mem_walkIn hx P
  exact ⟨f, hf, hR.cut e P (fun d hd => hnormal d (Expr.walkIn_subset he hd)) _ hx k hk⟩

theorem lifts_body (hp : p.DistinctNodes) (hf : f ∈ p.functions) :
    f.body.Lifts (p.finalContext exhaustive) (p.analyze exhaustive) := by
  intro x hx body clauses finalizer l hform hl
  rw [EffectAnalysis.isLifted, handler?_analyze hp (mem_flatMap.mpr ⟨f, hf, hx⟩) hform]
  show (!(body.infer (p.finalContext exhaustive)).row.isEmpty) = true
  rw [Bool.not_eq_true', ← Bool.not_eq_true, Row.isEmpty_iff_labels]
  exact ne_nil_of_mem hl

/-- A unit in which an operation is performed at once is effectful, and the operation is
declared. -/
theorem effectful_of_perform (hnodes : p.DistinctNodes) (hfns : p.DistinctFunctions)
    (h : (p.analyze exhaustive).hasErrors = false)
    (hp' : p.normalize? (p.analyze exhaustive) = some p')
    (hu : u ∈ (p'.lift (p.analyze exhaustive)).units) {r : Expr} (hr : r ∈ u.regions)
    (hx : x ∈ r.walk) (hk : x.form.mention? = some (op, true)) :
    u.effectful = true ∧ (p.op? op).isSome := by
  obtain ⟨f, hf, y, hy, hyk⟩ := exists_mention hp' hu hr hx hk
  obtain ⟨args, typeArgs, hform⟩ := Form.exists_eq_perform_of_mention? hyk
  have hdeclared := isSome_op?_of_perform h (mem_flatMap.mpr ⟨f, hf, hy⟩) hform
  refine ⟨?_, hdeclared⟩
  obtain ⟨f', hf', horigin⟩ := exists_origin hu
  cases horigin with
  | body | drive => rfl
  | function =>
    obtain ⟨f, hf, s, -, rfl⟩ := exists_of_mem_normalize? hp' hf'
    obtain rfl := mem_singleton.mp hr
    have hl := Expr.performs_of_stillPerforms (c := p.finalContext exhaustive) hdeclared f.body s
      (lifts_body hnodes hf) ⟨x, hx, hk⟩
    show (!((p.analyze exhaustive).functionRow f.id).isEmpty) = true
    rw [Bool.not_eq_true', ← Bool.not_eq_true, Row.isEmpty_iff_labels]
    exact ne_nil_of_mem (labels_functionRow_of_performs hfns hf hl)

theorem analyze_of_compile (h : p.compile config = .ok compiled) : ∃ exhaustive,
    (p.analyze exhaustive).hasErrors = false ∧
      compiled.checked = ⟨p.analyze exhaustive, p.metadata (p.analyze exhaustive)⟩ := by
  have hcheck := (check_of_lower (lower_of_compile h).1).1
  unfold check at hcheck
  cases hv : config.validate with
  | error e => simp [hv, bind, Except.bind, Except.mapError] at hcheck
  | ok config' =>
    simp only [hv, bind, Except.bind, Except.mapError] at hcheck
    split at hcheck
    · cases hcheck
    · rename_i herrors
      exact ⟨_, by simpa using herrors, (Except.ok.inj hcheck).symm⟩

/-- **What is performed is lowered.** Let a construct in a unit of a compiled program perform an
operation, at once or by a call of it.  The unit has a site for it, unless it is the unit of a
function that counts as pure, and the operation has an ordinal if it is declared.  Code that only
traps is emitted if one of them is missing; neither is where an operation is performed at once. -/
theorem operations_lowered (hnodes : p.DistinctNodes) (hfns : p.DistinctFunctions)
    (h : p.compile config = .ok compiled) {i : Nat} (hu : compiled.lowered.units.units[i]? = some u)
    (hx : x ∈ u.body.walk) (hop : x.form.Performs op) :
    (compiled.lowered.unitContext compiled.checked.analysis compiled.checked.metadata i u).Lowers
      p x op := by
  obtain ⟨exhaustive, herrors, hchecked⟩ := analyze_of_compile h
  obtain ⟨p', hp', hlowered⟩ :=
    exists_lowered_of_lowerWith? (check_of_lower (lower_of_compile h).1).2
  rw [hlowered] at hu ⊢
  rw [hchecked] at hu hp' ⊢
  have hunit := mem_of_getElem? hu
  obtain ⟨f', hf', horigin⟩ := exists_origin hunit
  obtain ⟨r, hr, hxr⟩ :=
    LoweringUnit.mem_nodesPost.mp
      (((hnodes.normalize hp').orderly hunit).mem_nodesPost_of_performs hx hop)
  have hordinal : ((p.metadata (p.analyze exhaustive)).ordinalOf? op).isSome ↔
      (p.op? op).isSome := by
    rw [isSome_ordinalOf?_iff, map_op_ordinals, mem_orderedOps]
    refine and_iff_left ?_
    obtain ⟨y, atOnce, hy, hk⟩ : ∃ y atOnce, y ∈ r.walk ∧ y.form.mention? = some (op, atOnce) := by
      obtain ⟨args, typeArgs, hform⟩ | ⟨callee, args, typeArgs, hform, hcallee⟩ := hop
      · exact ⟨x, true, hxr, by rw [hform]; rfl⟩
      · have hchild : callee ∈ x.form.children := by rw [hform]; exact mem_cons_self
        refine ⟨callee, false, Expr.walk_subset_of_mem_walk hxr
          (Expr.mem_walk_of_mem_children hchild), ?_⟩
        rw [hcallee]
        rfl
    obtain ⟨f, hf, z, hz, hk⟩ := exists_mention hp' hunit hr hy hk
    exact ⟨f, hf, z, hz, by rw [Form.op?_eq_map_mention?, hk]; rfl⟩
  have hsite : (((p'.lowered (p.analyze exhaustive) (p.metadata (p.analyze exhaustive))).unitContext
      (p.analyze exhaustive) (p.metadata (p.analyze exhaustive)) i u).site? x.id).isSome ↔
      u.effectful = true := by
    refine ⟨UnitContext.effectful_of_isSome_site? hu, fun heff => ?_⟩
    obtain ⟨_, _, hsites⟩ :=
      (hnodes.normalize hp').hasSites (p.metadata (p.analyze exhaustive)) hu heff
    exact hsites.isSome_site?_of_performs hx hop
  refine ⟨hsite.trans horigin.effectful_iff, hordinal, hop.compile_eq_unreachable_iff,
    fun args typeArgs hform => ?_⟩
  obtain ⟨heff, hdeclared⟩ := effectful_of_perform hnodes hfns herrors hp' hunit hr hxr
    (by rw [hform]; rfl)
  exact ⟨hsite.mpr heff, hordinal.mpr hdeclared⟩

/-- One function performs an operation, and the other calls it. -/
def asksTwice : Program where
  effects := [{ id := ⟨0⟩, name := "A", ops := [⟨"a", 0, [], .i32, .tail⟩] }]
  functions := [
    { id := ⟨1⟩, name := "ask", params := [], ret := .i32, locals := []
      body := .i32 3 (.perform ⟨⟨0⟩, 0⟩ [] []) },
    { id := ⟨2⟩, name := "main", params := [], ret := .i32, exported := true, locals := []
      body := .i32 5 (.call (.i32 4 (.op ⟨⟨0⟩, 0⟩ [])) []) }]

/-- The unit of the first function has a site.  The second function counts as pure, and its code
traps. -/
theorem operations_lowered_asksTwice :
    asksTwice.DistinctNodes ∧ asksTwice.DistinctFunctions ∧ ∃ compiled u u', asksTwice.compile {} =
      .ok compiled ∧ compiled.lowered.units.units = [u, u'] ∧ u.body.form.Performs ⟨⟨0⟩, 0⟩ ∧
      u'.body.form.Performs ⟨⟨0⟩, 0⟩ ∧
      ((compiled.lowered.unitContext compiled.checked.analysis compiled.checked.metadata 0 u).site?
        u.body.id).isSome ∧
      ∀ scope ty span state,
        (u'.body.form.compile
          (compiled.lowered.unitContext compiled.checked.analysis compiled.checked.metadata 1 u')
          scope u'.body.id ty span state).1 = .unreachable .unreachable := by
  have hnodes : asksTwice.DistinctNodes := by decide +kernel
  have hfns : asksTwice.DistinctFunctions := by decide +kernel
  have hunits : (asksTwice.compile {}).toOption.map
      (fun c => c.lowered.units.units.map fun u => (u.body.form.performed?, u.kind == .function,
      c.checked.analysis.isEffectful u.owner)) = some [(some ⟨⟨0⟩, 0⟩, true, true),
      (some ⟨⟨0⟩, 0⟩, true, false)] := by decide +kernel
  refine ⟨hnodes, hfns, ?_⟩
  cases h : asksTwice.compile {} with
  | error e => simp [h, Except.toOption] at hunits
  | ok compiled =>
    simp only [h, Except.toOption, Option.map_some, Option.some.injEq, map_eq_cons_iff,
      Prod.mk.injEq, beq_iff_eq, map_eq_nil_iff] at hunits
    obtain ⟨u, -, hu, ⟨hop, -, heff⟩, u', -, rfl, ⟨hop', hkind, hpure⟩, rfl⟩ := hunits
    replace hop := Form.performs_of_performed? hop
    replace hop' := Form.performs_of_performed? hop'
    have hlowers := operations_lowered hnodes hfns h (i := 0) (by rw [hu]; rfl)
      (Expr.self_mem_walk _) hop
    have hlowers' := operations_lowered hnodes hfns h (i := 1) (by rw [hu]; rfl)
      (Expr.self_mem_walk _) hop'
    refine ⟨compiled, u, u', rfl, hu, hop, hop', hlowers.site.mpr (.inr heff),
      fun scope ty span state => ?_⟩
    refine (hlowers'.code scope ty span state).mpr fun hsite => ?_
    obtain hne | heff' := hlowers'.site.mp hsite.1
    · exact hne hkind
    · exact Bool.false_ne_true (hpure.symm.trans heff')

end Program

end Effectful
