import Effectful.Proofs.NormalProgram
/-!
# Where units come from

Each unit of a program is a function, the body of a handler or its clauses (`LoweringUnit.Origin`).
So the nodes of a unit have distinct ids if those of the program do; only the handler of a drive
unit and the empty body inside it share one, and no clause has it (`LoweringUnit.Orderly`).
-/

namespace Effectful

open List

variable {f : FnDecl} {a : EffectAnalysis} {p : Program} {u : LoweringUnit}
variable {e : Expr}

/-- The units that a function gives. -/
inductive LoweringUnit.Origin (f : FnDecl) (a : EffectAnalysis) : LoweringUnit → Prop where
  | function : Origin f a (functionUnit f a)
  | body {id : ExprId} {body : Expr} {clauses : List Clause} {finalizer : Option Expr} {ty : Ty}
      {span : Span} (n : Nat)
    (mem : .node id (.handle body clauses finalizer) ty span ∈ f.body.walk) :
    Origin f a (bodyUnit f a n id ty body)
  | drive {id : ExprId} {body : Expr} {clauses : List Clause} {finalizer : Option Expr} {ty : Ty}
      {span : Span} (n : Nat)
    (mem : .node id (.handle body clauses finalizer) ty span ∈ f.body.walk) :
    Origin f a (driveUnit f a n id ty span clauses)

theorem LoweringUnit.Origin.owner (h : u.Origin f a) : u.owner = f.id := by
  cases h <;> rfl

/-- Units are cut out of handlers in the code. -/
theorem Expr.origin_of_mem_lift (he : e.walk ⊆ f.body.walk) {s : LiftState}
    (hu : u ∈ (e.lift f a s).1.units) :
    u.Origin f a := by
  refine Expr.lift_induction (f := f) (a := a)
    (M := fun es _ r _ => (∀ e ∈ es, e.walk ⊆ f.body.walk) → ∀ u ∈ r.units, u.Origin f a) ?_
    ?_ ?_ ?_ e s (forall_mem_singleton.mpr he) u hu
  · intro s _ u hu
    cases hu
  · intro e es s r s₁ r' s' h h' hes u hu
    obtain ⟨he, hes⟩ := forall_mem_cons.mp hes
    obtain hu | hu := mem_append.mp hu
    · exact h (forall_mem_singleton.mpr he) u hu
    · exact h' hes u hu
  · intro e s r s' _ h hes
    have he := forall_mem_singleton.mp hes
    exact h fun c hc => List.Subset.trans (walk_subset_of_mem_children hc) he
  · intro id body clauses finalizer ty span s r s₁ r' s' _ h h' hes u hu
    have he := forall_mem_singleton.mp hes
    have hmem := he (self_mem_walk _)
    have hparts (c : Expr)
        (hc : c ∈ (node id (.handle body clauses finalizer) ty span).form.children) :
        c.walk ⊆ f.body.walk := List.Subset.trans (walk_subset_of_mem_children hc) he
    simp only [liftedHandle, cons_append, mem_cons, mem_append] at hu
    obtain rfl | hu | rfl | hu := hu
    · exact .body _ hmem
    · exact h (forall_mem_singleton.mpr (hparts body mem_cons_self)) u hu
    · exact .drive _ hmem
    · exact h' (fun c hc => hparts c (mem_cons_of_mem _ (mem_append_left _ hc))) u hu

/-- **Each unit comes from a function of the program.** -/
theorem Program.exists_origin (hu : u ∈ (p.lift a).units) : ∃ f ∈ p.functions, u.Origin f a := by
  have hfns (fs : List FnDecl) (position : Nat) (hu : u ∈ (liftFns a position fs).units) :
      ∃ f ∈ fs, u.Origin f a := by
    induction fs generalizing position with
    | nil => cases hu
    | cons f fs ih =>
      obtain hu | hu := mem_append.mp hu
      · refine ⟨f, mem_cons_self, ?_⟩
        obtain rfl | hu := mem_cons.mp hu
        · exact .function
        · exact Expr.origin_of_mem_lift (List.Subset.refl _) hu
      · obtain ⟨g, hg, horigin⟩ := ih _ hu
        exact ⟨g, mem_cons_of_mem _ hg, horigin⟩
  exact hfns _ 0 hu

theorem Program.functionUnit_mem_lift (hf : f ∈ p.functions) :
    functionUnit f a ∈ (p.lift a).units := by
  have hfns (fs : List FnDecl) (position : Nat) (hf : f ∈ fs) :
      functionUnit f a ∈ (liftFns a position fs).units := by
    induction fs generalizing position with
    | nil => cases hf
    | cons g fs ih =>
      obtain rfl | hf := mem_cons.mp hf
      · exact mem_append_left _ mem_cons_self
      · exact mem_append_right _ (ih _ hf)
  exact hfns _ 0 hf

/-- The function that a unit comes from can be looked up. -/
theorem Program.exists_owner (hu : u ∈ (p.lift a).units) : ∃ f, p.function? u.owner = some f := by
  obtain ⟨f, hf, horigin⟩ := exists_origin hu
  cases hfind : p.function? u.owner with
  | some g => exact ⟨g, rfl⟩
  | none =>
    have hnot := find?_eq_none.mp hfind f hf
    simp [horigin.owner] at hnot

/-! ### Ids -/

namespace Expr

def ids (e : Expr) : List ExprId := e.walk.map Expr.id

theorem ids_eq (e : Expr) : e.ids = e.id :: e.form.children.flatMap ids := by
  rw [ids, walk_eq, map_cons, map_flatMap]
  rfl

theorem mem_ids {i : ExprId} : i ∈ e.ids ↔ ∃ x ∈ e.walk, x.id = i := mem_map

theorem sublist_ids_of_mem_children {c : Expr} (h : c ∈ e.form.children) : c.ids.Sublist e.ids := by
  rw [ids_eq e, List.flatMap]
  exact (sublist_flatten_of_mem (mem_map_of_mem h)).cons _

theorem sublist_ids_of_mem_walk {x : Expr} (h : x ∈ e.walk) : x.ids.Sublist e.ids := by
  induction e using Expr.induction with
  | step e ih =>
    rw [walk_eq] at h
    obtain rfl | h := mem_cons.mp h
    · exact List.Sublist.refl _
    · obtain ⟨c, hc, hx⟩ := mem_flatMap.mp h
      exact (ih c hc hx).trans (sublist_ids_of_mem_children hc)

/-- Cutting handlers out takes ids away and adds none. -/
theorem sublist_ids_cut (e : Expr) : (e.cut a).ids.Sublist e.ids := by
  refine cut_induction (M := fun e e' => e'.ids.Sublist e.ids) ?_ ?_ e
  · intro e ih
    have hlen : (e.form.children.map (Expr.cut a)).length = e.form.children.length := length_map _
    rw [ids_eq, ids_eq e, form, (Form.resembles_withChildren hlen).children]
    refine List.Sublist.cons_cons _ ?_
    generalize e.form.children = es at ih
    induction es with
    | nil => exact List.Sublist.refl _
    | cons c es ihes =>
      rw [forall_mem_cons] at ih
      exact ih.1.append (ihes ih.2)
  · intro id body clauses finalizer ty span
    rw [ids_eq, ids_eq (.node _ _ _ _)]
    refine List.Sublist.cons_cons _ ?_
    simp only [Expr.form, Form.children, map_nil, nil_append, flatMap_cons, flatMap_append]
    have hhole : body.hole.ids = [body.id] := rfl
    rw [hhole, ids_eq body]
    refine List.Sublist.append ?_ (sublist_append_right _ _)
    exact List.Sublist.cons_cons _ (nil_sublist _)

end Expr

namespace LoweringUnit

/-- The code of a unit; that of a drive unit are its clauses. -/
def regions (u : LoweringUnit) : List Expr :=
  match u.isDrive, u.body.form with
  | true, .handle _ clauses _ => clauses.map Clause.body
  | _, _ => [u.body]

theorem regions_of_not_isDrive (h : u.isDrive = false) : u.regions = [u.body] := by
  unfold regions
  split
  · rename_i hdrive _
    rw [h] at hdrive
    cases hdrive
  · rfl

theorem walk_subset_of_mem_regions (u : LoweringUnit) (h : e ∈ u.regions) :
    e.walk ⊆ u.body.walk := by
  unfold regions at h
  split at h
  · rename_i hform
    refine Expr.walk_subset_of_mem_children ?_
    rw [hform]
    exact mem_cons_of_mem _ (mem_append_left _ h)
  · rw [mem_singleton.mp h]
    exact List.Subset.refl _

/-- Nodes have ids of their own, but for the empty body of the handler that a drive unit stands
for. -/
structure Orderly (u : LoweringUnit) : Prop where
  nodup : (u.regions.flatMap Expr.ids).Nodup
  drive : u.isDrive = true → ∃ ty span clauses, u.body = emptyHandle u.body.id ty span clauses ∧
    u.regions = clauses.map Clause.body ∧ u.body.id ∉ u.regions.flatMap Expr.ids

/-- **The units of a program with distinct ids are orderly.** -/
theorem Origin.orderly (h : u.Origin f a) (hf : f.body.ids.Nodup) : u.Orderly := by
  have hplain (e : Expr) (he : e.ids.Nodup) : ([e.cut a].flatMap Expr.ids).Nodup := by
    rw [flatMap_cons, flatMap_nil, append_nil]
    exact he.sublist (Expr.sublist_ids_cut e)
  cases h with
  | function => exact ⟨hplain _ hf, fun hdrive => by cases hdrive⟩
  | body n mem =>
    refine ⟨hplain _ (hf.sublist ?_), fun hdrive => by cases hdrive⟩
    exact (Expr.sublist_ids_of_mem_children (by exact mem_cons_self)).trans
      (Expr.sublist_ids_of_mem_walk mem)
  | @drive id body clauses finalizer ty span n mem =>
    have hids := hf.sublist (Expr.sublist_ids_of_mem_walk mem)
    rw [Expr.ids_eq] at hids
    obtain ⟨hroot, hparts⟩ := nodup_cons.mp hids
    -- the clauses of the handler, among its parts
    have hmiddle : ((clauses.map Clause.body).flatMap Expr.ids).Sublist
        ((Form.handle body clauses finalizer).children.flatMap Expr.ids) := by
      rw [Form.children, flatMap_cons, flatMap_append]
      exact (sublist_append_left _ _).trans (sublist_append_right _ _)
    have hcut : (((cutClauses a clauses).map Clause.body).flatMap Expr.ids).Sublist
        ((clauses.map Clause.body).flatMap Expr.ids) := by
      rw [map_body_cutClauses]
      generalize clauses.map Clause.body = es
      induction es with
      | nil => exact List.Sublist.refl _
      | cons e es ih => exact (Expr.sublist_ids_cut e).append ih
    have hregions : (driveUnit f a n id ty span clauses).regions = (cutClauses a clauses).map
        Clause.body := rfl
    refine ⟨hregions ▸ hparts.sublist (hcut.trans hmiddle),
      fun _ => ⟨ty, span, cutClauses a clauses, rfl, rfl, ?_⟩⟩
    exact fun hmem => hroot ((hcut.trans hmiddle).subset hmem)

end LoweringUnit

theorem Program.DistinctNodes.nodup_ids (hp : p.DistinctNodes) (hf : f ∈ p.functions) :
    f.body.ids.Nodup := by
  rw [DistinctNodes, nodes, map_flatMap] at hp
  exact hp.sublist (sublist_flatten_of_mem
    (mem_map_of_mem (f := fun f : FnDecl => f.body.walk.map Expr.id) hf))

theorem Program.DistinctNodes.orderly (hp : p.DistinctNodes) (hu : u ∈ (p.lift a).units) :
    u.Orderly := by
  obtain ⟨f, hf, horigin⟩ := exists_origin hu
  exact horigin.orderly (hp.nodup_ids hf)

end Effectful
