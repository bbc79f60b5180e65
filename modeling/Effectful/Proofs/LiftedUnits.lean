import Effectful.Proofs.EmittedModule
import Effectful.Proofs.LexicalScope
import Effectful.Proofs.UnitOrigin
/-!
# Units are closed and confined

A unit that is cut out of a function takes its free locals by value.  That is right if it uses no
other local of the function, if its handler has those locals where it stands, and if the unit
neither assigns them nor leaves the code that it was cut out of
(`Program.closed_and_confined_lift`).

Free locals are found with one set of declarations for a whole expression.  In a lexical function no
declaration inside an expression hides a local from outside, so the expression needs exactly its
free locals (`Expr.AllIn.freeLocals`). Cutting leaves everything else where it is, at the place
where it stood before (`Expr.KeepsHandlers`).  What lifting records about units and handlers
(`LiftedProgram.Records`, `LiftedProgram.Finds`) follows by induction along lifting, and the search
for places at which a unit is left misses only closures (`Expr.allIn_stray?_of_strays`).
-/

namespace Effectful

open List

variable {c : Expr} {first n : Nat} {u : LoweringUnit} {id : ExprId} {ty : Ty} {span : Span}
  {clauses : List Clause} {h : LiftedHandle}

/-! ### Free locals -/

section FreeLocals

variable {P Q : Place} {e : Expr} {d : Place × Expr} {l : LocalId}

theorem Expr.mem_freeLocals_iff :
    l ∈ e.freeLocals ↔ (∃ x ∈ e.walk, l ∈ x.form.usedLocals) ∧ l ∉ e.binders := by
  rw [freeLocals, mem_filter, LocalSet.mem_ofList, mem_flatMap]
  simp [binders]

theorem Expr.sublist_binders_of_mem_children (h : c ∈ e.form.children) :
    c.binders.Sublist e.binders := by
  rw [binders_eq e, List.flatMap]
  exact (sublist_flatten_of_mem (mem_map_of_mem h)).trans (sublist_append_right _ _)

/-- What is visible in an expression was visible around it or is declared in it. -/
theorem Expr.visible_or_mem_binders (hd : d ∈ e.walkIn P) (hl : l ∈ d.1.visible) :
    l ∈ P.visible ∨ l ∈ e.binders := by
  induction e using Expr.induction generalizing P with
  | step e ih =>
    rw [walkIn_eq] at hd
    obtain rfl | hd := mem_cons.mp hd
    · exact .inl hl
    · obtain ⟨part, hpart, hd⟩ := mem_flatMap.mp hd
      have hmem := Form.mem_children_of_enclosed hpart
      obtain hl | hl := ih part.2 hmem hd
      · -- the construct makes it visible in the part, or it was visible before
        obtain hl | hl := mem_append.mp hl
        · rw [binders_eq]
          exact .inr (mem_append_left _ (Form.mem_declaredLocals_of_binds hpart hl))
        · exact .inl hl
      · exact .inr ((sublist_binders_of_mem_children hmem).subset hl)

/-- If all binders differ, then nothing visible at a node is declared below it. -/
theorem Expr.disjoint_visible_binders (hP : List.Disjoint P.visible e.binders)
    (hnodup : e.binders.Nodup) (hd : d ∈ e.walkIn P) : List.Disjoint d.1.visible d.2.binders := by
  induction e using Expr.induction generalizing P with
  | step e ih =>
    rw [walkIn_eq] at hd
    obtain rfl | hd := mem_cons.mp hd
    · exact hP
    · obtain ⟨part, hpart, hd⟩ := mem_flatMap.mp hd
      have hmem := Form.mem_children_of_enclosed hpart
      have hsub := sublist_binders_of_mem_children hmem
      refine ih part.2 hmem ?_ (hnodup.sublist hsub) hd
      -- what the construct declares is not declared once more in its parts
      intro l hl hbinder
      obtain hl | hl := mem_append.mp hl
      · rw [binders_eq] at hnodup
        exact (nodup_append.mp hnodup).2.2 l (Form.mem_declaredLocals_of_binds hpart hl) l
          (mem_flatMap.mpr ⟨part.2, hmem, hbinder⟩) rfl
      · exact hP hl (hsub.subset hbinder)

namespace Expr.AllIn

theorem of_mem_walkIn {R : Place → Form → Prop} (h : e.AllIn R P) (hd : d ∈ e.walkIn P) :
    d.2.AllIn R d.1 :=
  fun d' hd' => h d' (walkIn_subset hd hd')

/-- Free locals are visible from outside. -/
theorem visible_of_mem_freeLocals (h : e.AllIn UsesVisible P) (hl : l ∈ e.freeLocals) :
    l ∈ P.visible := by
  obtain ⟨⟨x, hx, hused⟩, hfree⟩ := mem_freeLocals_iff.mp hl
  obtain ⟨Q, hQ⟩ := exists_mem_walkIn hx P
  exact (visible_or_mem_binders hQ (h _ hQ l hused)).resolve_right hfree

/-- Only locals that are used need to be visible. -/
theorem restrict (h : e.AllIn UsesVisible P)
    (hPQ : ∀ l ∈ P.visible, (∃ x ∈ e.walk, l ∈ x.form.usedLocals) → l ∈ Q.visible) :
    e.AllIn UsesVisible Q := by
  induction e using Expr.induction generalizing P Q with
  | step e ih =>
    rw [allIn_iff] at h ⊢
    refine ⟨fun l hl => hPQ l (h.1 l hl) ⟨e, self_mem_walk e, hl⟩, fun part hpart => ?_⟩
    have hmem := Form.mem_children_of_enclosed hpart
    -- both places grow by the same locals in a part
    refine ih part.2 hmem (h.2 part hpart) fun l hl hused => ?_
    obtain hl | hl := mem_append.mp hl
    · exact mem_append_left _ hl
    · obtain ⟨x, hx, hused⟩ := hused
      exact mem_append_right _ (hPQ l hl ⟨x, walk_subset_of_mem_children hmem hx, hused⟩)

/-- **The free locals are all that an expression needs.** -/
theorem freeLocals (h : e.AllIn UsesVisible P) (hP : List.Disjoint P.visible e.binders) :
    e.AllIn UsesVisible ⟨e.freeLocals, false⟩ :=
  h.restrict fun _ hl hused => mem_freeLocals_iff.mpr ⟨hused, fun hbinder => hP hl hbinder⟩

end Expr.AllIn

end FreeLocals

/-! ### Cutting leaves handlers where they are -/

namespace Expr

variable {P : Place} {a : EffectAnalysis} {e : Expr} {body : Expr} {finalizer : Option Expr}

def cutParts (a : EffectAnalysis) (e : Expr) : Expr :=
  .node e.id (e.form.withChildren (e.form.children.map (Expr.cut a))) e.ty e.span

/-- Cutting handlers out keeps the rules of places. -/
theorem AllIn.cutParts {R : Place → Form → Prop} (hR : PlaceRule R) (h : e.AllIn R P) :
    (e.cutParts a).AllIn R P := by
  obtain ⟨id, form, ty, span⟩ := e
  refine h.withChildren hR ?_
  rw [forall₂_map_right_iff]
  exact forall₂_same.mpr fun c _ => hR.cut c

theorem self_mem_walkIn (e : Expr) (P : Place) : (P, e) ∈ e.walkIn P := by
  rw [walkIn_eq]
  exact mem_cons_self

/-- Each handler of the second expression stands in the first one, at the same place. -/
def KeepsHandlers (e e' : Expr) : Prop :=
  ∀ P, ∀ d ∈ e'.walkIn P, d.2.form.isHandle = true → ∃ x, (d.1, x) ∈ e.walkIn P ∧
    x.form.isHandle = true ∧ x.id = d.2.id

theorem keepsHandlers_withChildren {form : Form} {cs : List Expr}
    (h : List.Forall₂ KeepsHandlers form.children cs) :
    KeepsHandlers (.node id form ty span) (.node id (form.withChildren cs) ty span) := by
  intro P d hd hhandle
  have hlen := h.length_eq.symm
  rw [walkIn_eq] at hd
  obtain rfl | hd := mem_cons.mp hd
  · exact ⟨_, self_mem_walkIn _ P, (Form.resembles_withChildren hlen).isHandle ▸ hhandle, rfl⟩
  · obtain ⟨part, hpart, hd⟩ := mem_flatMap.mp hd
    rw [Expr.form, Form.enclosed_withChildren hlen] at hpart
    rw [← form.map_snd_enclosed] at h
    obtain ⟨c, hmem, hc⟩ := exists_of_mem_zip h hpart
    obtain ⟨x, hx, hkept⟩ := hc _ d hd hhandle
    exact ⟨x, mem_walkIn_of_enclosed (e := .node id form ty span) hmem hx, hkept⟩

/-- **Cutting leaves handlers where they are**, if it leaves them. -/
theorem keepsHandlers_cut (e : Expr) : KeepsHandlers e (e.cut a) := by
  refine cut_induction (M := KeepsHandlers) ?_ ?_ e
  · intro e ih
    obtain ⟨id, form, ty, span⟩ := e
    refine keepsHandlers_withChildren ?_
    rw [forall₂_map_right_iff]
    exact forall₂_same.mpr ih
  · intro id body clauses finalizer ty span P d hd hhandle
    rw [walkIn_eq] at hd
    obtain rfl | hd := mem_cons.mp hd
    · exact ⟨_, self_mem_walkIn _ P, rfl, rfl⟩
    · obtain ⟨part, hpart, hd⟩ := mem_flatMap.mp hd
      obtain rfl | hpart := mem_cons.mp hpart
      · -- nothing stands in the hole
        obtain rfl := mem_singleton.mp hd
        cases hhandle
      · have hkept : part ∈ (Form.handle body clauses finalizer).enclosed :=
          mem_cons_of_mem _ (mem_append_right _ hpart)
        exact ⟨d.2, mem_walkIn_of_enclosed hkept hd, hhandle, rfl⟩

theorem keepsHandlers_cutParts (e : Expr) : KeepsHandlers e (e.cutParts a) := by
  obtain ⟨id, form, ty, span⟩ := e
  refine keepsHandlers_withChildren ?_
  rw [forall₂_map_right_iff]
  exact forall₂_same.mpr fun c _ => keepsHandlers_cut c

/-! ### Handlers with nothing to guard -/

theorem cutParts_emptyHandle :
    (emptyHandle id ty span clauses).cutParts a =
      emptyHandle id ty span (cutClauses a clauses) := by
  rw [cutClauses_eq clauses []]
  simp only [emptyHandle, cutParts, form, Form.children, Option.toList_none, map_cons,
    map_append, map_nil]
  rfl

theorem AllIn.handleBody (h : (node id (.handle body clauses finalizer) ty span).AllIn
      UsesVisible P) :
    body.AllIn UsesVisible P :=
  (allIn_iff.mp h).2 ({}, body) mem_cons_self

theorem AllIn.emptyHandle (h : (node id (.handle body clauses finalizer) ty span).AllIn
      UsesVisible P) :
    (emptyHandle id ty span clauses).AllIn UsesVisible P := by
  rw [allIn_iff] at h ⊢
  refine ⟨placeRule_usesVisible.plain rfl rfl rfl, fun part hpart => ?_⟩
  obtain rfl | hpart := mem_cons.mp hpart
  · rw [allIn_iff]
    exact ⟨placeRule_usesVisible.plain rfl rfl rfl, fun part hpart => by cases hpart⟩
  · obtain hpart | hpart := mem_append.mp hpart
    · exact h.2 part (mem_cons_of_mem _ (mem_append_left _ hpart))
    · cases hpart

/-- Its nodes are the handler, the hole and the nodes of the clauses. -/
theorem mem_walk_emptyHandle {x : Expr} (h : x ∈ (emptyHandle id ty span clauses).walk) :
    x = emptyHandle id ty span clauses ∨ x = unitAt id span ∨ ∃ c ∈ clauses.map Clause.body, x ∈
      c.walk := by
  rw [walk_eq] at h
  obtain rfl | h := mem_cons.mp h
  · exact .inl rfl
  · obtain ⟨c, hc, hx⟩ := mem_flatMap.mp h
    obtain rfl | hc := mem_cons.mp hc
    · exact .inr (.inl (mem_singleton.mp hx))
    · rw [Option.toList_none, append_nil] at hc
      exact .inr (.inr ⟨c, hc, hx⟩)

theorem binders_emptyHandle_subset :
    (emptyHandle id ty span clauses).binders ⊆
      (node id (.handle body clauses finalizer) ty span).binders := by
  intro l hl
  rw [binders_eq]
  obtain ⟨x, hx, hl⟩ := mem_flatMap.mp hl
  obtain rfl | rfl | ⟨c, hc, hx⟩ := mem_walk_emptyHandle hx
  · exact mem_append_left _ hl
  · cases hl
  · refine mem_append_right _ (mem_flatMap.mpr ⟨c, ?_, mem_flatMap.mpr ⟨x, hx, hl⟩⟩)
    exact mem_cons_of_mem _ (mem_append_left _ hc)

end Expr

/-! ### Units are closed -/

namespace LoweringUnit

variable {f : FnDecl} {a : EffectAnalysis} {source : Expr} {P : Place}

/-- What is left of a handler stands at a place of the unit.  A drive unit stands for its handler
and does not hold it. -/
def Holds (u : LoweringUnit) (id : ExprId) (P : Place) : Prop :=
  u.kind ≠ .drive id ∧ ∃ x, (P, x) ∈ u.body.walkIn ⟨u.params, false⟩ ∧
    x.form.isHandle = true ∧ x.id = id

/-- The unit is what cutting leaves of an expression of the function that needs only the parameters
of the unit. -/
structure CutFrom (u : LoweringUnit) (f : FnDecl) (a : EffectAnalysis) (source : Expr) : Prop where
  body : u.body = source.cut a ∨ u.body = source.cutParts a
  uses : source.AllIn UsesVisible ⟨u.params, false⟩
  handlers : ∀ x ∈ source.walk, x.form.isHandle = true → u.kind ≠ .drive x.id → x ∈ f.body.walk

/-- Each unit is cut from a part of its function. -/
theorem Origin.cutFrom (h : u.Origin f a) (hf : f.IsLexical) : ∃ source, u.CutFrom f a source := by
  obtain ⟨-, hbinders, hparams⟩ := nodup_append.mp hf.binders
  have happart (Q : Place) (x : Expr) (hQ : (Q, x) ∈ f.body.walkIn ⟨f.params, false⟩) :
      List.Disjoint Q.visible x.binders :=
    Expr.disjoint_visible_binders (P := ⟨f.params, false⟩) (fun l hl hl' => hparams l hl l hl' rfl)
    hbinders hQ
  cases h with
  | function => exact ⟨f.body, .inl rfl, hf.uses, fun x hx _ _ => hx⟩
  | @body id body clauses finalizer ty span n mem =>
    obtain ⟨Q, hQ⟩ := Expr.exists_mem_walkIn mem ⟨f.params, false⟩
    have hchild : body ∈ (Form.handle body clauses finalizer).children := mem_cons_self
    refine ⟨body, .inl rfl, (hf.uses.of_mem_walkIn hQ).handleBody.freeLocals fun l hl hl' => ?_,
      fun x hx _ _ => ?_⟩
    · exact happart _ _ hQ hl ((Expr.sublist_binders_of_mem_children hchild).subset hl')
    · exact Expr.walk_subset_of_mem_walk mem (Expr.walk_subset_of_mem_children hchild hx)
  | @drive id body clauses finalizer ty span n mem =>
    obtain ⟨Q, hQ⟩ := Expr.exists_mem_walkIn mem ⟨f.params, false⟩
    -- the handler itself is not cut out of its drive unit, only what stands in the clauses is
    refine ⟨emptyHandle id ty span clauses, .inr Expr.cutParts_emptyHandle.symm,
      (hf.uses.of_mem_walkIn hQ).emptyHandle.freeLocals fun l hl hl' => ?_,
      fun x hx hhandle hkind => ?_⟩
    · exact happart _ _ hQ hl (Expr.binders_emptyHandle_subset hl')
    · obtain rfl | rfl | ⟨c, hc, hx⟩ := Expr.mem_walk_emptyHandle hx
      · exact absurd rfl hkind
      · cases hhandle
      · refine Expr.walk_subset_of_mem_walk mem (Expr.walk_subset_of_mem_children ?_ hx)
        exact mem_cons_of_mem _ (mem_append_left _ hc)

/-- **Units are closed**: what is used in a unit is visible there, if the parameters are. -/
theorem CutFrom.closed (h : u.CutFrom f a source) : u.body.AllIn UsesVisible ⟨u.params, false⟩ := by
  obtain hbody | hbody := h.body
  · exact hbody ▸ placeRule_usesVisible.cut _ _ h.uses
  · exact hbody ▸ h.uses.cutParts placeRule_usesVisible

/-- A handler that the unit holds stands at the same place in the code that the unit was cut
from. -/
theorem CutFrom.exists_of_holds (h : u.CutFrom f a source) (hu : u.Holds id P) :
    ∃ x ∈ f.body.walk, x.form.isHandle = true ∧ x.id = id ∧ x.AllIn UsesVisible P := by
  obtain ⟨hkind, y, hy, hhandle, rfl⟩ := hu
  have hkept : Expr.KeepsHandlers source u.body := by
    obtain hbody | hbody := h.body
    · exact hbody ▸ Expr.keepsHandlers_cut source
    · exact hbody ▸ Expr.keepsHandlers_cutParts source
  obtain ⟨x, hx, hform, hid⟩ := hkept _ _ hy hhandle
  refine ⟨x, h.handlers x (Expr.mem_walk_of_mem_walkIn hx) hform (hid ▸ hkind), hform, hid, ?_⟩
  exact h.uses.of_mem_walkIn hx

end LoweringUnit

/-! ### Handlers and their ids -/

def Construct.isHandle : Construct → Bool
  | .handle _ => true
  | _ => false

theorem Form.isHandle_eq_construct? (form : Form) :
    form.isHandle = form.construct?.any Construct.isHandle := by
  cases form <;> rfl

namespace Expr

variable {e : Expr}

def handleIds (e : Expr) : List ExprId := (e.walk.filter (·.form.isHandle)).map Expr.id

theorem mem_handleIds : id ∈ e.handleIds ↔ ∃ x ∈ e.walk, x.form.isHandle = true ∧ x.id = id := by
  simp [handleIds, and_assoc]

theorem handleIds_eq (e : Expr) :
    e.handleIds = (if e.form.isHandle then [e.id] else []) ++
      e.form.children.flatMap handleIds := by
  have hparts : ((e.form.children.flatMap walk).filter (·.form.isHandle)).map Expr.id =
      e.form.children.flatMap handleIds := by
    rw [filter_flatMap, map_flatMap]
    rfl
  rw [handleIds, walk_eq, filter_cons, ← hparts]
  split <;> rfl

theorem handleIds_subset_of_mem_children (h : c ∈ e.form.children) : c.handleIds ⊆ e.handleIds := by
  rw [handleIds_eq e]
  exact List.Subset.trans (fun i hi => mem_flatMap.mpr ⟨c, h, hi⟩) (subset_append_right _ _)

theorem handleIds_eq_points (e : Expr) :
    e.handleIds = (e.points.filter (·.2.isHandle)).map (·.1) := by
  rw [points, labels, handleIds]
  induction e.walk with
  | nil => rfl
  | cons x xs ih =>
    rw [filter_cons, Form.isHandle_eq_construct?, map_cons]
    cases hform : x.form.construct? with
    | none => exact ih
    | some construct =>
      cases hconstruct : construct.isHandle with
      | false => simpa [hconstruct] using ih
      | true => simpa [hconstruct] using ih

/-- Normalization keeps the handlers. -/
theorem handleIds_normalize {a : EffectAnalysis} (e : Expr) (s : NormalState) :
    (e.normalize a s).1.handleIds.Perm e.handleIds := by
  rw [handleIds_eq_points, handleIds_eq_points]
  exact ((points_normalize e s).filter _).map _

end Expr

/-! ### Units have records -/

section Lift

variable {f : FnDecl} {a : EffectAnalysis}

/-- A record of the handler `id` sends the unit at a position its parameters. -/
def LiftedHandle.Calls (h : LiftedHandle) (id : ExprId) (position : Nat) (u : LoweringUnit) :
    Prop :=
  u.kind = .body id ∧ h.bodyUnit = position ∧ h.bodyArgs = u.params ∨
    u.kind = .drive id ∧ h.driveUnit = position ∧ h.driveArgs = u.params

/-- Units that are cut out have a record.  Without complaints nothing leaves them. -/
structure LiftedProgram.Records (first : Nat) (r : LiftedProgram) : Prop where
  record : ∀ position u, UnitAt first r.units position u → u.kind ≠ .function →
    ∃ x ∈ r.lifted, x.2.Calls x.1 position u
  confined : r.diagnostics = [] → ∀ u ∈ r.units, u.kind ≠ .function → u.body.strays
    ⟨u.params, u.isDrive⟩ false = []

/-- Units of two lists stand one list behind the other. -/
theorem unitAt_append {position : Nat} {us vs : List LoweringUnit} :
    UnitAt first (us ++ vs) position u ↔ UnitAt first us position u ∨
      UnitAt (first + us.length) vs position u := by
  refine ⟨fun h => ?_, fun h => h.elim UnitAt.append_left UnitAt.append_right⟩
  obtain ⟨i, hi, hu⟩ := h
  rw [getElem?_append] at hu
  split at hu
  · exact .inl ⟨i, hi, hu⟩
  · exact .inr ⟨i - us.length, by omega, hu⟩

theorem unitAt_cons {position : Nat} {v : LoweringUnit} {us : List LoweringUnit} :
    UnitAt first (v :: us) position u ↔ position = first ∧ u = v ∨
      UnitAt (first + 1) us position u := by
  have hone : UnitAt first [v] position u ↔ position = first ∧ u = v := by
    constructor
    · rintro ⟨i, hi, hu⟩
      cases i with
      | zero => exact ⟨hi, (Option.some.inj hu).symm⟩
      | succ i => cases hu
    · rintro ⟨rfl, rfl⟩
      exact ⟨0, rfl, rfl⟩
  rw [← singleton_append, unitAt_append, hone]
  rfl

namespace LiftedProgram.Records

variable {r r' : LiftedProgram}

theorem empty : Records first {} := by
  refine ⟨fun position u hu => ?_, fun _ u hu => by cases hu⟩
  obtain ⟨i, -, hu⟩ := hu
  cases hu

theorem append (h : Records first r) (h' : Records (first + r.units.length) r') :
    Records first (r ++ r') := by
  refine ⟨fun position u hu hkind => ?_, fun hnone u hu hkind => ?_⟩
  · obtain hu | hu := unitAt_append.mp hu
    · obtain ⟨x, hx, hcalls⟩ := h.record position u hu hkind
      exact ⟨x, mem_append_left _ hx, hcalls⟩
    · obtain ⟨x, hx, hcalls⟩ := h'.record position u hu hkind
      exact ⟨x, mem_append_right _ hx, hcalls⟩
  · obtain ⟨hr, hr'⟩ := append_eq_nil_iff.mp hnone
    obtain hu | hu := mem_append.mp hu
    · exact h.confined hr u hu hkind
    · exact h'.confined hr' u hu hkind

end LiftedProgram.Records

theorem regionProblems_eq_nil {r : RegionRules} {region : Expr} :
    regionProblems f r region = [] ↔ region.strays r false = [] := map_eq_nil_iff

theorem straysClauses_eq (r : RegionRules) (inLoop : Bool) (clauses : List Clause) :
    straysClauses r inLoop clauses = clauses.flatMap fun c => c.body.strays r inLoop := by
  induction clauses with
  | nil => rfl
  | cons clause clauses ih =>
    obtain ⟨head, body⟩ := clause
    rw [straysClauses, ih]
    rfl

/-- Only clauses leave a handler with nothing to guard. -/
theorem strays_emptyHandle {r : RegionRules} :
    (emptyHandle id ty span clauses).strays r false =
      clauses.flatMap fun c => c.body.strays r false := by
  rw [← straysClauses_eq]
  exact append_nil _

/-- What is found at a handler that is cut out. -/
theorem records_liftedHandle {body : Expr} {r r' : LiftedProgram} (h : r.Records (first + 1))
    (h' : r'.Records (first + 1 + r.units.length + 1)) :
    (liftedHandle f a n first (first + 1 + r.units.length) id ty span body clauses r r').Records
      first := by
  refine ⟨fun position u hu hkind => ?_, fun hnone u hu hkind => ?_⟩
  · -- the body unit, the units inside the body, the drive unit and the units inside the clauses
    rw [liftedHandle, cons_append, unitAt_cons, unitAt_append, unitAt_cons] at hu
    obtain ⟨rfl, rfl⟩ | hu | ⟨rfl, rfl⟩ | hu := hu
    · exact ⟨_, mem_append_right _ mem_cons_self, .inl ⟨rfl, rfl, rfl⟩⟩
    · obtain ⟨x, hx, hcalls⟩ := h.record position u hu hkind
      exact ⟨x, mem_append_left _ (mem_append_left _ hx), hcalls⟩
    · exact ⟨_, mem_append_right _ mem_cons_self, .inr ⟨rfl, rfl, rfl⟩⟩
    · obtain ⟨x, hx, hcalls⟩ := h'.record position u hu hkind
      exact ⟨x, mem_append_left _ (mem_append_right _ hx), hcalls⟩
  · simp only [liftedHandle, append_eq_nil_iff, flatMap_eq_nil_iff, regionProblems_eq_nil] at hnone
    obtain ⟨⟨⟨hr, hbody⟩, hr'⟩, hclauses⟩ := hnone
    simp only [liftedHandle, cons_append, mem_cons, mem_append] at hu
    obtain rfl | hu | rfl | hu := hu
    · exact hbody
    · exact h.confined hr u hu hkind
    · exact strays_emptyHandle.trans (flatMap_eq_nil_iff.mpr hclauses)
    · exact h'.confined hr' u hu hkind

/-- **Lifting records what it cuts out.** -/
theorem Expr.records_lift (e : Expr) (s : LiftState) : (e.lift f a s).1.Records s.nextUnit := by
  refine (Expr.lift_induction (f := f) (a := a)
    (M := fun _ s r s' => s'.nextUnit = s.nextUnit + r.units.length ∧ r.Records s.nextUnit) ?_ ?_
    ?_ ?_ e s).2
  · exact fun s => ⟨rfl, .empty⟩
  · rintro e es s r s₁ r' s' ⟨hcount, h⟩ ⟨hcount', h'⟩
    refine ⟨?_, h.append (hcount ▸ h')⟩
    rw [hcount', hcount, LiftedProgram.units_append, length_append, Nat.add_assoc]
  · exact fun _ h => h
  · rintro id body clauses finalizer ty span s r s₁ r' s' - ⟨hcount, h⟩ ⟨hcount', h'⟩
    simp only at hcount hcount' h h'
    rw [hcount] at h' ⊢
    refine ⟨?_, records_liftedHandle h h'⟩
    simp only [liftedHandle, length_append, length_cons]
    omega

/-! ### Records belong to handlers -/

/-- The record of a handler among the nodes of expressions: it passes the free locals of the body
and of the clauses. -/
def LiftedHandle.Of (h : LiftedHandle) (id : ExprId) (nodes : List Expr) : Prop :=
  ∃ body clauses finalizer ty span, .node id (.handle body clauses finalizer) ty span ∈ nodes ∧
    h.bodyArgs = body.freeLocals ∧ h.driveArgs = (emptyHandle id ty span clauses).freeLocals

theorem LiftedHandle.Of.mono {nodes nodes' : List Expr} (hh : h.Of id nodes)
    (hsub : nodes ⊆ nodes') :
    h.Of id nodes' := by
  obtain ⟨body, clauses, finalizer, ty, span, hmem, hargs⟩ := hh
  exact ⟨body, clauses, finalizer, ty, span, hsub hmem, hargs⟩

/-- The records that lifting makes of the handlers in expressions. -/
structure LiftedProgram.Finds (a : EffectAnalysis) (es : List Expr) (r : LiftedProgram) : Prop where
  source : ∀ x ∈ r.lifted, x.2.Of x.1 (es.flatMap Expr.walk)
  /-- There is at most one for each. -/
  count : ∀ id, (r.lifted.map (·.1)).count id ≤ (es.flatMap Expr.handleIds).count id
  /-- What is left of the handler stands in what is left of the expressions or in a unit. -/
  stands : (es.flatMap Expr.handleIds).Nodup → ∀ x ∈ r.lifted,
    (∃ e ∈ es, x.1 ∈ (e.cut a).handleIds) ∨ ∃ u ∈ r.units, u.kind ≠ .drive x.1 ∧
    x.1 ∈ u.body.handleIds

namespace LiftedProgram.Finds

variable {es es' : List Expr} {r r' : LiftedProgram}

theorem empty : Finds a [] {} := ⟨by simp, by simp, by simp⟩

theorem append (h : r.Finds a es) (h' : r'.Finds a es') : (r ++ r').Finds a (es ++ es') := by
  refine ⟨fun x hx => ?_, fun id => ?_, fun hnodup x hx => ?_⟩
  · rw [flatMap_append]
    obtain hx | hx := mem_append.mp hx
    · exact (h.source x hx).mono (subset_append_left _ _)
    · exact (h'.source x hx).mono (subset_append_right _ _)
  · rw [LiftedProgram.lifted_append, map_append, flatMap_append, count_append, count_append]
    exact Nat.add_le_add (h.count id) (h'.count id)
  · rw [flatMap_append, nodup_append] at hnodup
    obtain hx | hx := mem_append.mp hx
    · obtain ⟨e, he, hid⟩ | ⟨u, hu, hheld⟩ := h.stands hnodup.1 x hx
      · exact .inl ⟨e, mem_append_left _ he, hid⟩
      · exact .inr ⟨u, mem_append_left _ hu, hheld⟩
    · obtain ⟨e, he, hid⟩ | ⟨u, hu, hheld⟩ := h'.stands hnodup.2.1 x hx
      · exact .inl ⟨e, mem_append_right _ he, hid⟩
      · exact .inr ⟨u, mem_append_right _ hu, hheld⟩

theorem stays {e : Expr} (hstays : e.form.isHandle = false ∨ a.isLifted e.id = false)
    (h : r.Finds a e.form.children) :
    r.Finds a [e] := by
  refine ⟨fun x hx => (h.source x hx).mono ?_, fun id => ?_, fun hnodup x hx => ?_⟩
  · rw [flatMap_singleton, Expr.walk_eq]
    exact subset_cons_self _ _
  · rw [flatMap_singleton, Expr.handleIds_eq, count_append]
    exact Nat.le_trans (h.count id) (Nat.le_add_left _ _)
  · rw [flatMap_singleton, Expr.handleIds_eq, nodup_append] at hnodup
    obtain ⟨c, hc, hid⟩ | hu := h.stands hnodup.2.1 x hx
    · refine .inl ⟨e, mem_singleton_self e, Expr.handleIds_subset_of_mem_children
        (c := c.cut a) ?_ hid⟩
      rw [Expr.cut_eq hstays, Expr.form, (Form.resembles_withChildren (length_map _)).children]
      exact mem_map_of_mem hc
    · exact .inr hu

end LiftedProgram.Finds

/-- What is left of the clauses stands in the drive unit. -/
theorem mem_handleIds_driveUnit {i : ExprId} (hc : c ∈ clauses.map Clause.body)
    (hi : i ∈ (c.cut a).handleIds) :
    i ∈ (driveUnit f a n id ty span clauses).body.handleIds := by
  refine Expr.handleIds_subset_of_mem_children (c := c.cut a) ?_ hi
  refine mem_cons_of_mem _ (mem_append_left _ ?_)
  rw [map_body_cutClauses]
  exact mem_map_of_mem hc

theorem finds_liftedHandle {bodyAt driveAt : Nat} {body : Expr} {finalizer : Option Expr}
    {r r' : LiftedProgram} (hid : a.isLifted id = true) (h : r.Finds a [body])
    (h' : r'.Finds a (clauses.map Clause.body)) :
    (liftedHandle f a n bodyAt driveAt id ty span body clauses r r').Finds a
      [.node id (.handle body clauses finalizer) ty span] := by
  have hwalk : (Expr.node id (.handle body clauses finalizer) ty span).walk =
      .node id (.handle body clauses finalizer) ty span ::
        ([body].flatMap Expr.walk ++
          ((clauses.map Clause.body).flatMap Expr.walk ++ finalizer.toList.flatMap Expr.walk)) := by
    rw [Expr.walk_eq]
    simp [Form.children]
  have hids : (Expr.node id (.handle body clauses finalizer) ty span).handleIds =
      id :: ([body].flatMap Expr.handleIds ++
        ((clauses.map Clause.body).flatMap Expr.handleIds ++ finalizer.toList.flatMap
        Expr.handleIds)) := by
    rw [Expr.handleIds_eq]
    simp [Form.children, Form.isHandle, Expr.id]
  refine ⟨fun x hx => ?_, fun i => ?_, fun hnodup x hx => ?_⟩
  · rw [flatMap_singleton, hwalk]
    simp only [liftedHandle, mem_append, mem_singleton] at hx
    obtain (hx | hx) | rfl := hx
    · exact (h.source x hx).mono fun y hy => mem_cons_of_mem _ (mem_append_left _ hy)
    · exact (h'.source x hx).mono fun y hy =>
        mem_cons_of_mem _ (mem_append_right _ (mem_append_left _ hy))
    · exact ⟨body, clauses, finalizer, ty, span, mem_cons_self, rfl, rfl⟩
  · have hbody := h.count i
    have hclauses := h'.count i
    rw [flatMap_singleton, hids]
    simp only [liftedHandle, map_append, map_cons, map_nil, count_append, count_cons,
      count_nil]
    omega
  · rw [flatMap_singleton, hids, nodup_cons, nodup_append, nodup_append] at hnodup
    obtain ⟨hown, hbodyIds, ⟨hclauseIds, -, -⟩, -⟩ := hnodup
    simp only [liftedHandle, mem_append, mem_singleton] at hx
    obtain (hx | hx) | rfl := hx
    · -- what was left in the body is in the body unit now
      refine .inr ?_
      obtain ⟨e, he, hi⟩ | ⟨u, hu, hheld⟩ := h.stands hbodyIds x hx
      · obtain rfl := mem_singleton.mp he
        exact ⟨_, mem_cons_self, by simp [bodyUnit], hi⟩
      · exact ⟨u, mem_append_left _ (mem_cons_of_mem _ hu), hheld⟩
    · refine .inr ?_
      obtain ⟨c, hc, hi⟩ | ⟨u, hu, hheld⟩ := h'.stands hclauseIds x hx
      · refine ⟨_, mem_append_right _ mem_cons_self, fun hkind => hown ?_,
          mem_handleIds_driveUnit hc hi⟩
        -- the handler in the clause would have the id of the handler around it
        obtain rfl : id = x.1 := UnitKind.drive.inj hkind
        refine mem_append_right _ (mem_append_left _ ?_)
        have hfound : 0 < (r'.lifted.map (·.1)).count x.1 := count_pos_iff.mpr (mem_map_of_mem hx)
        exact count_pos_iff.mp (Nat.lt_of_lt_of_le hfound (h'.count x.1))
      · exact ⟨u, mem_append_right _ (mem_cons_of_mem _ hu), hheld⟩
    · refine .inl ⟨_, mem_singleton_self _, ?_⟩
      rw [Expr.cut_of_isLifted hid, Expr.handleIds_eq]
      exact mem_cons_self

/-- **Lifting records handlers that it cuts out.** -/
theorem Expr.finds_lift (e : Expr) (s : LiftState) : (e.lift f a s).1.Finds a [e] := by
  refine Expr.lift_induction (f := f) (a := a) (M := fun es _ r _ => r.Finds a es) ?_ ?_ ?_ ?_ e s
  · exact fun _ => .empty
  · exact fun h h' => h.append h'
  · exact fun hstays h => h.stays hstays
  · exact fun hid h h' => finds_liftedHandle hid h h'

/-! ### Functions -/

theorem FnDecl.records_lift (f : FnDecl) (position : Nat) :
    (f.lift a position).Records position := by
  have hbody := Expr.records_lift (f := f) (a := a) f.body ⟨0, position + 1⟩
  refine ⟨fun i u hu hkind => ?_, fun hnone u hu hkind => ?_⟩
  · obtain ⟨-, rfl⟩ | hu := unitAt_cons.mp hu
    · exact absurd rfl hkind
    · exact hbody.record i u hu hkind
  · obtain rfl | hu := mem_cons.mp hu
    · exact absurd rfl hkind
    · exact hbody.confined hnone u hu hkind

theorem records_liftFns (fs : List FnDecl) (position : Nat) :
    (liftFns a position fs).Records position := by
  induction fs generalizing position with
  | nil => exact .empty
  | cons f fs ih => exact (f.records_lift position).append (ih _)

theorem FnDecl.finds_lift (f : FnDecl) (position : Nat) : (f.lift a position).Finds a [f.body] := by
  have hbody := Expr.finds_lift (f := f) (a := a) f.body ⟨0, position + 1⟩
  refine ⟨hbody.source, hbody.count, fun hnodup x hx => ?_⟩
  obtain hleft | ⟨u, hu, hheld⟩ := hbody.stands hnodup x hx
  · exact .inl hleft
  · exact .inr ⟨u, mem_cons_of_mem _ hu, hheld⟩

theorem finds_liftFns (fs : List FnDecl) (position : Nat) :
    (liftFns a position fs).Finds a (fs.map (·.body)) := by
  induction fs generalizing position with
  | nil => exact .empty
  | cons f fs ih => exact (f.finds_lift position).append (ih _)

end Lift

/-! ### Confinement -/

def Form.isClosure : Form → Bool
  | .closure _ _ => true
  | _ => false

section Strays

variable {r : RegionRules} {inLoop : Bool}

/-- The places at which a region would be left in enclosed parts. -/
def straysEnclosed (r : RegionRules) (inLoop : Bool) (parts : List (Enclosure × Expr)) :
    List (Span × String) :=
  parts.flatMap fun part => part.2.strays r (part.1.loop.getD inLoop)

theorem straysAll_eq (es : List Expr) :
    straysAll r inLoop es = straysEnclosed r inLoop (es.map ({}, ·)) := by
  induction es with
  | nil => rfl
  | cons e es ih =>
    rw [straysAll, ih]
    rfl

theorem straysStmts_eq (ss : List Stmt) (binds : List LocalId) :
    straysStmts r inLoop ss = straysEnclosed r inLoop (enclosedStmts binds ss) := by
  induction ss generalizing binds with
  | nil => rfl
  | cons st ss ih =>
    match st with
    | .bind l none => exact ih (l :: binds)
    | .bind l (some e) =>
      rw [straysStmts, ih (l :: binds)]
      rfl
    | .expr e =>
      rw [straysStmts, ih binds]
      rfl

theorem straysArms_eq (arms : List Arm) :
    straysArms r inLoop arms = straysEnclosed r inLoop (arms.map Arm.enclosed) := by
  induction arms with
  | nil => rfl
  | cons arm arms ih =>
    obtain ⟨pattern, body⟩ := arm
    rw [straysArms, ih]
    rfl

/-- **The search for places at which a region is left** goes to all parts but the body of a
closure. -/
theorem Form.strays_eq {form : Form} (h : form.isClosure = false) :
    form.strays r inLoop = straysEnclosed r inLoop form.enclosed := by
  cases form with
  | closure => cases h
  | block stmts tail =>
    rw [enclosed, straysEnclosed, flatMap_append, ← straysEnclosed, ← straysStmts_eq]
    cases tail with
    | none => rfl
    | some e => exact congrArg _ (append_nil _).symm
  | select scrutinee arms =>
    rw [strays, straysArms_eq]
    rfl
  | handle body clauses finalizer =>
    cases finalizer <;> simp [strays, straysClauses_eq, enclosed, straysEnclosed, Clause.enclosed,
      flatMap_map]
  | branch cond onTrue onFalse =>
    cases onFalse <;> simp [strays, enclosed, children, straysEnclosed]
  | ret value => cases value <;> simp [strays, enclosed, children, straysEnclosed]
  | call callee args =>
    rw [strays, straysAll_eq]
    rfl
  | perform | tuple => exact straysAll_eq _
  | _ => simp [strays, enclosed, children, straysEnclosed]

/-- Without closures the search misses nothing. -/
theorem Expr.allIn_stray?_of_strays {e : Expr} {P : Place}
    (hclosure : ∀ x ∈ e.walk, x.form.isClosure = false) (h : e.strays r P.inLoop = []) :
    e.AllIn (fun Q form => form.stray? r Q.inLoop = none) P := by
  induction e using Expr.induction generalizing P with
  | step e ih =>
    rw [forall_walk_iff] at hclosure
    have hstrays : e.strays r P.inLoop =
        (e.form.stray? r P.inLoop).toList.map (e.span, ·) ++ e.form.strays r P.inLoop := by
      obtain ⟨id, form, ty, span⟩ := e
      rfl
    rw [hstrays, Form.strays_eq hclosure.1, append_eq_nil_iff, map_eq_nil_iff, straysEnclosed,
      flatMap_eq_nil_iff] at h
    rw [allIn_iff]
    refine ⟨Option.toList_eq_nil_iff.mp h.1, fun part hpart => ?_⟩
    have hmem := Form.mem_children_of_enclosed hpart
    exact ih part.2 hmem (hclosure.2 part.2 hmem) (h.2 part hpart)

end Strays

namespace LoweringUnit

/-- The unit uses only its parameters and what is declared in it, where that is visible. -/
structure IsClosed (u : LoweringUnit) : Prop where
  visible : u.body.AllIn UsesVisible ⟨u.params, false⟩
  bound : ∀ x ∈ u.body.walk, ∀ l ∈ x.form.usedLocals, l ∈ u.params ∨ l ∈ u.body.binders

/-- A unit that is cut out is closed over its parameters. -/
theorem CutFrom.isClosed {f : FnDecl} {a : EffectAnalysis} {source : Expr}
    (h : u.CutFrom f a source) : u.IsClosed := by
  refine ⟨h.closed, fun x hx l hl => ?_⟩
  obtain ⟨Q, hQ⟩ := Expr.exists_mem_walkIn hx ⟨u.params, false⟩
  exact Expr.visible_or_mem_binders hQ (h.closed _ hQ l hl)

/-- Nothing leaves the unit: what is cut out does not assign its parameters, a handled body does not
return, and loops are left from within. -/
structure IsConfined (u : LoweringUnit) : Prop where
  assigns : u.kind ≠ .function → ∀ x ∈ u.body.walk, ∀ target value, x.form = .assign target value →
    target ∉ u.params
  returns : ∀ id, u.kind = .body id → ∀ x ∈ u.body.walk, ∀ value, x.form ≠ .ret value
  exits : u.body.AllIn ExitsInLoop ⟨u.params, false⟩

/-- Without strays all exits stay in the unit. -/
theorem isConfined_of_strays (hclosure : ∀ x ∈ u.body.walk, x.form.isClosure = false)
    (h : u.body.strays ⟨u.params, u.isDrive⟩ false = []) : u.IsConfined := by
  have hall := Expr.allIn_stray?_of_strays (P := ⟨u.params, false⟩) hclosure h
  refine ⟨fun _ x hx target value hform hcaptured => ?_, fun id hkind x hx value hform => ?_,
    fun d hd hexit => ?_⟩
  · obtain ⟨Q, hQ⟩ := Expr.exists_mem_walkIn hx ⟨u.params, false⟩
    have hnone := hall _ hQ
    simp [hform, Form.stray?, hcaptured] at hnone
  · obtain ⟨Q, hQ⟩ := Expr.exists_mem_walkIn hx ⟨u.params, false⟩
    have hnone := hall _ hQ
    simp [hform, Form.stray?, isDrive, hkind] at hnone
  · have hnone := hall d hd
    obtain ⟨Q, id, form, ty, span⟩ := d
    cases form with
    | breakLoop | continueLoop => simpa [Form.stray?] using hnone
    | _ => cases hexit

end LoweringUnit

/-! ### Programs -/

namespace Program

variable {p p' : Program} {a : EffectAnalysis}

/-- Handlers have ids of their own. -/
def DistinctHandlers (p : Program) : Prop := (p.functions.flatMap (·.body.handleIds)).Nodup

instance (p : Program) : Decidable p.DistinctHandlers := inferInstanceAs (Decidable (List.Nodup _))

/-- Normalization keeps handler ids distinct. -/
theorem DistinctHandlers.normalize (hp : p.DistinctHandlers) (h : p.normalize? a = some p') :
    p'.DistinctHandlers := by
  have hfns := functions_of_normalize? h
  have hperm : (p'.functions.flatMap (·.body.handleIds)).Perm
      (p.functions.flatMap (·.body.handleIds)) := by
    generalize p.functions = fs, p'.functions = fs' at hfns
    induction hfns with
    | nil => exact .refl _
    | cons hf _ ih =>
      obtain ⟨s, -, rfl⟩ := hf
      exact (Expr.handleIds_normalize _ s).append ih
  exact hperm.nodup_iff.mpr hp

theorem DistinctHandlers.eq_of_id (hp : p.DistinctHandlers) {f g : FnDecl} (hf : f ∈ p.functions)
    (hg : g ∈ p.functions) {x y : Expr} (hx : x ∈ f.body.walk) (hy : y ∈ g.body.walk)
    (hxh : x.form.isHandle = true) (hyh : y.form.isHandle = true) (hid : x.id = y.id) : x = y := by
  have hids : p.functions.flatMap (·.body.handleIds) =
      ((p.functions.flatMap (·.body.walk)).filter (·.form.isHandle)).map Expr.id := by
    rw [filter_flatMap, map_flatMap]
    rfl
  rw [DistinctHandlers, hids] at hp
  refine inj_on_of_nodup_map hp (mem_filter.mpr ⟨?_, hxh⟩) (mem_filter.mpr ⟨?_, hyh⟩) hid
  · exact mem_flatMap.mpr ⟨f, hf, hx⟩
  · exact mem_flatMap.mpr ⟨g, hg, hy⟩

theorem mem_lifted_of_handle? (hh : (p.lift a).handle? id = some h) :
    (id, h) ∈ (liftFns a 0 p.functions).lifted := by
  obtain hh | ⟨b, hb, rfl, rfl⟩ :=
    Assoc.of_get?_foldl_set (fun b : ExprId × LiftedHandle => b.1) (·.2) hh
  · cases hh
  · exact hb

/-- If handlers have ids of their own, then no record is lost. -/
theorem DistinctHandlers.handle?_of_mem_lifted (hp : p.DistinctHandlers) {x : ExprId × LiftedHandle}
    (hx : x ∈ (liftFns a 0 p.functions).lifted) : (p.lift a).handle? x.1 = some x.2 := by
  have hkeys : ((liftFns a 0 p.functions).lifted.map (·.1)).Nodup := by
    rw [nodup_iff_count_le_one]
    intro id
    refine Nat.le_trans ((finds_liftFns p.functions 0).count id) (nodup_iff_count_le_one.mp ?_ id)
    rwa [flatMap_map]
  refine Assoc.get?_foldl_set (fun b : ExprId × LiftedHandle => b.1) (·.2) [] hx fun b hb hid => ?_
  rw [inj_on_of_nodup_map hkeys hb hx hid]

/-- The record of a handler passes what is visible where the handler stands. -/
theorem visible_of_holds (hp : ∀ f ∈ p.functions, f.IsLexical) (hids : p.DistinctHandlers)
    (hh : (p.lift a).handle? id = some h) (hu : u ∈ (p.lift a).units) {P : Place}
    (hholds : u.Holds id P) :
    ∀ l ∈ h.bodyArgs ++ h.driveArgs, l ∈ P.visible := by
  obtain ⟨f, hf, horigin⟩ := exists_origin hu
  obtain ⟨source, hsource⟩ := horigin.cutFrom (hp f hf)
  obtain ⟨x, hx, hxh, hid, huses⟩ := hsource.exists_of_holds hholds
  obtain ⟨body, clauses, finalizer, ty, span, hmem, hbody, hdrive⟩ :=
    (finds_liftFns p.functions 0).source _ (mem_lifted_of_handle? hh)
  obtain ⟨e, he, hmem⟩ := mem_flatMap.mp hmem
  obtain ⟨g, hg, rfl⟩ := mem_map.mp he
  -- the record was made for the very handler that stands here
  obtain rfl := hids.eq_of_id hf hg hx hmem hxh rfl hid
  intro l hl
  rw [hbody, hdrive] at hl
  obtain hl | hl := mem_append.mp hl
  · exact huses.handleBody.visible_of_mem_freeLocals hl
  · exact huses.emptyHandle.visible_of_mem_freeLocals hl

/-- What is left of a handler stands in a unit. -/
theorem DistinctHandlers.exists_holds (hids : p.DistinctHandlers)
    (hh : (p.lift a).handle? id = some h) :
    ∃ u ∈ (p.lift a).units, ∃ P, u.Holds id P := by
  have hstands : ∃ u ∈ (p.lift a).units, u.kind ≠ .drive id ∧ id ∈ u.body.handleIds := by
    have hnodup : ((p.functions.map (·.body)).flatMap Expr.handleIds).Nodup := by rwa [flatMap_map]
    obtain ⟨e, he, hid⟩ | hunit := (finds_liftFns (a := a) p.functions 0).stands hnodup _
      (mem_lifted_of_handle? hh)
    · -- what is left of a function is its own unit
      obtain ⟨f, hf, rfl⟩ := mem_map.mp he
      exact ⟨functionUnit f a, functionUnit_mem_lift hf, by simp [functionUnit], hid⟩
    · exact hunit
  obtain ⟨u, hu, hkind, hid⟩ := hstands
  obtain ⟨x, hx, hhandle, rfl⟩ := Expr.mem_handleIds.mp hid
  obtain ⟨P, hP⟩ := Expr.exists_mem_walkIn hx ⟨u.params, false⟩
  exact ⟨u, hu, P, hkind, x, hP, hhandle, rfl⟩

theorem isConfined_of_diagnostics (h : p.normalize? a = some p')
    (hnone : (p'.lift a).diagnostics = [])
    (hu : u ∈ (p'.lift a).units) (hclosure : ∀ x ∈ u.body.walk, x.form.isClosure = false)
    (hexits : u.kind = .function → ∀ f ∈ p.functions, f.id = u.owner → f.body.AllIn ExitsInLoop
      ⟨f.params, false⟩) :
    u.IsConfined := by
  by_cases hkind : u.kind = .function
  · -- nobody checks functions, but they have no more exits than before
    refine ⟨fun hcut => absurd hkind hcut,
      fun id hbody => UnitKind.noConfusion (hkind.symm.trans hbody), ?_⟩
    obtain ⟨f', hf', horigin⟩ := exists_origin hu
    obtain ⟨f, hf, s, -, rfl⟩ := exists_of_mem_normalize? h hf'
    cases horigin with
    | function => exact placeRule_exitsInLoop.cut _ _ (placeRule_exitsInLoop.normalize _ s _
        (hexits rfl f hf rfl))
    | body | drive => cases hkind
  · exact LoweringUnit.isConfined_of_strays hclosure
      ((records_liftFns p'.functions 0).confined hnone u hu hkind)

/-- **Units are closed and confined.** Let each local of each function have one binder, be used
where it is visible and be in the table of the function.  Then in the normal form:

* a unit uses only its parameters and what is declared in it;
* if handlers have ids of their own, then what is cut out has a record for its handler that sends it
  its parameters, and wherever the handler stands in a unit, all that the record passes is visible;
* if there are no complaints, then nothing leaves a unit without closures.  Whether the loops of a
  function itself are left from within is not checked. -/
theorem closed_and_confined_lift (hp : ∀ f ∈ p.functions, f.IsLexical)
    (h : p.normalize? a = some p') :
    (∀ u ∈ (p'.lift a).units, u.IsClosed) ∧
      (p.DistinctHandlers →
        (∀ position u, (p'.lift a).units[position]? = some u → u.kind ≠ .function →
          ∃ id record, (p'.lift a).handle? id = some record ∧ record.Calls id position u) ∧
        ∀ id record, (p'.lift a).handle? id = some record →
          (∃ u ∈ (p'.lift a).units, ∃ P, u.Holds id P) ∧
          ∀ u ∈ (p'.lift a).units, ∀ P, u.Holds id P → ∀ l ∈ record.bodyArgs ++ record.driveArgs,
            l ∈ P.visible) ∧
      ((p'.lift a).diagnostics = [] → ∀ u ∈ (p'.lift a).units,
        (∀ x ∈ u.body.walk, x.form.isClosure = false) →
        (u.kind = .function → ∀ f ∈ p.functions, f.id = u.owner → f.body.AllIn ExitsInLoop
          ⟨f.params, false⟩) → u.IsConfined) := by
  have hlexical : ∀ f ∈ p'.functions, f.IsLexical := by
    intro f' hf'
    obtain ⟨f, hf, s, hs, rfl⟩ := exists_of_mem_normalize? h hf'
    exact (hp f hf).normalize hs
  refine ⟨fun u hu => ?_,
    fun hids => ⟨fun position u hu hkind => ?_, fun id record hrecord => ⟨?_, ?_⟩⟩, ?_⟩
  · obtain ⟨f, hf, horigin⟩ := exists_origin hu
    obtain ⟨source, hsource⟩ := horigin.cutFrom (hlexical f hf)
    exact hsource.isClosed
  · have hat : UnitAt 0 (liftFns a 0 p'.functions).units position u :=
      ⟨position, (Nat.zero_add _).symm, hu⟩
    obtain ⟨x, hx, hcalls⟩ := (records_liftFns p'.functions 0).record position u hat hkind
    exact ⟨x.1, x.2, (hids.normalize h).handle?_of_mem_lifted hx, hcalls⟩
  · exact (hids.normalize h).exists_holds hrecord
  · exact fun u hu P hholds => visible_of_holds hlexical (hids.normalize h) hrecord hu hholds
  · exact fun hnone u hu hclosure hexits => isConfined_of_diagnostics h hnone hu hclosure hexits

/-- Handlers in the body and in the clause of a handler, which use the parameter `n` and the local
`x` in turn.  The inner body leaves a loop of its own, and its clause returns.  What the inner
handler gives becomes a temporary. -/
def nestedHandlers : Program where
  effects := [{ id := ⟨0⟩, name := "A", ops := [⟨"a", 0, [], .i32, .tail⟩] }]
  functions := [
    { id := ⟨1⟩, name := "main", params := [⟨0⟩], ret := .i32, exported := true
      locals := [⟨"n", .i32⟩, ⟨"k", .continuation .i32 .i32⟩, ⟨"k", .continuation .i32 .i32⟩,
        ⟨"k", .continuation .i32 .i32⟩, ⟨"x", .i32⟩]
      body := .i32 30 (.block [.bind ⟨4⟩ (some (.i32 31 (.var ⟨0⟩)))]
        (some (.i32 40 (.handle
          (.i32 41 (.binary .add
            (.i32 20 (.handle
              (.i32 21 (.block
              [.expr (.node ⟨22⟩ (.loop (.node ⟨23⟩ .breakLoop .unit {})) .unit {})]
                (some (.i32 24 (.binary .add (.i32 25 (.var ⟨4⟩))
                  (.i32 26 (.perform ⟨⟨0⟩, 0⟩ [] [])))))))
              [.mk ⟨⟨0⟩, "a", none, [], ⟨2⟩, {}⟩
              (.i32 27 (.ret (some (.i32 28 (.var ⟨0⟩)))))] none))
            (.i32 42 (.perform ⟨⟨0⟩, 0⟩ [] []))))
          [.mk ⟨⟨0⟩, "a", none, [], ⟨1⟩, {}⟩
          (.i32 43 (.call (.node ⟨44⟩ (.var ⟨1⟩) (.continuation .i32 .i32) {})
            [.i32 50 (.handle (.i32 51 (.binary .add (.i32 52 (.var ⟨0⟩))
                (.i32 53 (.perform ⟨⟨0⟩, 0⟩ [] []))))
              [.mk ⟨⟨0⟩, "a", none, [], ⟨3⟩, {}⟩ (.i32 54 (.call
                (.node ⟨55⟩ (.var ⟨3⟩) (.continuation .i32 .i32) {})
                [.i32 56 (.var ⟨4⟩)]))] none)]))] none)))) }]

/-- There are seven units and no complaints; each unit gets the locals that it uses. -/
theorem closed_and_confined_lift_nestedHandlers :
    (∀ f ∈ nestedHandlers.functions, f.IsLexical) ∧ nestedHandlers.DistinctHandlers ∧
      ∃ p', nestedHandlers.normalize? (nestedHandlers.analyze true) = some p' ∧
        (p'.lift (nestedHandlers.analyze true)).diagnostics = [] ∧
        (p'.lift (nestedHandlers.analyze true)).units.map (fun u => (u.kind, u.params)) =
          [(.function, [⟨0⟩]), (.body ⟨40⟩, [⟨0⟩, ⟨4⟩]), (.body ⟨20⟩, [⟨4⟩]), (.drive ⟨20⟩, [⟨0⟩]),
            (.drive ⟨40⟩, [⟨0⟩, ⟨4⟩]), (.body ⟨50⟩, [⟨0⟩]), (.drive ⟨50⟩, [⟨4⟩])] ∧
        (p'.lift (nestedHandlers.analyze true)).handle? ⟨20⟩ = some ⟨2, 3, [⟨4⟩], [⟨0⟩]⟩ ∧
        (∃ u ∈ (p'.lift (nestedHandlers.analyze true)).units, ∃ P, u.Holds ⟨20⟩ P ∧
          ⟨4⟩ ∈ P.visible ∧ ⟨0⟩ ∈ P.visible) ∧
        ∀ u ∈ (p'.lift (nestedHandlers.analyze true)).units, u.IsClosed ∧ u.IsConfined := by
  have hlexical : ∀ f ∈ nestedHandlers.functions, f.IsLexical := by decide +kernel
  have hids : nestedHandlers.DistinctHandlers := by decide +kernel
  have hexits : ∀ f ∈ nestedHandlers.functions, f.body.AllIn ExitsInLoop ⟨f.params, false⟩ := by
    decide +kernel
  have hlift : (nestedHandlers.normalize? (nestedHandlers.analyze true)).any (fun p' =>
      let found := p'.lift (nestedHandlers.analyze true)
      found.diagnostics.isEmpty ∧
        found.units.map (fun u => (u.kind, u.params)) =
          [(.function, [⟨0⟩]), (.body ⟨40⟩, [⟨0⟩, ⟨4⟩]), (.body ⟨20⟩, [⟨4⟩]), (.drive ⟨20⟩, [⟨0⟩]),
            (.drive ⟨40⟩, [⟨0⟩, ⟨4⟩]), (.body ⟨50⟩, [⟨0⟩]), (.drive ⟨50⟩, [⟨4⟩])] ∧
        found.handle? ⟨20⟩ = some ⟨2, 3, [⟨4⟩], [⟨0⟩]⟩ ∧
        ∀ u ∈ found.units, ∀ x ∈ u.body.walk, x.form.isClosure = false) = true := by decide +kernel
  obtain ⟨p', hp', hlift⟩ := (Option.any_eq_true _ _).mp hlift
  obtain ⟨hnone, hunits, hrecord, hclosure⟩ := of_decide_eq_true hlift
  replace hnone := List.isEmpty_iff.mp hnone
  obtain ⟨hclosed, hrecords, hconfined⟩ := closed_and_confined_lift hlexical hp'
  obtain ⟨⟨u, hu, P, hholds⟩, hvisible⟩ := (hrecords hids).2 ⟨20⟩ _ hrecord
  have hargs := hvisible u hu P hholds
  refine ⟨hlexical, hids, p', hp', hnone, hunits, hrecord, ⟨u, hu, P, hholds, ?_, ?_⟩,
    fun u hu => ⟨hclosed u hu, ?_⟩⟩
  · exact hargs ⟨4⟩ (by simp)
  · exact hargs ⟨0⟩ (by simp)
  · exact hconfined hnone u hu (hclosure u hu) fun _ f hf _ => hexits f hf

/-- The local 2 is not in the table of the function.  So the next temporary is the same local; it is
declared in the inner handler and cut out with it. -/
def shortTable : Program where
  effects := [{ id := ⟨0⟩, name := "A", ops := [⟨"a", 0, [], .i32, .tail⟩] }]
  functions := [
    { id := ⟨1⟩, name := "main", params := [], ret := .i32, exported := true
      locals := [⟨"k0", .continuation .i32 .i32⟩, ⟨"k1", .continuation .i32 .i32⟩]
      body := .i32 30 (.block [.bind ⟨2⟩ (some (.i32 31 (.literal (.int 5))))]
        (some (.i32 20 (.handle
          (.i32 21 (.block
            [.expr (.i32 10 (.handle (.i32 11 (.binary .add (.i32 12 (.var ⟨2⟩))
                (.i32 13 (.perform ⟨⟨0⟩, 0⟩ [] []))))
              [.mk ⟨⟨0⟩, "a", none, [], ⟨1⟩, {}⟩ (.i32 14 (.call
                (.node ⟨15⟩ (.var ⟨1⟩) (.continuation .i32 .i32) {})
                [.i32 16 (.literal (.int 1))]))] none))]
            (some (.i32 22 (.binary .add (.i32 23 (.var ⟨2⟩))
              (.i32 24 (.perform ⟨⟨0⟩, 0⟩ [] [])))))))
          [.mk ⟨⟨0⟩, "a", none, [], ⟨0⟩, {}⟩
          (.i32 25 (.call (.node ⟨26⟩ (.var ⟨0⟩) (.continuation .i32 .i32) {})
            [.i32 27 (.literal (.int 1))]))] none)))) }]

/-- A function that leaves a loop in which it does not stand. -/
def strayBreak : Program where
  effects := []
  functions := [{
    id := ⟨1⟩, name := "main", params := [], ret := .i32, locals := [], exported := true
    body := .i32 1 .breakLoop }]

/-- What fails without the further conditions: with one id for two handlers a unit takes other
locals than its handler passes; with a local outside the table a unit reads a local that it neither
takes nor declares; and the exits of a function itself are not complained about. -/
theorem not_closed_and_confined_lift :
    ((∀ f ∈ (twoHandlers ⟨7⟩).functions, f.IsLexical) ∧
      ∃ p', (twoHandlers ⟨7⟩).normalize? ((twoHandlers ⟨7⟩).analyze true) = some p' ∧
        ∃ u ∈ (p'.lift ((twoHandlers ⟨7⟩).analyze true)).units, u.kind = .body ⟨7⟩ ∧ u.params = [] ∧
          ((p'.lift ((twoHandlers ⟨7⟩).analyze true)).handle? ⟨7⟩).map (·.bodyArgs) = some [⟨2⟩]) ∧
    ((∀ f ∈ shortTable.functions, (f.params ++ f.body.binders).Nodup ∧ f.body.AllIn UsesVisible
      ⟨f.params, false⟩) ∧
      shortTable.DistinctHandlers ∧
      ∃ p', shortTable.normalize? (shortTable.analyze true) = some p' ∧
        ∃ u ∈ (p'.lift (shortTable.analyze true)).units, ∃ x ∈ u.body.walk, ∃ l ∈ x.form.usedLocals,
          l ∉ u.params ∧ l ∉ u.body.binders) ∧
    ((∀ f ∈ strayBreak.functions, f.IsLexical) ∧
      ∃ p', strayBreak.normalize? (strayBreak.analyze true) = some p' ∧
        (p'.lift (strayBreak.analyze true)).diagnostics = [] ∧
        ∃ u ∈ (p'.lift (strayBreak.analyze true)).units,
          (∀ x ∈ u.body.walk, x.form.isClosure = false) ∧
          ¬u.body.AllIn ExitsInLoop ⟨u.params, false⟩) := by
  refine ⟨⟨by decide +kernel, ?_⟩, ⟨by decide +kernel, by decide +kernel, ?_⟩,
    ⟨by decide +kernel, ?_⟩⟩
  · have hlift : ((twoHandlers ⟨7⟩).normalize? ((twoHandlers ⟨7⟩).analyze true)).any (fun p' =>
        let found := p'.lift ((twoHandlers ⟨7⟩).analyze true)
        ∃ u ∈ found.units, u.kind = .body ⟨7⟩ ∧ u.params = [] ∧ (found.handle? ⟨7⟩).map
          (·.bodyArgs) = some [⟨2⟩]) =
        true := by decide +kernel
    obtain ⟨p', hp', hlift⟩ := (Option.any_eq_true _ _).mp hlift
    exact ⟨p', hp', of_decide_eq_true hlift⟩
  · have hlift : (shortTable.normalize? (shortTable.analyze true)).any (fun p' =>
        ∃ u ∈ (p'.lift (shortTable.analyze true)).units, ∃ x ∈ u.body.walk, ∃ l ∈ x.form.usedLocals,
          l ∉ u.params ∧ l ∉ u.body.binders) = true := by decide +kernel
    obtain ⟨p', hp', hlift⟩ := (Option.any_eq_true _ _).mp hlift
    exact ⟨p', hp', of_decide_eq_true hlift⟩
  · have hlift : (strayBreak.normalize? (strayBreak.analyze true)).any (fun p' =>
        (p'.lift (strayBreak.analyze true)).diagnostics.isEmpty ∧
          ∃ u ∈ (p'.lift (strayBreak.analyze true)).units,
            (∀ x ∈ u.body.walk, x.form.isClosure = false) ∧
            ¬u.body.AllIn ExitsInLoop ⟨u.params, false⟩) = true := by decide +kernel
    obtain ⟨p', hp', hlift⟩ := (Option.any_eq_true _ _).mp hlift
    obtain ⟨hnone, hunit⟩ := of_decide_eq_true hlift
    exact ⟨p', hp', List.isEmpty_iff.mp hnone, hunit⟩

end Program

end Effectful
