import Effectful.Emission.Context
import Effectful.Proofs.LiveLocals
import Effectful.Proofs.Lifting
/-!
# Sites and their environments

The sites of a program are numbered in order, so a number belongs to one site
(`Program.id_siteTable`), and the sites that the table lists for a unit are those of the unit
(`Program.unitSites_siteTable`).  The locals that a site saves are locals of the unit's function
(`LoweringUnit.captures_sites`).
-/

namespace Effectful

open List

variable {position first i : Nat} {s : EffectSite} {S : LocalId → Prop}

/-! ### Numbers -/

section Table

variable {p : Program} {a : EffectAnalysis} {m : EffectMetadata} {units : LiftedProgram}

def LoweringUnit.ownSites (u : LoweringUnit) (p : Program) (a : EffectAnalysis) (m : EffectMetadata)
    (units : LiftedProgram) (position first : Nat) : List EffectSite :=
  match u.effectful, p.function? u.owner with
  | true, some f => u.sites f a m units position first
  | _, _ => []

theorem siteTableFrom_cons (u : LoweringUnit) (us : List LoweringUnit) (position first : Nat) :
    (siteTableFrom p a m units position first (u :: us)).sites =
        u.ownSites p a m units position first ++
          (siteTableFrom p a m units (position + 1)
            (first + (u.ownSites p a m units position first).length) us).sites ∧
      (siteTableFrom p a m units position first (u :: us)).layouts =
        ⟨position, u.name, (u.ownSites p a m units position first).map (·.id)⟩ ::
          (siteTableFrom p a m units (position + 1)
            (first + (u.ownSites p a m units position first).length) us).layouts :=
  ⟨rfl, rfl⟩

theorem LoweringUnit.getElem?_sites (u : LoweringUnit) (f : FnDecl)
    (h : (u.sites f a m units position first)[i]? = some s) :
    s.id = first + i ∧ s.unit = position := by
  rw [sites, getElem?_map, Option.map_eq_some_iff] at h
  obtain ⟨⟨d, j⟩, hd, rfl⟩ := h
  rw [getElem?_zipIdx, Option.map_eq_some_iff] at hd
  obtain ⟨d', -, hd⟩ := hd
  obtain ⟨-, rfl⟩ := Prod.mk.inj hd
  exact ⟨by simp, rfl⟩

theorem LoweringUnit.getElem?_ownSites (u : LoweringUnit)
    (h : (u.ownSites p a m units position first)[i]? = some s) :
    s.id = first + i ∧ s.unit = position := by
  unfold ownSites at h
  split at h
  · exact u.getElem?_sites _ h
  · simp at h

theorem LoweringUnit.unit_of_mem_ownSites (u : LoweringUnit)
    (h : s ∈ u.ownSites p a m units position first) :
    s.unit = position := by
  obtain ⟨i, hi⟩ := getElem?_of_mem h
  exact (u.getElem?_ownSites hi).2

/-- Sites are numbered in order. -/
theorem id_siteTableFrom (us : List LoweringUnit)
    (h : (siteTableFrom p a m units position first us).sites[i]? = some s) :
    s.id = first + i := by
  induction us generalizing position first i with
  | nil => simp [siteTableFrom] at h
  | cons u us ih =>
    rw [(siteTableFrom_cons u us position first).1, getElem?_append] at h
    split at h
    · exact (u.getElem?_ownSites h).1
    · rw [ih h]
      omega

theorem unit_siteTableFrom (us : List LoweringUnit)
    (h : s ∈ (siteTableFrom p a m units position first us).sites) :
    position ≤ s.unit ∧ s.unit < position + us.length := by
  induction us generalizing position first with
  | nil => simp [siteTableFrom] at h
  | cons u us ih =>
    rw [(siteTableFrom_cons u us position first).1, mem_append] at h
    rw [length_cons]
    obtain h | h := h
    · have := u.unit_of_mem_ownSites h
      omega
    · have := ih h
      omega

/-- The sites that the table has for a unit, and the numbers in the layout of the unit. -/
theorem unitSites_siteTableFrom {us : List LoweringUnit} (position first : Nat) {u : LoweringUnit}
    (h : us[i]? = some u) : ∃ k,
      (siteTableFrom p a m units position first us).unitSites (position + i) =
      u.ownSites p a m units (position + i) k ∧
      (siteTableFrom p a m units position first us).layouts[i]? =
        some ⟨position + i, u.name, (u.ownSites p a m units (position + i) k).map (·.id)⟩ := by
  induction us generalizing position first i with
  | nil => simp at h
  | cons v us ih =>
    rw [SiteTable.unitSites, (siteTableFrom_cons v us position first).1,
      (siteTableFrom_cons v us position first).2, filter_append]
    cases i with
    | zero =>
      obtain rfl : v = u := by simpa using h
      refine ⟨first, ?_, by simp⟩
      rw [filter_eq_self.mpr, filter_eq_nil_iff.mpr, append_nil]
      · rfl
      · intro s hs
        have := unit_siteTableFrom us hs
        simp
        omega
      · intro s hs
        simp [v.unit_of_mem_ownSites hs]
    | succ i =>
      obtain ⟨k, hk, hlayout⟩ :=
        ih (position + 1) (first + (v.ownSites p a m units position first).length) h
      have hposition : position + (i + 1) = position + 1 + i := by omega
      rw [hposition]
      refine ⟨k, ?_, hlayout⟩
      rw [filter_eq_nil_iff.mpr, nil_append]
      · exact hk
      · intro s hs
        have := v.unit_of_mem_ownSites hs
        simp
        omega

theorem length_layouts_siteTableFrom (us : List LoweringUnit) (position first : Nat) :
    (siteTableFrom p a m units position first us).layouts.length = us.length := by
  induction us generalizing position first with
  | nil => rfl
  | cons u us ih => rw [(siteTableFrom_cons u us position first).2, length_cons, length_cons, ih]

/-- **The position of a site is its number.** -/
theorem Program.id_siteTable (h : (p.siteTable a m units).sites[i]? = some s) : s.id = i := by
  rw [id_siteTableFrom units.units h, Nat.zero_add]

/-- A number belongs to one site. -/
theorem Program.eq_of_id_siteTable {s' : EffectSite} (h : s ∈ (p.siteTable a m units).sites)
    (h' : s' ∈ (p.siteTable a m units).sites) (hid : s.id = s'.id) : s = s' := by
  obtain ⟨i, hi⟩ := getElem?_of_mem h
  obtain ⟨j, hj⟩ := getElem?_of_mem h'
  rw [id_siteTable hi, id_siteTable hj] at hid
  subst hid
  rw [hi] at hj
  exact Option.some.inj hj

/-- **The table lists the sites of each unit**, and its layout their numbers. -/
theorem Program.unitSites_siteTable {u : LoweringUnit} (h : units.units[i]? = some u) : ∃ k,
    (p.siteTable a m units).unitSites i = u.ownSites p a m units i k ∧
      (p.siteTable a m units).layouts[i]? =
      some ⟨i, u.name, (u.ownSites p a m units i k).map (·.id)⟩ := by
  obtain ⟨k, hsites, hlayout⟩ := unitSites_siteTableFrom 0 0 h
  rw [Nat.zero_add] at hsites hlayout
  exact ⟨k, hsites, hlayout⟩

end Table

/-! ### Saved locals -/

/-- The saved locals of a site, with their fields. -/
theorem EffectSite.captures_eq {rest : List EnvField} (h : s.fields = EnvField.header ++ rest) :
    s.captures = (rest.zipIdx 2).map fun (f, i) => (i, f) := by
  rw [captures, h, ← map_drop, zipIdx_append, drop_left' (by simp)]
  rfl

namespace LoweringUnit

variable {u : LoweringUnit} {f : FnDecl} {a : EffectAnalysis} {m : EffectMetadata}
  {units : LiftedProgram}

theorem mem_sortByDefinition {l : LocalId} {ls : List LocalId} :
    l ∈ u.sortByDefinition ls ↔ l ∈ ls :=
  mem_mergeSort

/-- The locals that are live behind the points of a unit have a property if all that are mentioned
have it. -/
theorem within_liveAfter {forced transfers : LocalSet} (hforced : ∀ l ∈ forced, S l)
    (h : ∀ x ∈ u.body.walk, x.MentionsOnly units S) :
    ∀ note ∈ u.liveAfter units forced transfers, ∀ l ∈ note.2, S l := by
  have hP := LocalSet.closed_forall S
  have hloop : ({} : LoopTargets).Within fun s => ∀ l ∈ s, S l := ⟨hP.nil, hP.nil⟩
  let c : LivenessContext := ⟨units, forced, transfers, forced.length + u.body.roundBound units + 1⟩
  unfold liveAfter
  split
  · rename_i body clauses finalizer _ hform
    intro note hn
    obtain ⟨clause, hclause, hn⟩ := mem_flatMap.mp hn
    have hmem : clause.body ∈ u.body.form.children := by
      rw [hform]
      exact mem_cons_of_mem _ (mem_append_left _ (mem_map_of_mem (mem_reverse.mp hclause)))
    have hnodes : ∀ x ∈ clause.body.walk, x.MentionsOnly c.units S :=
      fun x hx => h x (Expr.walk_subset_of_mem_children hmem hx)
    exact (Expr.within_live (c := c) hP hforced hnodes _ _ hloop hforced).after note hn
  · exact (Expr.within_live (c := c) hP hforced h _ _ hloop hP.nil).after

/-- The environment of a site: the saved locals behind the header. -/
theorem fields_of_mem_sites (h : s ∈ u.sites f a m units position first) :
    s.fields = u.envFields f s.liveAfter := by
  obtain ⟨⟨d, i⟩, -, rfl⟩ := mem_map.mp h
  rfl

theorem liveAfter_of_mem_sites (h : s ∈ u.sites f a m units position first)
    (hparams : ∀ l ∈ u.params, S l) (hnodes : ∀ x ∈ u.body.walk, x.MentionsOnly units S) :
    ∀ l ∈ s.liveAfter, S l := by
  have hforced : ∀ l ∈ u.forced, S l := by
    intro l hl
    unfold forced at hl
    split at hl
    · exact hparams l (LocalSet.mem_ofList.mp hl)
    · cases hl
  have hnotes : ∀ note ∈ u.liveAfter units u.forced (u.continuationsOf a .tail),
      ∀ l ∈ note.2, S l :=
    within_liveAfter hforced hnodes
  obtain ⟨⟨d, i⟩, -, rfl⟩ := mem_map.mp h
  intro l hl
  rw [mem_sortByDefinition] at hl
  split at hl
  · exact hforced l hl
  · obtain hl | hl := LocalSet.mem_union.mp hl
    · obtain ⟨ls, hls, hl⟩ : ∃ ls, (u.liveAfter units u.forced (u.continuationsOf a .tail)).lookup
          d.expr = some ls ∧ l ∈ ls := by
        cases hlookup : (u.liveAfter units u.forced (u.continuationsOf a .tail)).lookup d.expr with
        | none => simp [hlookup] at hl
        | some ls => exact ⟨ls, rfl, by simpa [hlookup] using hl⟩
      obtain ⟨before, behind, hsplit, -⟩ := lookup_eq_some_iff.mp hls
      exact hnotes (d.expr, ls) (by simp [hsplit]) l hl
    · exact hforced l hl

/-- **Sites save locals of the unit**: what is saved has every property of all locals that the unit
mentions. -/
theorem captures_sites (h : s ∈ u.sites f a m units position first) (hparams : ∀ l ∈ u.params, S l)
    (hnodes : ∀ x ∈ u.body.walk, x.MentionsOnly units S) {field : EnvField}
    (hc : (i, field) ∈ s.captures) :
    i < s.fields.length ∧ ∃ l, field.source.local? = some l ∧ S l := by
  have hfields := fields_of_mem_sites h
  rw [EffectSite.captures_eq hfields, mem_map] at hc
  obtain ⟨⟨field', j⟩, hj, heq⟩ := hc
  obtain ⟨rfl, rfl⟩ := Prod.mk.inj heq
  rw [mem_zipIdx_iff_le_and_getElem?_sub] at hj
  obtain ⟨hle, hget⟩ := hj
  obtain ⟨hlt, -⟩ := List.getElem?_eq_some_iff.mp hget
  rw [getElem?_map, Option.map_eq_some_iff] at hget
  obtain ⟨l, hl, rfl⟩ := hget
  refine ⟨?_, l, ?_, liveAfter_of_mem_sites h hparams hnodes l (mem_of_getElem? hl)⟩
  · rw [hfields, envFields, length_append]
    have : EnvField.header.length = 2 := rfl
    omega
  · simp only
    split <;> rfl

end LoweringUnit

end Effectful
