import Effectful.Proofs.EmittedModule
import Effectful.Proofs.UnitOrigin
/-!
# Ranges of sites

The sites of a unit are numbered along its walk from the leaves up, and the walk of an expression is
a segment of the walk of the unit.  So the numbers of the sites in an expression are consecutive,
and an expression is known by the first and the last of them: a number lies between the two exactly
if it belongs to a site in the expression (`UnitContext.mem_range_iff`).

Two facts meet here.  `UnitContext.ranges` collects the smallest and the largest number in each
expression (`collects_foldl`), whatever the numbers are.  And the sites that are found along the
walk are the sites of the unit in their order (`UnitContext.filterMap_site?`).
-/

namespace Effectful

open List

variable {ns : List Nat} {e x : Expr} {found : List (ExprId × SiteRange)} {n first : Nat}

/-! ### Ranges over numbers -/

/-- The range goes from the smallest to the largest of the numbers, and is missing if there are
none. -/
def SiteRange.Covers (ns : List Nat) : Option SiteRange → Prop
  | none => ns = []
  | some r => r.1 ∈ ns ∧ r.2 ∈ ns ∧ ∀ n ∈ ns, r.1 ≤ n ∧ n ≤ r.2

namespace SiteRange

/-- The range over two ranges that may be missing. -/
def merge (r s : Option SiteRange) : Option SiteRange :=
  match r, s with
  | some a, some b => some (SiteRange.join a b)
  | none, r => r
  | found, none => found

theorem Covers.merge {r s : Option SiteRange} {ms : List Nat} (h : Covers ns r) (h' : Covers ms s) :
    Covers (ns ++ ms) (SiteRange.merge r s) := by
  match r, s with
  | none, s =>
    obtain rfl : ns = [] := h
    exact h'
  | some r, none =>
    obtain rfl : ms = [] := h'
    rw [append_nil]
    exact h
  | some r, some s =>
    obtain ⟨hlow, hhigh, hin⟩ := h
    obtain ⟨hlow', hhigh', hin'⟩ := h'
    simp only [SiteRange.merge, Covers, SiteRange.join, mem_append]
    refine ⟨?_, ?_, ?_⟩
    · rcases Nat.le_total r.1 s.1 with hle | hle
      · rw [Nat.min_eq_left hle]
        exact .inl hlow
      · rw [Nat.min_eq_right hle]
        exact .inr hlow'
    · rcases Nat.le_total r.2 s.2 with hle | hle
      · rw [Nat.max_eq_right hle]
        exact .inr hhigh'
      · rw [Nat.max_eq_left hle]
        exact .inl hhigh
    · rintro n (hn | hn)
      · have := hin n hn
        omega
      · have := hin' n hn
        omega

/-- The range over ranges covers what they cover. -/
theorem covers_joinAll {rs : List (Option SiteRange)} {nss : List (List Nat)}
    (h : List.Forall₂ (fun r ns => Covers ns r) rs nss) : Covers nss.flatten (joinAll rs) := by
  have hfold (found : Option SiteRange) (seen : List Nat) (hfound : Covers seen found) :
      Covers (seen ++ nss.flatten) (rs.foldl merge found) := by
    induction h generalizing found seen with
    | nil => simpa using hfound
    | cons hr _ ih =>
      rw [flatten_cons, ← append_assoc]
      exact ih _ _ (hfound.merge hr)
  exact hfold none [] rfl

theorem Covers.congr {r : Option SiteRange} {ms : List Nat} (h : Covers ns r)
    (heq : ∀ n, n ∈ ns ↔ n ∈ ms) :
    Covers ms r := by
  match r with
  | none =>
    obtain rfl : ns = [] := h
    exact eq_nil_iff_forall_not_mem.mpr fun n hn => by simpa using (heq n).mpr hn
  | some r => exact ⟨(heq _).mp h.1, (heq _).mp h.2.1, fun n hn => h.2.2 n ((heq n).mpr hn)⟩

end SiteRange

/-! ### Collecting ranges -/

section Collect

variable (number : ExprId → Option Nat)

def Expr.numbers (e : Expr) : List Nat := e.walkPost.filterMap fun x => number x.id

/-- Enters the range of a node into a map that has those of its parts. -/
def collectRange (found : List (ExprId × SiteRange)) (e : Expr) : List (ExprId × SiteRange) :=
  match SiteRange.joinAll ((number e.id).map (fun n => (n, n)) :: e.form.children.map
    fun c => Assoc.get? found c.id) with
  | some range => Assoc.set found e.id range
  | none => found

variable {number}

/-- The map after all nodes of some expressions: their ranges, and what was there. -/
structure Collects (number : ExprId → Option Nat) (es : List Expr)
    (found found' : List (ExprId × SiteRange)) : Prop where
  range : ∀ e ∈ es, ∀ x ∈ e.walk, SiteRange.Covers (x.numbers number) (Assoc.get? found' x.id)
  frame : ∀ i, i ∉ es.flatMap Expr.ids → Assoc.get? found' i = Assoc.get? found i

theorem Collects.cons {es : List Expr} {found₁ found' : List (ExprId × SiteRange)}
    (hnodup : ((e :: es).flatMap Expr.ids).Nodup) (h : Collects number [e] found found₁)
    (h' : Collects number es found₁ found') : Collects number (e :: es) found found' := by
  have hapart := (nodup_append.mp hnodup).2.2
  refine ⟨forall_mem_cons.mpr ⟨fun x hx => ?_, h'.range⟩, fun i hi => ?_⟩
  · have hid : x.id ∈ e.ids := mem_map_of_mem hx
    rw [h'.frame _ fun hmem => hapart _ hid _ hmem rfl]
    exact h.range e mem_cons_self x hx
  · rw [flatMap_cons, mem_append, not_or] at hi
    rw [h'.frame i hi.2, h.frame i (by simpa using hi.1)]

theorem Expr.mem_numbers : n ∈ e.numbers number ↔ ∃ x ∈ e.walk, number x.id = some n := by
  simp only [numbers, mem_filterMap, mem_walkPost]

/-- What holds of the walk of each expression holds of their walks in order. -/
theorem Collects.foldl_flatMap {es : List Expr}
    (hes : ∀ e ∈ es, ∀ found : List (ExprId × SiteRange), e.ids.Nodup →
      (∀ i ∈ e.ids, Assoc.get? found i = none) →
      Collects number [e] found (e.walkPost.foldl (collectRange number) found))
    (hnodup : (es.flatMap Expr.ids).Nodup)
    (hfresh : ∀ i ∈ es.flatMap Expr.ids, Assoc.get? found i = none) :
    Collects number es found ((es.flatMap Expr.walkPost).foldl (collectRange number) found) := by
  induction es generalizing found with
  | nil => exact ⟨by simp, fun i _ => rfl⟩
  | cons e es ih =>
    rw [forall_mem_cons] at hes
    have hsplit := hnodup
    obtain ⟨hfirst, hrest, hapart⟩ := nodup_append.mp hsplit
    have hhead := hes.1 found hfirst fun i hi => hfresh i (mem_append_left _ hi)
    rw [flatMap_cons, foldl_append]
    refine Collects.cons hnodup hhead (ih hes.2 hrest fun i hi => ?_)
    rw [hhead.frame i (by simpa using fun hmem => hapart i hmem i hi rfl)]
    exact hfresh i (mem_append_right _ hi)

/-- **Collecting finds the range of every node.** -/
theorem collects_foldl (e : Expr) (hnodup : e.ids.Nodup)
    (hfresh : ∀ i ∈ e.ids, Assoc.get? found i = none) :
    Collects number [e] found (e.walkPost.foldl (collectRange number) found) := by
  induction e using Expr.induction generalizing found with
  | step e ih =>
    rw [Expr.ids_eq] at hnodup hfresh
    obtain ⟨hroot, hparts⟩ := nodup_cons.mp hnodup
    rw [forall_mem_cons] at hfresh
    rw [Expr.walkPost_eq, foldl_append, foldl_cons, foldl_nil]
    have hbefore := Collects.foldl_flatMap (fun c hc found hnodup hfresh => ih c hc hnodup hfresh)
      hparts hfresh.2
    generalize (e.form.children.flatMap Expr.walkPost).foldl (collectRange number)
      found = found₁ at hbefore
    -- the range of the node itself
    have hcovers : SiteRange.Covers (e.numbers number) (SiteRange.joinAll
        ((number e.id).map (fun n => (n, n)) :: e.form.children.map
        fun c => Assoc.get? found₁ c.id)) := by
      have hown : SiteRange.Covers (number e.id).toList ((number e.id).map fun n => (n, n)) := by
        cases number e.id <;> simp [SiteRange.Covers]
      have hall : List.Forall₂ (fun r ns => SiteRange.Covers ns r)
          (e.form.children.map fun c => Assoc.get? found₁ c.id)
          (e.form.children.map (Expr.numbers number)) := by
        rw [forall₂_map_left_iff, forall₂_map_right_iff, forall₂_same]
        exact fun c hc => hbefore.range c hc c c.self_mem_walk
      refine (SiteRange.covers_joinAll (.cons hown hall)).congr fun n => ?_
      simp only [flatten_cons, mem_append, Option.mem_toList, mem_flatten, mem_map,
        exists_exists_and_eq_and, Expr.mem_numbers]
      rw [Expr.walk_eq]
      simp only [mem_cons, mem_flatMap, exists_eq_or_imp]
      refine or_congr Iff.rfl ⟨?_, ?_⟩
      · rintro ⟨c, hc, x, hx, hn⟩
        exact ⟨x, ⟨c, hc, hx⟩, hn⟩
      · rintro ⟨x, ⟨c, hc, hx⟩, hn⟩
        exact ⟨c, hc, x, hx, hn⟩
    have hset : ∀ i, Assoc.get? (collectRange number found₁ e) i =
        if i = e.id then SiteRange.joinAll
          ((number e.id).map (fun n => (n, n)) :: e.form.children.map
          fun c => Assoc.get? found₁ c.id)
        else Assoc.get? found₁ i := by
      intro i
      unfold collectRange
      split
      · rename_i range hrange
        rw [Assoc.get?_set, hrange]
      · rename_i hrange
        rw [hrange]
        split
        · rename_i hi
          rw [hi, hbefore.frame _ hroot, hfresh.1]
        · rfl
    refine ⟨?_, fun i hi => ?_⟩
    · simp only [mem_singleton, forall_eq]
      intro x hx
      rw [Expr.walk_eq] at hx
      obtain rfl | hx := mem_cons.mp hx
      · rw [hset, if_pos rfl]
        exact hcovers
      · obtain ⟨c, hc, hx⟩ := mem_flatMap.mp hx
        have hne : x.id ≠ e.id := by
          intro heq
          exact hroot (heq ▸ mem_flatMap.mpr ⟨c, hc, mem_map_of_mem hx⟩)
        rw [hset, if_neg hne]
        exact hbefore.range c hc x hx
    · rw [flatMap_cons, flatMap_nil, append_nil, Expr.ids_eq, mem_cons, not_or] at hi
      rw [hset, if_neg hi.1, hbefore.frame i hi.2]

end Collect

/-! ### Sites along the walk -/

namespace Expr

theorem walkPost_perm (e : Expr) : e.walkPost.Perm e.walk := by
  induction e using Expr.induction with
  | step e ih =>
    have hparts (es : List Expr) (hes : ∀ c ∈ es, c.walkPost.Perm c.walk) :
        (es.flatMap walkPost).Perm (es.flatMap walk) := by
      induction es with
      | nil => exact .nil
      | cons c es ihes =>
        rw [forall_mem_cons] at hes
        exact hes.1.append (ihes hes.2)
    rw [walkPost_eq, walk_eq]
    exact (perm_append_singleton _ _).trans ((hparts _ ih).cons _)

/-- The walk of a part is a segment of the whole walk. -/
theorem walkPost_segment (h : x ∈ e.walk) : x.walkPost <:+: e.walkPost := by
  induction e using Expr.induction with
  | step e ih =>
    rw [walk_eq] at h
    obtain rfl | h := mem_cons.mp h
    · exact infix_refl _
    · obtain ⟨c, hc, hx⟩ := mem_flatMap.mp h
      rw [walkPost_eq e]
      have hpart : c.walkPost <:+: e.form.children.flatMap walkPost := by
        obtain ⟨before, after, hsplit⟩ := append_of_mem hc
        rw [hsplit, flatMap_append, flatMap_cons]
        exact ⟨_, _, append_assoc _ _ _⟩
      exact (ih c hc hx).trans (hpart.trans (prefix_append _ _).isInfix)

section

variable {a : EffectAnalysis} {units : LiftedProgram} {resumes : LocalSet}

theorem expr_siteDraft? {d : SiteDraft} (h : e.siteDraft? a units resumes = some d) :
    d.expr = e.id := by
  have hif {c : Prop} [Decidable c] {d' : SiteDraft} (h : (if c then some d' else none) = some d) :
      d = d' :=
    (Option.some.inj (Option.ite_none_right_eq_some.mp h).2).symm
  unfold siteDraft? at h
  split at h
  · obtain rfl := Option.some.inj h
    rfl
  · split at h
    · obtain rfl := Option.some.inj h
      rfl
    · obtain rfl := hif h
      rfl
    · obtain rfl := hif h
      rfl
    · cases h
  · obtain rfl := hif h
    rfl
  · cases h

/-- Sites stand at nodes, in the order of the nodes. -/
theorem map_expr_siteDrafts_sublist (es : List Expr) :
    ((es.filterMap (·.siteDraft? a units resumes)).map (·.expr)).Sublist (es.map Expr.id) := by
  induction es with
  | nil => exact List.Sublist.refl _
  | cons e es ih =>
    rw [filterMap_cons]
    cases hd : e.siteDraft? a units resumes with
    | none => exact ih.cons _
    | some d =>
      rw [map_cons, map_cons, expr_siteDraft? hd]
      exact ih.cons_cons _

end

end Expr

namespace LoweringUnit

variable {u : LoweringUnit} {a : EffectAnalysis} {m : EffectMetadata} {units : LiftedProgram}
  {f : FnDecl}

/-- The nodes of a unit from the leaves up, without the handler that a drive unit stands for. -/
def nodesPost (u : LoweringUnit) : List Expr := u.regions.flatMap Expr.walkPost

theorem Orderly.nodup_ids_nodesPost (h : u.Orderly) : (u.nodesPost.map Expr.id).Nodup := by
  have hperm (es : List Expr) : ((es.flatMap Expr.walkPost).map Expr.id).Perm
      (es.flatMap Expr.ids) := by
    induction es with
    | nil => exact .nil
    | cons e es ih =>
      rw [flatMap_cons, map_append, flatMap_cons]
      exact (e.walkPost_perm.map Expr.id).append ih
  exact ((hperm _).nodup_iff).mpr h.nodup

theorem mem_nodesPost : x ∈ u.nodesPost ↔ ∃ e ∈ u.regions, x ∈ e.walk := by
  simp only [nodesPost, mem_flatMap, Expr.mem_walkPost]

/-- The walk of a drive unit starts and ends at its handler. -/
theorem walkPost_emptyHandle {id : ExprId} {ty : Ty} {span : Span} {clauses : List Clause} :
    (emptyHandle id ty span clauses).walkPost =
      .unitAt id span ::
      (clauses.map Clause.body).flatMap Expr.walkPost ++ [emptyHandle id ty span clauses] := by
  rw [Expr.walkPost_eq]
  simp only [emptyHandle, Expr.form, Form.children, Option.toList_none, append_nil, flatMap_cons]
  rfl

/-- What the walk of the unit leaves when the handler of a drive unit is left out. -/
theorem Orderly.filter_walkPost (h : u.Orderly) :
    u.body.walkPost.filter (fun e => !(u.isDrive && e.id == u.body.id)) = u.nodesPost := by
  cases hdrive : u.isDrive with
  | false => simp [nodesPost, regions_of_not_isDrive hdrive]
  | true =>
    obtain ⟨ty, span, clauses, hbody, hregions, hroot⟩ := h.drive hdrive
    have hother : ∀ x ∈ u.nodesPost, x.id ≠ u.body.id := by
      rintro x hx heq
      obtain ⟨e, he, hx⟩ := mem_nodesPost.mp hx
      exact hroot (heq ▸ mem_flatMap.mpr ⟨e, he, mem_map_of_mem hx⟩)
    have hwalk : u.body.walkPost = .unitAt u.body.id span :: u.nodesPost ++ [u.body] := by
      rw [nodesPost, hregions]
      conv_lhs => rw [hbody]
      rw [walkPost_emptyHandle, ← hbody]
    have hself : (Expr.unitAt u.body.id span).id = u.body.id := rfl
    rw [hwalk, cons_append, filter_cons_of_neg (by simp [hself]), filter_append,
      filter_eq_self.mpr fun x hx => by simpa using hother x hx]
    simp

/-- The site of a drive unit that passes requests on. -/
def forwardDrafts (u : LoweringUnit) : List SiteDraft :=
  if u.isDrive then [{ expr := u.body.id, kind := .forward }] else []

theorem Orderly.siteDrafts_eq (h : u.Orderly) : u.siteDrafts a units =
    u.nodesPost.filterMap (·.siteDraft? a units (u.continuationsOf a .resume)) ++
    u.forwardDrafts := by
  rw [siteDrafts, h.filter_walkPost]
  rfl

theorem map_expr_sites {position : Nat} :
    (u.sites f a m units position first).map (·.expr) = (u.siteDrafts a units).map (·.expr) := by
  rw [sites, map_map]
  conv_rhs => rw [← zipIdx_map_fst 0 (u.siteDrafts a units), map_map]
  rfl

/-- The numbers of a unit's sites are consecutive. -/
theorem map_id_sites {position : Nat} : (u.sites f a m units position first).map (·.id) =
    List.range' first (u.sites f a m units position first).length := by
  refine ext_getElem? fun i => ?_
  rw [getElem?_map]
  cases hs : (u.sites f a m units position first)[i]? with
  | none => simpa using hs
  | some s =>
    obtain ⟨hlt, -⟩ := List.getElem?_eq_some_iff.mp hs
    rw [Option.map_some, (u.getElem?_sites f hs).1, getElem?_range' hlt, Nat.one_mul]

/-- Different sites of a unit stand at different nodes. -/
theorem Orderly.nodup_expr_siteDrafts (h : u.Orderly) :
    ((u.siteDrafts a units).map (·.expr)).Nodup := by
  rw [h.siteDrafts_eq, map_append]
  have hinside : ((u.nodesPost.filterMap (·.siteDraft? a units (u.continuationsOf a .resume))).map
      (·.expr)).Nodup :=
    h.nodup_ids_nodesPost.sublist (Expr.map_expr_siteDrafts_sublist _)
  unfold forwardDrafts
  split
  · rename_i hdrive
    obtain ⟨ty, span, clauses, -, -, hroot⟩ := h.drive hdrive
    refine nodup_append.mpr ⟨hinside, by simp, ?_⟩
    intro i hi j hj heq
    obtain rfl : j = u.body.id := by simpa using hj
    obtain ⟨x, hx, hid⟩ := mem_map.mp ((Expr.map_expr_siteDrafts_sublist _).subset hi)
    obtain ⟨e, he, hx⟩ := mem_nodesPost.mp hx
    exact hroot (mem_flatMap.mpr ⟨e, he, Expr.mem_ids.mpr ⟨x, hx, hid.trans heq⟩⟩)
  · rw [map_nil, append_nil]
    exact hinside

end LoweringUnit

/-! ### The sites of a unit -/

/-- What is found along a list of keys, if the keys of the items come in the same order. -/
theorem filterMap_eq_of_sublist {α κ : Type} (key : α → κ) {find : κ → Option α} {ks : List κ}
    {xs : List α} (hks : ks.Nodup) (hsub : (xs.map key).Sublist ks)
    (hfind : ∀ k ∈ ks, ∀ x, find k = some x ↔ x ∈ xs ∧ key x = k) :
    ks.filterMap find = xs := by
  induction ks generalizing xs with
  | nil =>
    obtain rfl : xs = [] := map_eq_nil_iff.mp (sublist_nil.mp hsub)
    rfl
  | cons k ks ih =>
    obtain ⟨hk, hrest⟩ := nodup_cons.mp hks
    rw [forall_mem_cons] at hfind
    rw [filterMap_cons]
    obtain hlater | ⟨rest, hmap, hlater⟩ := sublist_cons_iff.mp hsub
    · -- no item has the key
      have hnone : find k = none := by
        rw [Option.eq_none_iff_forall_ne_some]
        intro x hx
        obtain ⟨hmem, rfl⟩ := (hfind.1 x).mp hx
        exact hk (hlater.subset (mem_map_of_mem hmem))
      rw [hnone]
      exact ih hrest hlater hfind.2
    · obtain ⟨x, xs, rfl, rfl, rfl⟩ := map_eq_cons_iff.mp hmap
      rw [(hfind.1 x).mpr ⟨mem_cons_self, rfl⟩]
      refine congrArg (x :: ·) (ih hrest hlater fun k' hk' y => ?_)
      rw [hfind.2 k' hk' y, mem_cons]
      -- the first item has another key
      have hne : key x ≠ k' := fun heq => hk (heq ▸ hk')
      constructor
      · rintro ⟨rfl | hy, hkey⟩
        · exact absurd hkey hne
        · exact ⟨hy, hkey⟩
      · rintro ⟨hy, hkey⟩
        exact ⟨.inr hy, hkey⟩

/-- In a sorted list a segment has all that lies between two of its members. -/
theorem mem_of_infix_range' {count i j : Nat} (h : ns <:+: List.range' first count) (hi : i ∈ ns)
    (hj : j ∈ ns) (hin : i ≤ n) (hnj : n ≤ j) : n ∈ ns := by
  obtain ⟨before, after, hsplit⟩ := h
  have hsorted : (before ++ ns ++ after).Pairwise (· < ·) := hsplit ▸ pairwise_lt_range'
  have hbounds : ∀ k ∈ ns, first ≤ k ∧ k < first + count := by
    intro k hk
    have hmem : k ∈ List.range' first count := hsplit ▸ by simp [hk]
    simpa [mem_range'_1] using hmem
  have hn : n ∈ before ++ ns ++ after := by
    rw [hsplit, mem_range'_1]
    have := hbounds i hi
    have := hbounds j hj
    omega
  rw [pairwise_append, pairwise_append] at hsorted
  obtain ⟨⟨-, -, hbefore⟩, -, hafter⟩ := hsorted
  rw [mem_append, mem_append] at hn
  obtain (hn | hn) | hn := hn
  · have := hbefore n hn i hi
    omega
  · exact hn
  · have := hafter j (mem_append_right _ hj) n hn
    omega

namespace UnitContext

variable {c : UnitContext} {f : FnDecl}

/-- The sites of a unit in the table are those that were found in it. -/
structure HasSites (c : UnitContext) (f : FnDecl) (first : Nat) : Prop where
  effectful : c.unit.effectful = true
  orderly : c.unit.Orderly
  sites : c.sites = c.unit.sites f c.analysis c.metadata c.program.units c.index first

theorem HasSites.site?_eq_some_iff (h : c.HasSites f first) {i : ExprId} {s : EffectSite} :
    c.site? i = some s ↔ s ∈ c.sites ∧ s.expr = i := by
  have hnodup : (c.sites.map (·.expr)).Nodup := by
    rw [h.sites, LoweringUnit.map_expr_sites]
    exact h.orderly.nodup_expr_siteDrafts
  have hfilter : c.site? i = (c.sites.filter (·.expr == i)).getLast? := by
    show _ = ((c.program.sites.sites.filter (·.unit == c.index)).filter (·.expr == i)).getLast?
    rw [filter_filter, site?, SiteTable.at?]
    congr 2
    funext s
    rw [Bool.and_comm]
  rw [hfilter]
  constructor
  · intro hlast
    have hmem := mem_of_getLast? hlast
    simpa using hmem
  · rintro ⟨hs, rfl⟩
    -- all sites at the node are the same one
    obtain ⟨before, after, hsplit⟩ := append_of_mem hs
    rw [hsplit, map_append, map_cons, nodup_append] at hnodup
    obtain ⟨-, hafter, hbefore⟩ := hnodup
    have hnone : ∀ t ∈ after, (t.expr == s.expr) = false := by
      intro t ht
      have hne : t.expr ≠ s.expr := fun heq => (nodup_cons.mp hafter).1 (heq ▸ mem_map_of_mem ht)
      simpa using hne
    have hrest : after.filter (·.expr == s.expr) = [] :=
      filter_eq_nil_iff.mpr fun t ht => by simp [hnone t ht]
    rw [hsplit, filter_append, filter_cons_of_pos (by simp), hrest]
    simp

/-- **Along the walk the sites come in their order.** -/
theorem HasSites.filterMap_site? (h : c.HasSites f first) :
    c.unit.nodesPost.filterMap (fun x => c.site? x.id) <+: c.sites := by
  have hdrafts : c.unit.siteDrafts c.analysis c.program.units = _ := h.orderly.siteDrafts_eq
  generalize hinside : c.unit.nodesPost.filterMap
    (·.siteDraft? c.analysis c.program.units (c.unit.continuationsOf c.analysis .resume)) =
    inside at hdrafts
  have hexprs : c.sites.map (·.expr) = inside.map (·.expr) ++ c.unit.forwardDrafts.map
      (·.expr) := by
    rw [h.sites, LoweringUnit.map_expr_sites, hdrafts, map_append]
  have htake : (c.sites.take inside.length).map (·.expr) = inside.map (·.expr) := by
    rw [map_take, hexprs, take_left' (length_map _)]
  have hdrop : (c.sites.drop inside.length).map (·.expr) = c.unit.forwardDrafts.map (·.expr) := by
    rw [map_drop, hexprs, drop_left' (length_map _)]
  have hfound : c.unit.nodesPost.filterMap (fun x => c.site? x.id) = c.sites.take
      inside.length := by
    have hmap : c.unit.nodesPost.filterMap (fun x => c.site? x.id) =
        (c.unit.nodesPost.map Expr.id).filterMap c.site? := by
      rw [filterMap_map]
      rfl
    rw [hmap]
    refine filterMap_eq_of_sublist EffectSite.expr h.orderly.nodup_ids_nodesPost ?_ fun i hi s => ?_
    · rw [htake, ← hinside]
      exact Expr.map_expr_siteDrafts_sublist _
    · rw [h.site?_eq_some_iff]
      refine and_congr_left fun hs => ⟨fun hmem => ?_, mem_of_mem_take⟩
      rw [← take_append_drop inside.length c.sites, mem_append] at hmem
      refine hmem.resolve_right fun hlate => ?_
      -- the last site of a drive unit stands at its handler
      have hexpr : s.expr ∈ c.unit.forwardDrafts.map (·.expr) := hdrop ▸ mem_map_of_mem hlate
      unfold LoweringUnit.forwardDrafts at hexpr
      split at hexpr
      · rename_i hdrive
        obtain ⟨ty, span, clauses, -, -, hroot⟩ := h.orderly.drive hdrive
        obtain hroot' : s.expr = c.unit.body.id := by simpa using hexpr
        obtain ⟨x, hx, hid⟩ := mem_map.mp hi
        obtain ⟨e, he, hx⟩ := LoweringUnit.mem_nodesPost.mp hx
        exact hroot (mem_flatMap.mpr ⟨e, he, Expr.mem_ids.mpr ⟨x, hx, by rw [hid, ← hs, hroot']⟩⟩)
      · cases hexpr
  rw [hfound]
  exact take_prefix _ _

def number (c : UnitContext) (i : ExprId) : Option Nat := (c.site? i).map (·.id)

theorem HasSites.ranges_eq (h : c.HasSites f first) :
    c.ranges = c.unit.nodesPost.foldl (collectRange c.number) [] := by
  rw [ranges, if_pos h.effectful, ← h.orderly.filter_walkPost, foldl_filter]
  congr 1
  funext found e
  have hown : (c.site? e.id).map (fun s => (s.id, s.id)) = (c.number e.id).map fun n => (n, n) := by
    rw [number, Option.map_map]
    rfl
  rw [isDriveRoot]
  cases c.unit.isDrive && e.id == c.unit.body.id with
  | true => rfl
  | false =>
    simp only [Bool.false_eq_true, if_false, Bool.not_false, if_true, hown]
    rfl

/-- The range of a node covers the numbers of the sites in it. -/
theorem HasSites.covers (h : c.HasSites f first) (hx : x ∈ c.unit.nodesPost) :
    SiteRange.Covers (x.numbers c.number) (Assoc.get? c.ranges x.id) := by
  obtain ⟨e, he, hx⟩ := LoweringUnit.mem_nodesPost.mp hx
  rw [h.ranges_eq]
  exact (Collects.foldl_flatMap (fun e _ found hnodup hfresh => collects_foldl e hnodup hfresh)
    h.orderly.nodup (by simp)).range e he x hx

theorem HasSites.mem_numbers (h : c.HasSites f first) :
    n ∈ x.numbers c.number ↔ ∃ s ∈ c.sites, s.id = n ∧ s.expr ∈ x.ids := by
  simp only [Expr.mem_numbers, number, Option.map_eq_some_iff, h.site?_eq_some_iff, Expr.mem_ids]
  constructor
  · rintro ⟨y, hy, s, ⟨hs, hexpr⟩, hn⟩
    exact ⟨s, hs, hn, y, hy, hexpr.symm⟩
  · rintro ⟨s, hs, hn, y, hy, hexpr⟩
    exact ⟨y, hy, s, ⟨hs, hexpr.symm⟩, hn⟩

/-- The numbers in an expression are consecutive. -/
theorem HasSites.numbers_segment (h : c.HasSites f first) (hx : x ∈ c.unit.nodesPost) :
    x.numbers c.number <:+: List.range' first c.sites.length := by
  obtain ⟨e, he, hx⟩ := LoweringUnit.mem_nodesPost.mp hx
  have hwalk : x.walkPost <:+: c.unit.nodesPost := by
    refine (Expr.walkPost_segment hx).trans ?_
    obtain ⟨before, after, hsplit⟩ := append_of_mem he
    rw [LoweringUnit.nodesPost, hsplit, flatMap_append, flatMap_cons]
    exact ⟨_, _, append_assoc _ _ _⟩
  have hids : c.sites.map (·.id) = List.range' first c.sites.length := by
    rw [h.sites, LoweringUnit.map_id_sites]
  have hnumbers (es : List Expr) :
      es.filterMap (fun x => c.number x.id) = (es.filterMap fun x => c.site? x.id).map (·.id) := by
    rw [map_filterMap]
    rfl
  rw [← hids, Expr.numbers, hnumbers]
  exact ((hwalk.filterMap _).trans h.filterMap_site?.isInfix).map _

/-- **Ranges identify expressions**: a number lies in the range of a node exactly if it belongs to a
site in it. -/
theorem HasSites.mem_range_iff (h : c.HasSites f first) (hx : x ∈ c.unit.nodesPost) :
    (∃ r, Assoc.get? c.ranges x.id = some r ∧ r.1 ≤ n ∧ n ≤ r.2) ↔ ∃ s ∈ c.sites, s.id = n ∧
      s.expr ∈ x.ids := by
  rw [← h.mem_numbers]
  have hcovers := h.covers hx
  constructor
  · rintro ⟨r, hr, hlow, hhigh⟩
    rw [hr] at hcovers
    exact mem_of_infix_range' (h.numbers_segment hx) hcovers.1 hcovers.2.1 hlow hhigh
  · intro hn
    cases hr : Assoc.get? c.ranges x.id with
    | none =>
      rw [hr] at hcovers
      have hnil : x.numbers c.number = [] := hcovers
      simp [hnil] at hn
    | some r =>
      rw [hr] at hcovers
      exact ⟨r, rfl, hcovers.2.2 n hn⟩

/-- A node has no range exactly if there is no site in it. -/
theorem HasSites.get?_ranges_eq_none_iff (h : c.HasSites f first) (hx : x ∈ c.unit.nodesPost) :
    Assoc.get? c.ranges x.id = none ↔ ∀ s ∈ c.sites, s.expr ∉ x.ids := by
  have hcovers := h.covers hx
  constructor
  · intro hnone s hs hexpr
    rw [hnone] at hcovers
    have hnil : x.numbers c.number = [] := hcovers
    have hmem := h.mem_numbers.mpr ⟨s, hs, rfl, hexpr⟩
    simp [hnil] at hmem
  · intro hall
    cases hr : Assoc.get? c.ranges x.id with
    | none => rfl
    | some r =>
      rw [hr] at hcovers
      obtain ⟨s, hs, -, hexpr⟩ := h.mem_numbers.mp hcovers.1
      exact absurd hexpr (hall s hs)

end UnitContext

end Effectful
