import Effectful.Proofs.RowRelations
import Effectful.Row.Store
import Mathlib.Data.List.Destutter
import Mathlib.Data.List.Sort
import Mathlib.Logic.Relation
/-!
# Ids stand for rows

`Later.representation`: in every store that can be reached, stored rows list each label once and in
order, the index leads from each stored row to its own id and from nothing else to any, so that two
ids are equal exactly if their rows are; row 0 is pure; and no call changes what an id stands for.

The invariant is `RowStore.Sound`.  A call gives a row (`RowStore.Gives`): the store after it is
sound, has kept the rows that were there, and stores the row under the id that is given out.  There
is one such lemma for each operation; the shortcuts that give back an id without a look at the index
are right because the row that interning would give is the one that is there (`Row.ofOps_self`,
`Row.drop_eq_self`).

What interning stores is described in two ways.  Operations are put into an ascending list one by
one, which is the same as to sort them by their labels, so that equal labels keep their order, and
then to keep the first of each run (`Row.sortOps_eq`).
-/

namespace Effectful

open List

variable {r : Row} {s' : RowStore}

namespace Row

/-! ### Canonical rows -/

/-- Rows that are built from operations are canonical. -/
theorem canonical_ofOps (ops : List RowOp) (tail : Option RowVar) : (ofOps ops tail).Canonical :=
  pairwise_foldl_insertOp ops List.Pairwise.nil

/-- Of several operations with one label the first is kept. -/
theorem opAt_ofOps (ops : List RowOp) (tail : Option RowVar) (l : String) :
    (ofOps ops tail).opAt l = ops.find? (·.label == l) := by
  rw [opAt, ofOps, sortOps, find?_foldl_insertOp ops List.Pairwise.nil, nil_append]

/-- A canonical row is the row of its own operations. -/
theorem ofOps_self (h : r.Canonical) : ofOps r.ops r.tail = r :=
  (canonical_ofOps _ _).ext h (fun l => opAt_ofOps _ _ l) rfl

theorem canonical_drop (h : r.Canonical) (labels : List String) : (r.drop labels).Canonical :=
  List.Pairwise.filter _ h

theorem drop_eq_self {labels : List String} (h : r.ops.any (labels.contains ·.label) = false) :
    r.drop labels = r := by
  rw [drop, filter_eq_self.mpr]
  intro op hop
  rw [Bool.not_eq_true']
  exact Bool.eq_false_iff.mpr (any_eq_false.mp h op hop)

/-! ### Sorting and keeping the first -/

def labelLE (op op' : RowOp) : Bool := decide (op.label ≤ op'.label)

theorem labelLE_trans (a b c : RowOp) (hab : labelLE a b = true) (hbc : labelLE b c = true) :
    labelLE a c = true := by
  simp only [labelLE, decide_eq_true_eq] at *
  exact le_trans hab hbc

theorem labelLE_total (a b : RowOp) : (labelLE a b || labelLE b a) = true := by
  simp only [labelLE, Bool.or_eq_true, decide_eq_true_eq]
  exact le_total ..

/-- Sorting keeps the order of operations with one label. -/
theorem find?_mergeSort (ops : List RowOp) (l : String) :
    (ops.mergeSort labelLE).find? (·.label == l) = ops.find? (·.label == l) := by
  rw [← head?_filter, ← head?_filter]
  have hpairwise : (ops.filter (·.label == l)).Pairwise fun a b => labelLE a b = true := by
    refine pairwise_of_forall_mem_list fun a ha b hb => ?_
    have hlabel {op : RowOp} (hop : op ∈ ops.filter (·.label == l)) : op.label = l := by
      simpa using (mem_filter.mp hop).2
    simp only [labelLE, hlabel ha, hlabel hb, le_refl, decide_true]
  have hsub : (ops.filter (·.label == l)).Sublist
      ((ops.mergeSort labelLE).filter (·.label == l)) := by
    have hsorted := sublist_mergeSort labelLE_trans labelLE_total hpairwise filter_sublist
    have hfilter := hsorted.filter (·.label == l)
    rwa [filter_filter, filter_congr fun op _ => Bool.and_self _] at hfilter
  have hlength := ((mergeSort_perm ops labelLE).filter (·.label == l)).length_eq
  rw [hsub.eq_of_length hlength.symm]

section Destutter

variable {op : RowOp} {ops : List RowOp}

theorem pairwise_destutter' (h : (op :: ops).Pairwise fun a b => a.label ≤ b.label) :
    (ops.destutter' (fun a b : RowOp => a.label ≠ b.label) op).Pairwise
      fun a b => a.label < b.label := by
  induction ops generalizing op with
  | nil => simp
  | cons next ops ih =>
    obtain ⟨hop, hops⟩ := pairwise_cons.mp h
    by_cases hne : op.label ≠ next.label
    · rw [destutter'_cons, if_pos hne]
      refine pairwise_cons.mpr ⟨fun b hb => ?_, ih hops⟩
      have hnext : op.label < next.label := lt_of_le_of_ne (hop next mem_cons_self) hne
      obtain rfl | hb := mem_cons.mp ((destutter'_sublist _ _ _).subset hb)
      · exact hnext
      · exact lt_of_lt_of_le hnext ((pairwise_cons.mp hops).1 b hb)
    · rw [destutter'_cons, if_neg hne]
      exact ih (pairwise_cons.mpr
        ⟨fun b hb => hop b (mem_cons_of_mem _ hb), (pairwise_cons.mp hops).2⟩)

/-- Dropping repeated labels keeps the first operation of each. -/
theorem find?_destutter' (op : RowOp) (ops : List RowOp) (l : String) :
    (ops.destutter' (fun a b : RowOp => a.label ≠ b.label) op).find? (·.label == l) =
      (op :: ops).find? (·.label == l) := by
  induction ops generalizing op with
  | nil => simp
  | cons next ops ih =>
    by_cases hne : op.label ≠ next.label
    · rw [destutter'_cons, if_pos hne, find?_cons, find?_cons, ih]
    · rw [destutter'_cons, if_neg hne, ih, find?_cons, find?_cons, find?_cons]
      rw [not_not] at hne
      rw [hne]
      cases next.label == l <;> rfl

end Destutter

/-- Operations in canonical order are sorted by their labels, and of each label the first one is
kept. -/
theorem sortOps_eq (ops : List RowOp) :
    sortOps ops = (ops.mergeSort labelLE).destutter fun a b => a.label ≠ b.label := by
  have hsorted : (ops.mergeSort labelLE).Pairwise fun a b => a.label ≤ b.label :=
    (pairwise_mergeSort labelLE_trans labelLE_total ops).imp fun h => of_decide_eq_true h
  have hrow : ofOps ops none = ⟨(ops.mergeSort labelLE).destutter fun a b => a.label ≠ b.label,
      none⟩ := by
    refine (canonical_ofOps ops none).ext ?_ (fun l => ?_) rfl
    · rw [Canonical]
      cases hops : ops.mergeSort labelLE with
      | nil => exact List.Pairwise.nil
      | cons op rest => exact pairwise_destutter' (hops ▸ hsorted)
    · rw [opAt_ofOps, ← find?_mergeSort, opAt]
      cases ops.mergeSort labelLE with
      | nil => rfl
      | cons op rest => exact (find?_destutter' op rest l).symm
  exact congrArg Row.ops hrow

end Row

namespace RowStore

/-! ### Sound stores -/

/-- The store has handed out the id. -/
def Has (s : RowStore) (id : RowId) : Prop := id.index < s.rows.length

/-- Rows are canonical, the index leads to each of them and nowhere else, and the first one is
pure. -/
structure Sound (s : RowStore) : Prop where
  canonical : ∀ r ∈ s.rows, r.Canonical
  index : ∀ r id, Assoc.get? s.index r = some id ↔ s.rows[id.index]? = some r
  pure : s.rows[0]? = some Row.pure

variable {s : RowStore} {id : RowId}

theorem getElem?_rows (h : s.Has id) : s.rows[id.index]? = some (s.get id) := by
  rw [get, getElem?_eq_getElem h, Option.getD_some]

theorem has_of_getElem? (h : s.rows[id.index]? = some r) : s.Has id :=
  (List.getElem?_eq_some_iff.mp h).1

theorem get_of_getElem? (h : s.rows[id.index]? = some r) : s.get id = r := by
  rw [get, h, Option.getD_some]

namespace Sound

theorem canonical_get (h : s.Sound) (hid : s.Has id) : (s.get id).Canonical :=
  h.canonical _ (mem_of_getElem? (getElem?_rows hid))

/-- Two ids are equal if their rows are. -/
theorem id_eq (h : s.Sound) {a b : RowId} (ha : s.Has a) (hb : s.Has b) (hab : s.get a = s.get b) :
    a = b := by
  have ha := (h.index _ a).mpr (getElem?_rows ha)
  have hb := (h.index _ b).mpr (getElem?_rows hb)
  rw [hab, hb] at ha
  exact (Option.some.inj ha).symm

/-- No row is stored twice. -/
theorem nodup (h : s.Sound) : s.rows.Nodup := by
  refine nodup_iff_injective_get.mpr fun i j hij => ?_
  have hids : (⟨i⟩ : RowId) = ⟨j⟩ := by
    refine h.id_eq i.2 j.2 ?_
    rw [get, get, getElem?_eq_getElem i.2, getElem?_eq_getElem j.2, Option.getD_some,
      Option.getD_some]
    exact hij
  exact Fin.ext (RowId.mk.inj hids)

theorem start : Sound {} where
  canonical r hr := by
    obtain rfl := mem_singleton.mp hr
    exact List.Pairwise.nil
  index r id := by
    obtain ⟨i⟩ := id
    cases i with
    | zero => simp [Assoc.get?_cons, RowId.pure, eq_comm]
    | succ i => simp [Assoc.get?_cons, RowId.pure]
  pure := rfl

end Sound

/-! ### What calls give -/

/-- A call with this result gives a row: the store stays sound, keeps its rows, and has the row
under the id. -/
structure Gives (s : RowStore) (result : RowId × RowStore) (r : Row) : Prop where
  sound : result.2.Sound
  kept : s.rows <+: result.2.rows
  row : result.2.rows[result.1.index]? = some r

namespace Gives

variable {result : RowId × RowStore}

theorem has (h : Gives s result r) : result.2.Has result.1 := has_of_getElem? h.row

theorem get (h : Gives s result r) : result.2.get result.1 = r := get_of_getElem? h.row

end Gives

theorem has_of_kept (h : s.rows <+: s'.rows) (hid : s.Has id) : s'.Has id :=
  Nat.lt_of_lt_of_le hid h.length_le

/-- Ids keep their rows while the store grows. -/
theorem get_of_kept (h : s.rows <+: s'.rows) (hid : s.Has id) : s'.get id = s.get id := by
  refine get_of_getElem? ?_
  obtain ⟨rest, hrest⟩ := h
  rw [← hrest, getElem?_append_left hid, getElem?_rows hid]

namespace Sound

theorem gives_self (h : s.Sound) (hid : s.Has id) : Gives s (id, s) (s.get id) :=
  ⟨h, prefix_refl _, getElem?_rows hid⟩

/-- Interning finds the row or adds it at the end. -/
theorem gives_intern (h : s.Sound) (ops : List RowOp) (tail : Option RowVar) :
    Gives s (s.intern ops tail) (.ofOps ops tail) := by
  rw [intern]
  cases hindex : Assoc.get? s.index (Row.ofOps ops tail) with
  | some id => exact ⟨h, prefix_refl _, (h.index _ id).mp hindex⟩
  | none =>
    have hnew (id : RowId) : s.rows[id.index]? ≠ some (Row.ofOps ops tail) := fun hid => by
      have := (h.index _ id).mpr hid
      rw [hindex] at this
      cases this
    refine ⟨⟨fun r hr => ?_, fun r id => ?_, ?_⟩, prefix_append .., ?_⟩
    · obtain hr | hr := mem_append.mp hr
      · exact h.canonical r hr
      · obtain rfl := mem_singleton.mp hr
        exact Row.canonical_ofOps ops tail
    · -- the new row has the position behind all others, and no other row leads there
      show Assoc.get? (Assoc.set s.index _ _) r = some id ↔ (s.rows ++ [_])[id.index]? = some r
      rw [Assoc.get?_set]
      by_cases hr : r = Row.ofOps ops tail
      · rw [if_pos hr, Option.some.injEq, hr]
        constructor
        · rintro rfl
          exact getElem?_concat_length
        · intro hid
          obtain hlt | hle := Nat.lt_or_ge id.index s.rows.length
          · rw [getElem?_append_left hlt] at hid
            exact absurd hid (hnew id)
          · have hlt := (List.getElem?_eq_some_iff.mp hid).1
            rw [length_append, length_singleton] at hlt
            exact congrArg RowId.mk (Nat.le_antisymm hle (Nat.le_of_lt_succ hlt))
      · rw [if_neg hr, h.index]
        constructor
        · intro hid
          rw [getElem?_append_left (has_of_getElem? hid), hid]
        · intro hid
          obtain hlt | hle := Nat.lt_or_ge id.index s.rows.length
          · rwa [getElem?_append_left hlt] at hid
          · rw [getElem?_append_right hle] at hid
            exact absurd (mem_singleton.mp (mem_of_getElem? hid)) hr
    · show (s.rows ++ [_])[0]? = some Row.pure
      rw [getElem?_append_left (List.getElem?_eq_some_iff.mp h.pure).1, h.pure]
    · exact getElem?_concat_length

theorem gives_compose (h : s.Sound) {ids : List RowId} (hids : ∀ id ∈ ids, s.Has id) :
    Gives s (s.compose ids) (.compose (ids.map s.get)) := by
  match ids with
  | [] => exact ⟨h, prefix_refl _, h.pure⟩
  | [id] => exact h.gives_self (hids id mem_cons_self)
  | id :: id' :: ids =>
    have hgives := h.gives_intern ((id :: id' :: ids).flatMap fun id => (s.get id).ops)
      ((id :: id' :: ids).foldl (fun tail id => Row.mergeTail tail (s.get id).tail) none)
    have hrow : Row.compose ((id :: id' :: ids).map s.get) =
        .ofOps ((id :: id' :: ids).flatMap fun id => (s.get id).ops)
          ((id :: id' :: ids).foldl (fun tail id => Row.mergeTail tail (s.get id).tail) none) := by
      rw [map_cons, map_cons, Row.compose]
      · rw [← map_cons, ← map_cons, flatMap_map, foldl_map]
      · simp
      · simp
    rw [hrow]
    exact hgives

theorem gives_drop (h : s.Sound) (hid : s.Has id) (labels : List String) :
    Gives s (s.drop id labels) ((s.get id).drop labels) := by
  rw [drop]
  cases hany : (s.get id).ops.any (labels.contains ·.label) with
  | false =>
    rw [Row.drop_eq_self hany]
    exact h.gives_self hid
  | true =>
    have hgives := h.gives_intern ((s.get id).drop labels).ops ((s.get id).drop labels).tail
    rw [Row.ofOps_self (Row.canonical_drop (h.canonical_get hid) labels)] at hgives
    exact hgives

theorem gives_substitute (h : s.Sound) (hid : s.Has id) (v : RowVar) {replacement : RowId}
    (hreplacement : s.Has replacement) :
    Gives s (s.substitute id v replacement) ((s.get id).substitute v (s.get replacement)) := by
  rw [substitute, Row.substitute]
  by_cases htail : (s.get id).tail = some v
  · rw [if_pos htail, if_pos htail]
    have hclosed := h.gives_intern (s.get id).ops none
    have hsame : Row.ofOps (s.get id).ops none = ⟨(s.get id).ops, none⟩ :=
      Row.ofOps_self (show Row.Canonical ⟨(s.get id).ops, none⟩ from h.canonical_get hid)
    have hids : ∀ x ∈ [(s.intern (s.get id).ops none).1, replacement],
        (s.intern (s.get id).ops none).2.Has x := by
      simp [hclosed.has, has_of_kept hclosed.kept hreplacement]
    have hunion := hclosed.sound.gives_compose hids
    rw [map_cons, map_singleton, hclosed.get, get_of_kept hclosed.kept hreplacement,
      hsame] at hunion
    exact ⟨hunion.sound, hclosed.kept.trans hunion.kept, hunion.row⟩
  · rw [if_neg htail, if_neg htail]
    exact h.gives_self hid

end Sound

/-! ### Histories -/

/-- One call, on rows and operations of the store. -/
inductive Call : RowStore → RowStore → Prop
  | op (s : RowStore) (label : String) (effect : DefId) (kind : ResumeKind) :
      Call s (s.op label effect kind).2
  | freshVar (s : RowStore) : Call s s.freshVar.2
  | intern {s : RowStore} {ops : List RowOp} (hops : ∀ op ∈ ops, s.knows op.label)
      (tail : Option RowVar) :
      Call s (s.intern ops tail).2
  | compose {s : RowStore} {ids : List RowId} (hids : ∀ id ∈ ids, s.Has id) :
      Call s (s.compose ids).2
  | drop {s : RowStore} {id : RowId} (hid : s.Has id) (labels : List String) :
      Call s (s.drop id labels).2
  | substitute {s : RowStore} {id replacement : RowId} (hid : s.Has id) (v : RowVar)
      (hreplacement : s.Has replacement) : Call s (s.substitute id v replacement).2

/-- The second store is what the first one becomes by any number of calls. -/
def Later : RowStore → RowStore → Prop := Relation.ReflTransGen Call

/-- A call keeps a store sound and keeps its rows. -/
theorem Call.sound {s : RowStore} (hcall : Call s s') (h : s.Sound) : s'.Sound ∧ s.rows <+:
    s'.rows := by
  have hgives {result : RowId × RowStore} {r : Row} (hr : Gives s result r) :
      result.2.Sound ∧ s.rows <+: result.2.rows := ⟨hr.sound, hr.kept⟩
  cases hcall with
  | op label effect kind =>
    simp only [RowStore.op]
    split
    · exact ⟨h, prefix_refl _⟩
    · exact ⟨⟨h.canonical, h.index, h.pure⟩, prefix_refl _⟩
  | freshVar => exact ⟨⟨h.canonical, h.index, h.pure⟩, prefix_refl _⟩
  | intern hops tail => exact hgives (h.gives_intern _ tail)
  | compose hids => exact hgives (h.gives_compose hids)
  | drop hid labels => exact hgives (h.gives_drop hid labels)
  | substitute hid v hreplacement => exact hgives (h.gives_substitute hid v hreplacement)

/-- Any number of calls does. -/
theorem Later.sound {s : RowStore} (hlater : Later s s') (h : s.Sound) : s'.Sound ∧ s.rows <+:
    s'.rows := by
  induction hlater with
  | refl => exact ⟨h, prefix_refl _⟩
  | tail _ hcall ih =>
    obtain ⟨hsound, hkept⟩ := hcall.sound ih.1
    exact ⟨hsound, ih.2.trans hkept⟩

/-- **Ids stand for rows.** In a store that calls have made from the first one: stored rows have
their labels in strictly ascending order; the index leads from each stored row to its id, and there
is no other entry; no row is stored twice, so two ids are equal exactly if their rows have the same
operations and tail; row 0 is empty and closed; interning gives the row of the sorted operations,
the first of each label; and no further calls change the row that an id stands for. -/
theorem Later.representation {s : RowStore} (hs : Later {} s) :
    (∀ r ∈ s.rows, r.labels.Pairwise (· < ·)) ∧
    (∀ r id, Assoc.get? s.index r = some id ↔ s.rows[id.index]? = some r) ∧
    s.rows.Nodup ∧
    (∀ a b, s.Has a → s.Has b →
      ((s.get a).ops = (s.get b).ops ∧ (s.get a).tail = (s.get b).tail ↔ a = b)) ∧
    (s.Has .pure ∧ (s.get .pure).ops = [] ∧ (s.get .pure).tail = none) ∧
    (∀ ops tail, (s.intern ops tail).2.Has (s.intern ops tail).1 ∧ (s.intern ops tail).2.get
      (s.intern ops tail).1 =
      ⟨(ops.mergeSort Row.labelLE).destutter fun a b => a.label ≠ b.label, tail⟩) ∧
    ∀ s', Later s s' → ∀ id, s.Has id → s'.Has id ∧ s'.get id = s.get id := by
  obtain ⟨h, -⟩ := hs.sound Sound.start
  refine ⟨fun r hr => (h.canonical r hr).pairwise_labels, h.index, h.nodup,
    fun a b ha hb => ⟨?_, ?_⟩, ?_, ?_, ?_⟩
  · rintro ⟨hops, htail⟩
    refine h.id_eq ha hb ?_
    rw [Row.mk.injEq]
    exact ⟨hops, htail⟩
  · rintro rfl
    exact ⟨rfl, rfl⟩
  · have hhas : s.Has .pure := has_of_getElem? h.pure
    have hpure : s.get .pure = Row.pure := get_of_getElem? h.pure
    rw [hpure]
    exact ⟨hhas, rfl, rfl⟩
  · intro ops tail
    have hgives := h.gives_intern ops tail
    refine ⟨hgives.has, ?_⟩
    rw [hgives.get, Row.ofOps, Row.sortOps_eq]
  · intro s' hlater id hid
    obtain ⟨-, hkept⟩ := hlater.sound h
    exact ⟨has_of_kept hkept hid, get_of_kept hkept hid⟩

def logEmit : RowOp := ⟨"Log.emit", ⟨0⟩, .tail⟩

def stateGet : RowOp := ⟨"State.get", ⟨1⟩, .resume⟩

/-- A store with an open row of two operations, given in no order, and a closed row of one of
them. -/
def logAndState : RowStore :=
  let s := (RowStore.op {} "Log.emit" ⟨0⟩ .tail).2
  let s := (s.op "State.get" ⟨1⟩ .resume).2
  let s := (s.intern [stateGet, logEmit, stateGet] (some ⟨0⟩)).2
  (s.intern [logEmit] none).2

theorem later_logAndState : Later {} logAndState := by
  have hlabels : Later {} _ := .tail (.single (.op {} "Log.emit" ⟨0⟩ .tail))
    (.op _ "State.get" ⟨1⟩ .resume)
  have hopen : Later {} _ :=
    hlabels.tail (.intern (show ∀ op ∈ [stateGet, logEmit, stateGet], _ by decide) (some ⟨0⟩))
  exact hopen.tail (.intern (show ∀ op ∈ [logEmit], _ by decide) none)

theorem Later.representation_logAndState :
    Later {} logAndState ∧ logAndState.rows.length = 3 ∧
    (logAndState.get ⟨1⟩).labels = ["Log.emit", "State.get"] ∧
    Assoc.get? logAndState.index (logAndState.get ⟨1⟩) = some ⟨1⟩ ∧
    ¬ ((logAndState.get ⟨1⟩).ops = (logAndState.get ⟨2⟩).ops ∧
      (logAndState.get ⟨1⟩).tail = (logAndState.get ⟨2⟩).tail) := by
  obtain ⟨-, hindex, -, hids, -⟩ := later_logAndState.representation
  have hlength : logAndState.rows.length = 3 := by decide
  have hhas (i : Nat) (hi : i < 3) : logAndState.Has ⟨i⟩ := Nat.lt_of_lt_of_eq hi hlength.symm
  refine ⟨later_logAndState, hlength, by decide,
    (hindex _ _).mpr (getElem?_rows (hhas 1 (by decide))), ?_⟩
  decide

end RowStore

end Effectful
