import Effectful.Proofs.RowStore
/-!
# The algebra of rows

`RowStore.Later.algebra`: the laws of union, dropping and substitution hold as equalities of ids.

A law has two sides that are computed one after the other, while the store grows.  So sides are
written as terms (`RowTerm`), which denote a row and can be evaluated in a store.  Evaluation gives
the row that the term denotes (`RowTerm.gives_eval`), and a sound store has one id for it.  Hence
two terms that denote the same row have the same id, in whatever later stores they are evaluated
(`RowTerm.same_of_denote_eq`), and what is left of a law is an equality of rows.

A canonical row is known from the operations in it and the bounds of its tail
(`Row.Canonical.eq_of_mem`).  In rows that agree on the operation for each label (`Row.Follows`), an
operation is in a union exactly if it is in one of the rows, so the laws of union are those of sets.
-/

namespace Effectful

open List

variable {r a b : Row} {op : RowOp}

namespace Row

/-! ### Rows as sets of operations -/

/-- Operations with one label are equal throughout the rows. -/
def Agree (rs : List Row) : Prop :=
  ∀ r ∈ rs, ∀ r' ∈ rs, ∀ op ∈ r.ops, ∀ op' ∈ r'.ops, op.label = op'.label → op = op'

/-- The operations of the row are those that are given for their labels. -/
def Follows (opFor : String → RowOp) (r : Row) : Prop := ∀ op ∈ r.ops, op = opFor op.label

/-- Rows that agree follow one choice of operations. -/
theorem Agree.exists_follows {rs : List Row} (h : Agree rs) :
    ∃ opFor, ∀ r ∈ rs, r.Follows opFor := by
  classical
  refine ⟨fun l => if hl : ∃ op, (∃ r ∈ rs, op ∈ r.ops) ∧ op.label = l then hl.choose else default,
    fun r hr op hop => ?_⟩
  have hl : ∃ op', (∃ r ∈ rs, op' ∈ r.ops) ∧ op'.label = op.label := ⟨op, ⟨r, hr, hop⟩, rfl⟩
  obtain ⟨⟨r', hr', hop'⟩, hlabel⟩ := hl.choose_spec
  exact (h r hr r' hr' op hop _ hop' hlabel.symm).trans (dif_pos hl).symm

/-- A canonical row is known from its operations and the bounds of its tail. -/
theorem Canonical.eq_of_mem {r' : Row} (h : r.Canonical) (h' : r'.Canonical)
    (hops : ∀ op, op ∈ r.ops ↔ op ∈ r'.ops)
    (htail : ∀ bound, r.TailWithin bound ↔ r'.TailWithin bound) : r = r' := by
  refine h.ext h' (fun l => Option.ext fun op => ?_) (tail_eq_of_tailWithin htail)
  have hiff {r : Row} (h : r.Canonical) : r.opAt l = some op ↔ op ∈ r.ops ∧ op.label = l := by
    refine ⟨mem_of_opAt, ?_⟩
    rintro ⟨hop, rfl⟩
    exact h.opAt_of_mem hop
  rw [hiff h, hiff h', hops]

theorem canonical_pure : pure.Canonical := List.Pairwise.nil

theorem mem_drop {labels : List String} : op ∈ (r.drop labels).ops ↔ op ∈ r.ops ∧
    op.label ∉ labels := by
  simp [drop]

/-- An operation of a union comes from one of the rows. -/
theorem exists_mem_of_mem_compose {rs : List Row} (hrs : ∀ r ∈ rs, r.Canonical)
    (h : op ∈ (compose rs).ops) :
    ∃ r ∈ rs, op ∈ r.ops := by
  have hat := (canonical_compose hrs).opAt_of_mem h
  rw [opAt_compose] at hat
  obtain ⟨r, hr, hop⟩ := exists_of_findSome?_eq_some hat
  exact ⟨r, hr, (mem_of_opAt hop).1⟩

section Follows

variable {opFor : String → RowOp} {rs : List Row}

theorem follows_pure : pure.Follows opFor := forall_mem_nil _

theorem Follows.drop (h : r.Follows opFor) (labels : List String) : (r.drop labels).Follows opFor :=
  fun op hop => h op (mem_drop.mp hop).1

theorem follows_compose (hrs : ∀ r ∈ rs, r.Canonical) (h : ∀ r ∈ rs, r.Follows opFor) :
    (compose rs).Follows opFor := by
  intro op hop
  obtain ⟨r, hr, hop⟩ := exists_mem_of_mem_compose hrs hop
  exact h r hr op hop

/-- An operation is in a union of agreeing rows if it is in one of them. -/
theorem mem_compose (hrs : ∀ r ∈ rs, r.Canonical) (h : ∀ r ∈ rs, r.Follows opFor) :
    op ∈ (compose rs).ops ↔ ∃ r ∈ rs, op ∈ r.ops := by
  refine ⟨exists_mem_of_mem_compose hrs, ?_⟩
  rintro ⟨r, hr, hop⟩
  -- the union has an operation for the label, and there is only one that it can be
  have hlabel : op.label ∈ (compose rs).labels := by
    rw [mem_labels_compose]
    exact ⟨r, hr, mem_map_of_mem hop⟩
  obtain ⟨op', hop', hl⟩ := mem_map.mp hlabel
  have heq : op' = op := by
    rw [follows_compose hrs h op' hop', hl]
    exact (h r hr op hop).symm
  exact heq ▸ hop'

/-- The union of two rows. -/
theorem mem_compose_pair (ha : a.Canonical) (hb : b.Canonical) (hfa : a.Follows opFor)
    (hfb : b.Follows opFor) :
    op ∈ (compose [a, b]).ops ↔ op ∈ a.ops ∨ op ∈ b.ops := by
  rw [mem_compose (by simp [ha, hb]) (by simpa using ⟨hfa, hfb⟩)]
  simp

end Follows

theorem tailWithin_compose_pair {bound : Nat} :
    (compose [a, b]).TailWithin bound ↔ a.TailWithin bound ∨ b.TailWithin bound := by
  simp [tailWithin_compose]

theorem canonical_compose_pair (ha : a.Canonical) (hb : b.Canonical) : (compose [a, b]).Canonical :=
  canonical_compose (by simp [ha, hb])

/-! ### Laws of rows -/

section Laws

variable {opFor : String → RowOp} {c : Row} (ha : a.Canonical) (hb : b.Canonical) (hc : c.Canonical)
  (hfa : a.Follows opFor) (hfb : b.Follows opFor) (hfc : c.Follows opFor)

include ha hb hfa hfb in
theorem compose_comm : compose [a, b] = compose [b, a] := by
  refine (canonical_compose_pair ha hb).eq_of_mem (canonical_compose_pair hb ha) (fun op => ?_)
    fun bound => ?_
  · rw [mem_compose_pair ha hb hfa hfb, mem_compose_pair hb ha hfb hfa, or_comm]
  · rw [tailWithin_compose_pair, tailWithin_compose_pair, or_comm]

include ha hb hc hfa hfb hfc in
theorem compose_assoc : compose [compose [a, b], c] = compose [a, compose [b, c]] := by
  have hab := canonical_compose_pair ha hb
  have hbc := canonical_compose_pair hb hc
  have hfab : (compose [a, b]).Follows opFor :=
    follows_compose (by simp [ha, hb]) (by simpa using ⟨hfa, hfb⟩)
  have hfbc : (compose [b, c]).Follows opFor :=
    follows_compose (by simp [hb, hc]) (by simpa using ⟨hfb, hfc⟩)
  refine (canonical_compose_pair hab hc).eq_of_mem (canonical_compose_pair ha hbc) (fun op => ?_)
    fun bound => ?_
  · rw [mem_compose_pair hab hc hfab hfc, mem_compose_pair ha hb hfa hfb,
      mem_compose_pair ha hbc hfa hfbc, mem_compose_pair hb hc hfb hfc, or_assoc]
  · simp only [tailWithin_compose_pair, or_assoc]

include ha hfa in
theorem compose_self : compose [a, a] = a := by
  refine (canonical_compose_pair ha ha).eq_of_mem ha (fun op => ?_) fun bound => ?_
  · rw [mem_compose_pair ha ha hfa hfa, or_self]
  · rw [tailWithin_compose_pair, or_self]

include ha hfa in
theorem compose_pure : compose [a, pure] = a := by
  refine (canonical_compose_pair ha canonical_pure).eq_of_mem ha (fun op => ?_) fun bound => ?_
  · rw [mem_compose_pair ha canonical_pure hfa follows_pure]
    simp [pure]
  · rw [tailWithin_compose_pair]
    simp [TailWithin, pure]

include ha hb hfa hfb in
theorem drop_compose (labels : List String) :
    (compose [a, b]).drop labels = compose [a.drop labels, b.drop labels] := by
  have hda := canonical_drop ha labels
  have hdb := canonical_drop hb labels
  refine (canonical_drop (canonical_compose_pair ha hb) labels).eq_of_mem
    (canonical_compose_pair hda hdb) (fun op => ?_) fun bound => ?_
  · rw [mem_drop, mem_compose_pair ha hb hfa hfb, mem_compose_pair hda hdb (hfa.drop labels)
      (hfb.drop labels), mem_drop, mem_drop, or_and_right]
  · exact tailWithin_compose_pair.trans tailWithin_compose_pair.symm

end Laws

/-- To drop labels one by one is to drop them all, whatever their order. -/
theorem foldl_drop (r : Row) {labels labels' : List String} (h : ∀ l, l ∈ labels' ↔ l ∈ labels) :
    labels'.foldl (fun r l => r.drop [l]) r = r.drop labels := by
  have hfold (labels : List String) (r : Row) : labels.foldl (fun r l => r.drop [l]) r = r.drop
      labels := by
    induction labels generalizing r with
    | nil => simp [drop]
    | cons l labels ih =>
      rw [foldl_cons, ih]
      simp only [drop, filter_filter, Row.mk.injEq, and_true]
      simp [Bool.and_comm]
  rw [hfold]
  simp only [drop, Row.mk.injEq, and_true]
  simp [h]

/-- A row whose tail is replaced has the operations of both rows and the tail of the second. -/
theorem substitute_of_tail {replacement : Row} {v : RowVar} (h : r.tail = some v) :
    r.substitute v replacement = ofOps (r.ops ++ replacement.ops) replacement.tail := by
  rw [substitute, if_pos h, compose]
  · simp [mergeTail]
  · simp
  · simp

end Row

/-! ### Terms -/

/-- A row that is computed from rows of a store. -/
inductive RowTerm where
  | row (id : RowId)
  | intern (ops : List RowOp) (tail : Option RowVar)
  | compose (ids : List RowId)
  | union (t u : RowTerm)
  | drop (t : RowTerm) (labels : List String)
  | substitute (t : RowTerm) (v : RowVar) (replacement : RowTerm)

namespace RowTerm

/-- The id that a term has, and the store after its parts have been computed from left to right. -/
def eval : RowTerm → RowStore → RowId × RowStore
  | .row id, s => (id, s)
  | .intern ops tail, s => s.intern ops tail
  | .compose ids, s => s.compose ids
  | .union t u, s =>
    let left := t.eval s
    let right := u.eval left.2
    right.2.compose [left.1, right.1]
  | .drop t labels, s =>
    let below := t.eval s
    below.2.drop below.1 labels
  | .substitute t v u, s =>
    let below := t.eval s
    let replacement := u.eval below.2
    replacement.2.substitute below.1 v replacement.1

def denote (get : RowId → Row) : RowTerm → Row
  | .row id => get id
  | .intern ops tail => .ofOps ops tail
  | .compose ids => .compose (ids.map get)
  | .union t u => .compose [t.denote get, u.denote get]
  | .drop t labels => (t.denote get).drop labels
  | .substitute t v u => (t.denote get).substitute v (u.denote get)

/-- The rows of the store that a term mentions are there. -/
def Over (s : RowStore) : RowTerm → Prop
  | .row id => s.Has id
  | .intern _ _ => True
  | .compose ids => ∀ id ∈ ids, s.Has id
  | .union t u => t.Over s ∧ u.Over s
  | .drop t _ => t.Over s
  | .substitute t _ u => t.Over s ∧ u.Over s

variable {s s' : RowStore} {t u : RowTerm}

theorem Over.mono (hkept : s.rows <+: s'.rows) (h : t.Over s) : t.Over s' := by
  induction t with
  | row id => exact RowStore.has_of_kept hkept h
  | intern ops tail => trivial
  | compose ids => exact fun id hid => RowStore.has_of_kept hkept (h id hid)
  | union t u iht ihu => exact ⟨iht h.1, ihu h.2⟩
  | drop t labels ih => exact ih h
  | substitute t v u iht ihu => exact ⟨iht h.1, ihu h.2⟩

/-- A store that has grown does not change what a term stands for. -/
theorem Over.denote_eq (hkept : s.rows <+: s'.rows) (h : t.Over s) :
    t.denote s'.get = t.denote s.get := by
  induction t with
  | row id => exact RowStore.get_of_kept hkept h
  | intern ops tail => rfl
  | compose ids =>
    rw [denote, denote, map_congr_left fun id hid => RowStore.get_of_kept hkept (h id hid)]
  | union t u iht ihu => rw [denote, denote, iht h.1, ihu h.2]
  | drop t labels ih => rw [denote, denote, ih h]
  | substitute t v u iht ihu => rw [denote, denote, iht h.1, ihu h.2]

/-- Two parts that are evaluated one after the other: both rows are in the store that is left. -/
theorem gives_eval_pair (hu : u.Over s)
    (iht : RowStore.Gives s (t.eval s) (t.denote s.get))
    (ihu : ∀ {s : RowStore}, s.Sound → u.Over s → RowStore.Gives s (u.eval s) (u.denote s.get)) :
    let left := t.eval s
    let right := u.eval left.2
    right.2.Sound ∧ s.rows <+: right.2.rows ∧ right.2.Has left.1 ∧ right.2.Has right.1 ∧
      right.2.get left.1 = t.denote s.get ∧ right.2.get right.1 = u.denote s.get := by
  have hright := ihu iht.sound (hu.mono iht.kept)
  refine ⟨hright.sound, iht.kept.trans hright.kept, RowStore.has_of_kept hright.kept iht.has,
    hright.has, ?_, ?_⟩
  · rw [RowStore.get_of_kept hright.kept iht.has, iht.get]
  · rw [hright.get, hu.denote_eq iht.kept]

/-- Evaluation gives the row that a term stands for. -/
theorem gives_eval (hs : s.Sound) (ht : t.Over s) :
    RowStore.Gives s (t.eval s) (t.denote s.get) := by
  induction t generalizing s with
  | row id => exact hs.gives_self ht
  | intern ops tail => exact hs.gives_intern ops tail
  | compose ids => exact hs.gives_compose ht
  | union t u iht ihu =>
    obtain ⟨hsound, hkept, hleft, hright, hl, hr⟩ := gives_eval_pair ht.2 (iht hs ht.1) ihu
    have hgives := hsound.gives_compose (show ∀ id ∈ [(t.eval s).1, (u.eval (t.eval s).2).1],
      _ by simp [hleft, hright])
    rw [map_cons, map_singleton, hl, hr] at hgives
    exact ⟨hgives.sound, hkept.trans hgives.kept, hgives.row⟩
  | drop t labels ih =>
    have hbelow := ih hs ht
    have hgives := hbelow.sound.gives_drop hbelow.has labels
    rw [hbelow.get] at hgives
    exact ⟨hgives.sound, hbelow.kept.trans hgives.kept, hgives.row⟩
  | substitute t v u iht ihu =>
    obtain ⟨hsound, hkept, hleft, hright, hl, hr⟩ := gives_eval_pair ht.2 (iht hs ht.1) ihu
    have hgives := hsound.gives_substitute hleft v hright
    rw [hl, hr] at hgives
    exact ⟨hgives.sound, hkept.trans hgives.kept, hgives.row⟩

/-- The second term, evaluated after the first one, has its id, whatever calls are made before and
in between. -/
def Repeats (s : RowStore) (t u : RowTerm) : Prop :=
  ∀ s₁ s₂, RowStore.Later s s₁ → RowStore.Later (t.eval s₁).2 s₂ → (u.eval s₂).1 = (t.eval s₁).1

/-- The terms have the same id, whichever is evaluated first. -/
def Same (s : RowStore) (t u : RowTerm) : Prop := Repeats s t u ∧ Repeats s u t

theorem repeats_of_denote_eq (hs : s.Sound) (ht : t.Over s) (hu : u.Over s)
    (h : t.denote s.get = u.denote s.get) : Repeats s t u := by
  intro s₁ s₂ hs₁ hs₂
  obtain ⟨hsound₁, hkept₁⟩ := hs₁.sound hs
  have hgives₁ := gives_eval hsound₁ (ht.mono hkept₁)
  obtain ⟨hsound₂, hkept₂⟩ := hs₂.sound hgives₁.sound
  have hkept := hkept₁.trans (hgives₁.kept.trans hkept₂)
  have hgives₂ := gives_eval hsound₂ (hu.mono hkept)
  -- in the last store both ids are there
  refine hgives₂.sound.id_eq hgives₂.has
    (RowStore.has_of_kept hgives₂.kept (RowStore.has_of_kept hkept₂ hgives₁.has)) ?_
  rw [hgives₂.get, RowStore.get_of_kept hgives₂.kept (RowStore.has_of_kept hkept₂ hgives₁.has),
    RowStore.get_of_kept hkept₂ hgives₁.has, hgives₁.get, hu.denote_eq hkept,
    ht.denote_eq hkept₁, h]

/-- **Terms that stand for the same row have the same id.** -/
theorem same_of_denote_eq (hs : s.Sound) (ht : t.Over s) (hu : u.Over s)
    (h : t.denote s.get = u.denote s.get) : Same s t u :=
  ⟨repeats_of_denote_eq hs ht hu h, repeats_of_denote_eq hs hu ht h.symm⟩

/-- The rows are composed two at a time, in this order and with any brackets. -/
inductive Folds : List RowId → RowTerm → Prop
  | none : Folds [] (.row .pure)
  | one (id : RowId) : Folds [id] (.row id)
  | union {ids ids' : List RowId} {t u : RowTerm} (ht : Folds ids t) (hu : Folds ids' u) :
      Folds (ids ++ ids') (.union t u)

/-- What a fold stands for: a canonical row with the operations of all rows, and the smallest of
their tails. -/
theorem Folds.denote_spec {ids : List RowId} (h : Folds ids t) (hs : s.Sound)
    (hids : ∀ id ∈ ids, s.Has id) {opFor : String → RowOp}
    (hfollows : ∀ id ∈ ids, (s.get id).Follows opFor) :
    t.Over s ∧ (t.denote s.get).Canonical ∧ (t.denote s.get).Follows opFor ∧
      (∀ op, op ∈ (t.denote s.get).ops ↔ ∃ id ∈ ids, op ∈ (s.get id).ops) ∧
      ∀ bound, (t.denote s.get).TailWithin bound ↔ ∃ id ∈ ids, (s.get id).TailWithin bound := by
  induction h with
  | none =>
    have hpure : s.get .pure = Row.pure := RowStore.get_of_getElem? hs.pure
    have hhas : s.Has .pure := RowStore.has_of_getElem? hs.pure
    rw [denote, hpure]
    exact ⟨hhas, Row.canonical_pure, Row.follows_pure, by simp [Row.pure], by simp [Row.pure,
      Row.TailWithin]⟩
  | one id =>
    obtain ⟨hid, -⟩ := forall_mem_cons.mp hids
    exact ⟨hid, hs.canonical_get hid, hfollows id mem_cons_self, by simp [denote], by simp [denote]⟩
  | union ht hu iht ihu =>
    obtain ⟨hids, hids'⟩ := forall_mem_append.mp hids
    obtain ⟨hfollows, hfollows'⟩ := forall_mem_append.mp hfollows
    obtain ⟨hover, hcanonical, hf, hmem, htail⟩ := iht hids hfollows
    obtain ⟨hover', hcanonical', hf', hmem', htail'⟩ := ihu hids' hfollows'
    refine ⟨⟨hover, hover'⟩, Row.canonical_compose_pair hcanonical hcanonical',
      Row.follows_compose (by simp [hcanonical, hcanonical']) (by simpa using ⟨hf, hf'⟩),
      fun op => ?_, fun bound => ?_⟩
    · rw [denote, Row.mem_compose_pair hcanonical hcanonical' hf hf', hmem, hmem']
      simp only [mem_append, or_and_right, exists_or]
    · rw [denote, Row.tailWithin_compose_pair, htail, htail']
      simp only [mem_append, or_and_right, exists_or]

/-- To compose rows all at once is to compose them two at a time in any order. -/
theorem Folds.denote_eq {ids ids' : List RowId} (h : Folds ids' t) (hperm : ids'.Perm ids)
    (hs : s.Sound) (hids : ∀ id ∈ ids, s.Has id) {opFor : String → RowOp}
    (hfollows : ∀ id ∈ ids, (s.get id).Follows opFor) :
    t.Over s ∧ Row.compose (ids.map s.get) = t.denote s.get := by
  obtain ⟨hover, hcanonical, -, hmem, htail⟩ :=
    h.denote_spec hs (fun id hid => hids id (hperm.mem_iff.mp hid))
      fun id hid => hfollows id (hperm.mem_iff.mp hid)
  have hrows : ∀ r ∈ ids.map s.get, r.Canonical := by
    simpa using fun id hid => hs.canonical_get (hids id hid)
  have hagree : ∀ r ∈ ids.map s.get, r.Follows opFor := by
    simpa using hfollows
  refine ⟨hover, (Row.canonical_compose hrows).eq_of_mem hcanonical (fun op => ?_) fun bound => ?_⟩
  · rw [Row.mem_compose hrows hagree, hmem]
    simp [hperm.mem_iff]
  · rw [Row.tailWithin_compose, htail]
    simp [hperm.mem_iff]

end RowTerm

open RowTerm (Same Folds)

theorem RowTerm.denote_foldl_drop {s : RowStore} (labels : List String) {t : RowTerm}
    (ht : t.Over s) :
    (labels.foldl (fun t l => .drop t [l]) t).Over s ∧
      (labels.foldl (fun t l => .drop t [l]) t).denote s.get =
        labels.foldl (fun r l => r.drop [l]) (t.denote s.get) := by
  induction labels generalizing t with
  | nil => exact ⟨ht, rfl⟩
  | cons l labels ih =>
    have hnext : (RowTerm.drop t [l]).Over s := ht
    exact ih hnext

namespace RowStore

/-- **Laws of rows are laws of ids.** Let `a`, `b`, `c` be rows of a store that calls have made, in
which operations with one label are equal.  Union is commutative, associative and idempotent with
the pure row as its identity, and dropping labels goes through it.  Labels may be dropped one by one
in any order.  Replacing a variable that is not the tail of a row changes nothing; else the result
has the operations of both rows and the tail of the second.  A list of agreeing rows may be composed
two at a time in any order. -/
theorem Later.algebra {s : RowStore} (hs : Later {} s) {a b c : RowId} (ha : s.Has a) (hb : s.Has b)
    (hc : s.Has c) (hagree : Row.Agree [s.get a, s.get b, s.get c]) :
    Same s (.union (.row a) (.row b)) (.union (.row b) (.row a)) ∧
    Same s (.union (.union (.row a) (.row b)) (.row c))
    (.union (.row a) (.union (.row b) (.row c))) ∧ Same s (.union (.row a) (.row a)) (.row a) ∧
    Same s (.union (.row a) (.row .pure)) (.row a) ∧
    Same s (.union (.row .pure) (.row a)) (.row a) ∧
    (∀ labels, Same s (.drop (.union (.row a) (.row b)) labels)
      (.union (.drop (.row a) labels) (.drop (.row b) labels))) ∧
    (∀ labels labels' : List String, (∀ l, l ∈ labels' ↔ l ∈ labels) →
      Same s (.drop (.row a) labels) (labels'.foldl (fun t l => .drop t [l]) (.row a))) ∧
    (∀ v r, s.Has r → (s.get a).tail ≠ some v → Same s (.substitute (.row a) v (.row r)) (.row a)) ∧
    (∀ v r, s.Has r → (s.get a).tail = some v →
      Same s (.substitute (.row a) v (.row r))
      (.intern ((s.get a).ops ++ (s.get r).ops) (s.get r).tail)) ∧
    ∀ ids ids' t, (∀ id ∈ ids, s.Has id) → Row.Agree (ids.map s.get) → ids'.Perm ids →
      Folds ids' t → Same s (.compose ids) t := by
  obtain ⟨h, -⟩ := hs.sound Sound.start
  -- rows that agree have one operation for each label, which makes merging commute
  obtain ⟨opFor, hfollows⟩ := hagree.exists_follows
  have hfa : (s.get a).Follows opFor := hfollows _ (by simp)
  have hfb : (s.get b).Follows opFor := hfollows _ (by simp)
  have hfc : (s.get c).Follows opFor := hfollows _ (by simp)
  have hca := h.canonical_get ha
  have hcb := h.canonical_get hb
  have hcc := h.canonical_get hc
  have hpure : s.get .pure = Row.pure := get_of_getElem? h.pure
  have hhas : s.Has .pure := has_of_getElem? h.pure
  refine ⟨?_, ?_, ?_, ?_, ?_, ?_, ?_, ?_, ?_, ?_⟩
  · exact RowTerm.same_of_denote_eq h ⟨ha, hb⟩ ⟨hb, ha⟩ (Row.compose_comm hca hcb hfa hfb)
  · exact RowTerm.same_of_denote_eq h ⟨⟨ha, hb⟩, hc⟩ ⟨ha, hb, hc⟩
      (Row.compose_assoc hca hcb hcc hfa hfb hfc)
  · exact RowTerm.same_of_denote_eq h ⟨ha, ha⟩ ha (Row.compose_self hca hfa)
  · refine RowTerm.same_of_denote_eq h ⟨ha, hhas⟩ ha ?_
    show Row.compose [s.get a, s.get .pure] = s.get a
    rw [hpure, Row.compose_pure hca hfa]
  · refine RowTerm.same_of_denote_eq h ⟨hhas, ha⟩ ha ?_
    show Row.compose [s.get .pure, s.get a] = s.get a
    rw [hpure, Row.compose_comm Row.canonical_pure hca Row.follows_pure hfa,
      Row.compose_pure hca hfa]
  · exact fun labels => RowTerm.same_of_denote_eq h ⟨ha, hb⟩ ⟨ha, hb⟩
      (Row.drop_compose hca hcb hfa hfb labels)
  · intro labels labels' hlabels
    have hterm : RowTerm.Over s (.row a) := ha
    obtain ⟨hover, hdenote⟩ := RowTerm.denote_foldl_drop labels' hterm
    refine RowTerm.same_of_denote_eq h hterm hover ?_
    rw [hdenote]
    exact (Row.foldl_drop _ hlabels).symm
  · exact fun v r hr hv => RowTerm.same_of_denote_eq h ⟨ha, hr⟩ ha (if_neg hv)
  · exact fun v r hr hv => RowTerm.same_of_denote_eq h ⟨ha, hr⟩ trivial (Row.substitute_of_tail hv)
  · intro ids ids' t hids hagree hperm hfolds
    obtain ⟨opFor, hfollows⟩ := hagree.exists_follows
    obtain ⟨hover, hdenote⟩ :=
      hfolds.denote_eq hperm h hids fun id hid => hfollows _ (mem_map_of_mem hid)
    exact RowTerm.same_of_denote_eq h hids hover hdenote

/-- The open row and the closed row share an operation; their union is the same in both orders, and
is the open row. -/
theorem Later.algebra_logAndState :
    Row.Agree [logAndState.get ⟨1⟩, logAndState.get ⟨2⟩, logAndState.get .pure] ∧
    (let first := logAndState.compose [⟨1⟩, ⟨2⟩]
     first.1 = ⟨1⟩ ∧ (first.2.compose [⟨2⟩, ⟨1⟩]).1 = first.1) ∧
    let closed := logAndState.substitute ⟨1⟩ ⟨0⟩ ⟨2⟩
    closed.1 = ⟨3⟩ ∧ (closed.2.intern ((logAndState.get ⟨1⟩).ops ++ (logAndState.get ⟨2⟩).ops)
    none).1 = closed.1 := by
  have hhas (i : Nat) (hi : i < 3) : logAndState.Has ⟨i⟩ := Nat.lt_of_lt_of_eq hi (by decide)
  have hagree : Row.Agree [logAndState.get ⟨1⟩, logAndState.get ⟨2⟩, logAndState.get .pure] := by
    unfold Row.Agree
    decide
  obtain ⟨hcomm, -, -, -, -, -, -, -, hsubst, -⟩ := later_logAndState.algebra (hhas 1 (by decide))
    (hhas 2 (by decide)) (hhas 0 (by decide)) hagree
  refine ⟨hagree, ⟨by decide, hcomm.1 _ _ .refl .refl⟩, by decide, ?_⟩
  exact (hsubst ⟨0⟩ ⟨2⟩ (hhas 2 (by decide)) (by decide)).1 _ _ .refl .refl

end RowStore

end Effectful
