import Effectful.Proofs.LiveLocals
import Mathlib.Data.List.Nodup
import Mathlib.Data.List.Perm.Subperm
/-!
# The rounds of a loop

Liveness goes round a loop until a round adds no local (`Liveness.Settles`).  Sets of locals are
lists in ascending order, so a round that adds none gives the same list, and each of the others
makes it longer.  All members are locals that the unit mentions, and the bound on the rounds is
above the number of those.  So the rounds come to their end before the bound (`Expr.settles_live`).
-/

namespace Effectful

open List

/-! ### Sets in ascending order -/

namespace LocalSet

variable {s t : LocalSet} {l m : LocalId}

/-- The members are in ascending order, each once. -/
def Ascending (s : LocalSet) : Prop := s.Pairwise (·.index < ·.index)

theorem Ascending.nodup (h : s.Ascending) : s.Nodup :=
  h.imp fun hlt heq => absurd (heq ▸ hlt) (Nat.lt_irrefl _)

/-- A set is given by its members. -/
theorem Ascending.ext (hs : s.Ascending) (ht : t.Ascending) (h : ∀ l, l ∈ s ↔ l ∈ t) : s = t :=
  ((perm_ext_iff_of_nodup hs.nodup ht.nodup).mpr h).eq_of_pairwise
    (fun _ _ _ _ hlt hgt => absurd (Nat.lt_trans hlt hgt) (Nat.lt_irrefl _)) hs ht

/-- Sets of locals are kept in ascending order, so equal sets are equal lists. -/
theorem Ascending.insert (h : s.Ascending) (l : LocalId) : (insert l s).Ascending := by
  induction s with
  | nil => exact pairwise_singleton _ _
  | cons m s ih =>
    obtain ⟨hm, hs⟩ := pairwise_cons.mp h
    rw [LocalSet.insert]
    split
    · exact h
    · rename_i hne
      split
      · rename_i hlt
        refine pairwise_cons.mpr ⟨forall_mem_cons.mpr ⟨hlt, fun x hx => ?_⟩, h⟩
        exact Nat.lt_trans hlt (hm x hx)
      · rename_i hnot
        refine pairwise_cons.mpr ⟨fun x hx => ?_, ih hs⟩
        obtain rfl | hx := mem_insert.mp hx
        · have hindex : x.index ≠ m.index :=
            fun heq => hne (by cases x; cases m; exact congrArg LocalId.mk heq)
          omega
        · exact hm x hx

theorem Ascending.union (h : s.Ascending) (t : LocalSet) : (union s t).Ascending := by
  induction t generalizing s with
  | nil => exact h
  | cons l t ih => exact ih (h.insert l)

theorem ascending_ofList (ls : List LocalId) : (ofList ls).Ascending :=
  Ascending.union List.Pairwise.nil ls

theorem union_nil (s : LocalSet) : LocalSet.union s [] = s := rfl

theorem nil_union (h : s.Ascending) : LocalSet.union [] s = s :=
  (Ascending.union List.Pairwise.nil s).ext h (by simp)

/-- A union that adds nothing leaves the list as it is. -/
theorem union_eq_right_iff (hs : s.Ascending) (ht : t.Ascending) :
    LocalSet.union s t = t ↔ ∀ l ∈ s, l ∈ t := by
  constructor
  · intro h l hl
    exact h ▸ mem_union.mpr (.inl hl)
  · intro h
    refine (hs.union t).ext ht fun l => ?_
    rw [mem_union]
    exact ⟨fun hl => hl.elim (h l) id, .inr⟩

structure Among (ls : List LocalId) (s : LocalSet) : Prop where
  ascending : s.Ascending
  mem : ∀ l ∈ s, l ∈ ls

theorem closed_among (ls : List LocalId) : Closed (· ∈ ls) (Among ls) where
  nil := ⟨List.Pairwise.nil, by simp⟩
  mem h := h.mem
  insert h hl := ⟨h.ascending.insert _, (closed_forall (· ∈ ls)).insert h.mem hl⟩
  erase h := ⟨h.ascending.filter _, (closed_forall (· ∈ ls)).erase h.mem⟩

/-- A set of some locals is no longer than their list. -/
theorem Among.length_le {ls : List LocalId} (h : Among ls s) : s.length ≤ ls.length :=
  (subperm_of_subset h.ascending.nodup h.mem).length_le

end LocalSet

/-! ### Rounds -/

namespace Liveness

variable {round : LocalSet → Liveness} {head : LocalSet} {r : Liveness} {ls : List LocalId}

/-- Going round from the locals live at the head of a loop, for as long as it takes, until a round
adds none. -/
inductive Settles (round : LocalSet → Liveness) : (head : LocalSet) → (r : Liveness) → Prop where
  | done {head : LocalSet} (h : LocalSet.union (round head).before head = head) :
    Settles round head { round head with before := head }
  | more {head : LocalSet} {r : Liveness} (h : LocalSet.union (round head).before head ≠ head)
    (rest : Settles round (LocalSet.union (round head).before head) r) : Settles round head r

/-- What comes out is a round from the locals that come out, and this round adds none. -/
theorem Settles.stable (h : Settles round head r) :
    r.after = (round r.before).after ∧ ∀ l ∈ (round r.before).before, l ∈ r.before := by
  induction h with
  | done h => exact ⟨rfl, fun l hl => h ▸ LocalSet.mem_union.mpr (.inl hl)⟩
  | more _ _ ih => exact ih

/-- **Rounds come to an end** if there are only so many locals, and the bound on the rounds is not
met. -/
theorem settles_fixpoint (hround : ∀ head, LocalSet.Among ls head → (round head).Within
      (LocalSet.Among ls))
    (bound : Nat) (hhead : LocalSet.Among ls head) (hbound : ls.length < head.length + bound) :
    Settles round head (fixpoint round bound head) := by
  induction bound generalizing head with
  | zero => exact absurd hhead.length_le (by omega)
  | succ bound ih =>
    have hfound := (hround head hhead).before
    have hnext := (LocalSet.closed_among ls).union hfound hhead.mem
    rw [fixpoint]
    split
    · rename_i heq
      exact .done heq
    · rename_i hne
      refine .more hne (ih hnext ?_)
      -- the round added a local
      have hlonger : head.length < (LocalSet.union (round head).before head).length := by
        obtain ⟨l, hl, hnew⟩ : ∃ l ∈ (round head).before, l ∉ head := by
          by_contra hall
          push Not at hall
          exact hne ((LocalSet.union_eq_right_iff hfound.ascending hhead.ascending).mpr hall)
        have hcons : (l :: head).Nodup := nodup_cons.mpr ⟨hnew, hhead.ascending.nodup⟩
        refine (subperm_of_subset hcons ?_).length_le
        intro m hm
        obtain rfl | hm := mem_cons.mp hm
        · exact LocalSet.mem_union.mpr (.inl hl)
        · exact LocalSet.mem_union.mpr (.inr hm)
      omega

end Liveness

/-! ### Loops -/

/-- One round of a loop: from the locals live at its head, with those that are live behind it. -/
def Form.round? (c : LivenessContext) (targets : LoopTargets) (out : LocalSet) :
    Form → Option (LocalSet → Liveness)
  | .loop body => some fun head => body.live c ⟨out, head⟩ head
  | .whileLoop cond body => some fun head =>
    let found := body.live c ⟨out, head⟩ head
    (cond.live c targets (LocalSet.union found.before out)).andThen found.after
  | _ => none

namespace Expr

variable {c : LivenessContext} {ls : List LocalId} {x : Expr} {targets : LoopTargets}
  {out : LocalSet} {round : LocalSet → Liveness}

theorem live_of_round? (h : x.form.round? c targets out = some round) :
    x.live c targets out = Liveness.fixpoint round c.bound [] := by
  obtain ⟨id, form, ty, span⟩ := x
  cases form <;> cases h <;> rfl

/-- **The analysis of a loop ends.** -/
theorem settles_live (hforced : LocalSet.Among ls c.forced) (hbound : ls.length < c.bound)
    (hx : ∀ y ∈ x.walk, y.MentionsOnly c.units (· ∈ ls))
    (htargets : targets.Within (LocalSet.Among ls)) (hout : LocalSet.Among ls out)
    (h : x.form.round? c targets out = some round) :
    Liveness.Settles round [] (x.live c targets out) := by
  have hP := LocalSet.closed_among ls
  have hpart (e : Expr) (he : e ∈ x.form.children) : e.LiveWithin c (LocalSet.Among ls) :=
    within_live hP hforced fun y hy => hx y (walk_subset_of_mem_children he hy)
  rw [live_of_round? h]
  refine Liveness.settles_fixpoint (fun head hhead => ?_) c.bound hP.nil (by simpa using hbound)
  cases hform : x.form with
  | loop body =>
    rw [hform] at h hpart
    cases h
    exact hpart body (by simp [Form.children]) ⟨out, head⟩ head ⟨hout, hhead⟩ hhead
  | whileLoop cond body =>
    rw [hform] at h hpart
    cases h
    have hbody := hpart body (by simp [Form.children]) ⟨out, head⟩ head ⟨hout, hhead⟩ hhead
    exact (hpart cond (by simp [Form.children]) targets _ htargets
      (hP.union hbody.before hout.mem)).andThen hbody.after
  | _ =>
    rw [hform] at h
    cases h

def mentions (units : LiftedProgram) (x : Expr) : List LocalId :=
  x.form.usedLocals ++
    match units.handle? x.id with
    | some h => h.bodyArgs ++ h.driveArgs
    | none => []

def mentioned (units : LiftedProgram) (e : Expr) : List LocalId := e.walk.flatMap (mentions units)

theorem roundBound_eq (units : LiftedProgram) (e : Expr) :
    e.roundBound units = (e.mentioned units).length := by
  have hsum (xs : List Expr) (start : Nat) :
      (xs.map fun x => (x.mentions units).length).foldl (· + ·) start = start +
        (xs.flatMap (mentions units)).length := by
    induction xs generalizing start with
    | nil => rfl
    | cons x xs ih => rw [map_cons, foldl_cons, ih, flatMap_cons, length_append, Nat.add_assoc]
  rw [mentioned, ← Nat.zero_add (List.length _), ← hsum, roundBound]
  congr 2
  funext x
  rw [mentions, length_append]
  cases units.handle? x.id <;> simp

/-- An expression mentions what it mentions. -/
theorem mentionsOnly_of_mem_walk {units : LiftedProgram} {e : Expr} (hx : x ∈ e.walk) :
    x.MentionsOnly units (· ∈ e.mentioned units) := by
  refine ⟨fun l hl => ?_, fun _ h hh l hl => ?_⟩
  · exact mem_flatMap.mpr ⟨x, hx, mem_append_left _ hl⟩
  · exact mem_flatMap.mpr ⟨x, hx, mem_append_right _ (by rw [hh]; exact hl)⟩

end Expr

end Effectful
