import Effectful.Analysis.Inference
import Effectful.Proofs.Assoc
import Mathlib.Data.List.Nodup
/-!
# Rounds of inference

Inference changes the rows in place while it goes over the functions.  The rows themselves need not
settle in any simple way, since of several operations with one label the first one met stands for
all. So the rounds are followed through a property `Q` of rows, such as "the row has this label" or
"the row is open", of which only two things are asked (`Program.Tracks`): the pure row does not have
it, and what is found for a function keeps it when more functions have it.

For such a property the functions whose rows have it are a set that only grows, and a round that
adds no function leaves it *closed*: the row of a function has the property where the body gives
it.  There are more rounds than functions, so in the end the set is closed and supported
(`Tracks.functionRow_iff`), and it lies in every set that is closed under the passes over the
functions (`Tracks.of_functionRow`).
-/

namespace Effectful.Program

open List

variable {p : Program} {exhaustive : Bool} {Q : Row → Prop} {rows : List (DefId × Row)}

/-- The row of a function, as far as it is known. -/
def rowIn (rows : List (DefId × Row)) (d : DefId) : Row := (Assoc.get? rows d).getD .pure

/-- Inference keeps track of a property of rows: more functions with the property never take it away
from what is found. -/
structure Tracks (p : Program) (exhaustive : Bool) (Q : Row → Prop) : Prop where
  not_pure : ¬ Q .pure
  mono : ∀ {rows rows' : List (DefId × Row)} (f : FnDecl),
    (∀ d, Q (rowIn rows d) → Q (rowIn rows' d)) → Q (p.inferFunction exhaustive rows f).row →
    Q (p.inferFunction exhaustive rows' f).row

/-- A row has the property only where a pass over the function finds it. -/
def Supported (p : Program) (exhaustive : Bool) (Q : Row → Prop) (rows : List (DefId × Row)) :
    Prop :=
  ∀ f ∈ p.functions, Q (rowIn rows f.id) → Q (p.inferFunction exhaustive rows f).row

/-- A row has the property wherever a pass over the function finds it. -/
def Closed (p : Program) (exhaustive : Bool) (Q : Row → Prop) (rows : List (DefId × Row)) : Prop :=
  ∀ f ∈ p.functions, Q (p.inferFunction exhaustive rows f).row → Q (rowIn rows f.id)

/-- The rows after one function was worked out. -/
def inferStep (p : Program) (exhaustive : Bool) (rows : List (DefId × Row)) (f : FnDecl) :
    List (DefId × Row) :=
  Assoc.set rows f.id (p.inferFunction exhaustive rows f).row

theorem rowIn_inferStep (rows : List (DefId × Row)) (f : FnDecl) (d : DefId) :
    rowIn (p.inferStep exhaustive rows f) d =
      if d = f.id then (p.inferFunction exhaustive rows f).row else rowIn rows d := by
  rw [rowIn, inferStep, Assoc.get?_set]
  split <;> rfl

/-- The functions of a program have ids of their own. -/
def DistinctFunctions (p : Program) : Prop := (p.functions.map (·.id)).Nodup

instance : Decidable p.DistinctFunctions := inferInstanceAs (Decidable (List.Nodup _))

theorem DistinctFunctions.eq_of_id (hp : p.DistinctFunctions) {f g : FnDecl} (hf : f ∈ p.functions)
    (hg : g ∈ p.functions) (h : f.id = g.id) : f = g :=
  inj_on_of_nodup_map hp hf hg h

/-! ### One function -/

section Step

variable {f : FnDecl} (hf : f ∈ p.functions) (hs : p.Supported exhaustive Q rows)
include hf hs

/-- One function worked out takes the property away from no row. -/
theorem Supported.rowIn_inferStep {d : DefId} (h : Q (rowIn rows d)) :
    Q (rowIn (p.inferStep exhaustive rows f) d) := by
  rw [Program.rowIn_inferStep]
  split
  · rename_i hd
    exact hs f hf (hd ▸ h)
  · exact h

theorem Supported.inferStep (hQ : p.Tracks exhaustive Q) (hp : p.DistinctFunctions) :
    p.Supported exhaustive Q (p.inferStep exhaustive rows f) := by
  intro g hg h
  rw [Program.rowIn_inferStep] at h
  refine hQ.mono g (fun d => hs.rowIn_inferStep hf) ?_
  split at h
  · rename_i hid
    rwa [hp.eq_of_id hg hf hid]
  · exact hs g hg h

theorem Closed.inferStep (hQ : p.Tracks exhaustive Q) (hc : p.Closed exhaustive Q rows) :
    p.Closed exhaustive Q (p.inferStep exhaustive rows f) := by
  -- the rows with the property are those of before, so the passes find what they found before
  have same (d : DefId) (h : Q (rowIn (p.inferStep exhaustive rows f) d)) : Q (rowIn rows d) := by
    rw [Program.rowIn_inferStep] at h
    split at h
    · rename_i hd
      exact hd ▸ hc f hf h
    · exact h
  exact fun g hg h => hs.rowIn_inferStep hf (hc g hg (hQ.mono g same h))

end Step

/-! ### One round -/

/-- What a round does, from any part of the round on. -/
theorem Supported.foldl_inferStep (hQ : p.Tracks exhaustive Q) (hp : p.DistinctFunctions)
    {fs : List FnDecl} (hfs : ∀ f ∈ fs, f ∈ p.functions) (hs : p.Supported exhaustive Q rows) :
    p.Supported exhaustive Q (fs.foldl (p.inferStep exhaustive) rows) ∧
      (∀ d, Q (rowIn rows d) → Q (rowIn (fs.foldl (p.inferStep exhaustive) rows) d)) ∧
      (∀ f ∈ fs, Q (p.inferFunction exhaustive rows f).row →
        Q (rowIn (fs.foldl (p.inferStep exhaustive) rows) f.id)) ∧
      (p.Closed exhaustive Q rows → p.Closed exhaustive Q
        (fs.foldl (p.inferStep exhaustive) rows)) := by
  induction fs generalizing rows with
  | nil => exact ⟨hs, fun _ h => h, by simp, id⟩
  | cons f fs ih =>
    have hf := hfs f mem_cons_self
    have grows (d : DefId) := hs.rowIn_inferStep hf (d := d)
    obtain ⟨hs', hgrow, hfind, hclosed⟩ :=
      ih (fun g hg => hfs g (mem_cons_of_mem _ hg)) (hs.inferStep hf hQ hp)
    refine ⟨hs', fun d h => hgrow d (grows d h), fun g hg h => ?_,
      fun hc => hclosed (Closed.inferStep hf hs hQ hc)⟩
    obtain rfl | hg := mem_cons.mp hg
    · refine hgrow _ ?_
      rwa [Program.rowIn_inferStep, if_pos rfl]
    · exact hfind g hg (hQ.mono g grows h)

open Classical in
/-- The number of functions whose row has the property. -/
noncomputable def countHas (p : Program) (Q : Row → Prop) (rows : List (DefId × Row)) : Nat :=
  p.functions.countP fun f => Q (rowIn rows f.id)

/-- A round that has something to add gives the property to one more row. -/
theorem Supported.countHas_lt (hQ : p.Tracks exhaustive Q) (hp : p.DistinctFunctions)
    (hs : p.Supported exhaustive Q rows) (hc : ¬ p.Closed exhaustive Q rows) :
    p.countHas Q rows < p.countHas Q (p.inferRound exhaustive rows) := by
  obtain ⟨-, hgrow, hfind, -⟩ := hs.foldl_inferStep hQ hp fun f hf => hf
  simp only [Closed, not_forall] at hc
  obtain ⟨f, hf, hfound, hnot⟩ := hc
  classical
  obtain ⟨before, after, hsplit⟩ := append_of_mem hf
  have grows (fs : List FnDecl) :
      fs.countP (fun f => Q (rowIn rows f.id)) ≤
        fs.countP fun f => Q (rowIn (p.inferRound exhaustive rows) f.id) :=
    countP_mono_left fun f _ h => decide_eq_true (hgrow f.id (of_decide_eq_true h))
  have hnew : Q (rowIn (p.inferRound exhaustive rows) f.id) := hfind f hf hfound
  have hb := grows before
  have ha := grows after
  simp only [countHas, hsplit, countP_append, countP_cons, hnot, hnew, decide_false,
    decide_true, Bool.false_eq_true, ↓reduceIte]
  omega

/-! ### All rounds -/

/-- Rounds leave the property supported, and closed if there are more of them than rows that may
still get it. -/
theorem Supported.inferRounds (hQ : p.Tracks exhaustive Q) (hp : p.DistinctFunctions) {n : Nat}
    (hs : p.Supported exhaustive Q rows)
    (h : p.Closed exhaustive Q rows ∨ p.functions.length < n + p.countHas Q rows) :
    p.Supported exhaustive Q (p.inferRounds exhaustive n rows) ∧
      p.Closed exhaustive Q (p.inferRounds exhaustive n rows) := by
  induction n generalizing rows with
  | zero =>
    refine ⟨hs, h.resolve_right ?_⟩
    have : p.countHas Q rows ≤ p.functions.length := countP_le_length
    omega
  | succ n ih =>
    obtain ⟨hs', -, hfind, hclosed⟩ := hs.foldl_inferStep hQ hp fun f hf => hf
    change p.Supported exhaustive Q (p.inferRound exhaustive rows) at hs'
    change p.Closed exhaustive Q rows → p.Closed exhaustive Q
      (p.inferRound exhaustive rows) at hclosed
    rw [Program.inferRounds]
    split
    · rename_i hsame
      refine ⟨hs, fun f hf hfound => ?_⟩
      rw [← hsame]
      exact hfind f hf hfound
    · refine ih hs' ?_
      by_cases hc : p.Closed exhaustive Q rows
      · exact .inl (hclosed hc)
      · have := hs.countHas_lt hQ hp hc
        have := h.resolve_left hc
        exact .inr (by omega)

/-- **The final rows are a fixed point**: the row of a function has the property exactly where a
pass over the function with the final rows finds it. -/
theorem Tracks.functionRow_iff (hQ : p.Tracks exhaustive Q) (hp : p.DistinctFunctions) {f : FnDecl}
    (hf : f ∈ p.functions) :
    Q ((p.analyze exhaustive).functionRow f.id) ↔
      Q (p.inferFunction exhaustive (p.analyze exhaustive).rows f).row := by
  have hs : p.Supported exhaustive Q [] := fun f _ h => absurd h hQ.not_pure
  obtain ⟨hsupported, hclosed⟩ := hs.inferRounds hQ hp (n := p.roundLimit)
    (.inr (by rw [roundLimit]; omega))
  exact ⟨hsupported f hf, hclosed f hf⟩

section Least

variable {S : DefId → Prop}

/-- One round stays within a set of functions that is closed under the passes over them. -/
theorem of_foldl_inferStep {fs : List FnDecl}
    (hS : ∀ (rows : List (DefId × Row)), ∀ f ∈ fs, (∀ d, Q (rowIn rows d) → S d) →
      Q (p.inferFunction exhaustive rows f).row → S f.id)
    (hrows : ∀ d, Q (rowIn rows d) → S d) (d : DefId)
    (h : Q (rowIn (fs.foldl (p.inferStep exhaustive) rows) d)) : S d := by
  induction fs generalizing rows with
  | nil => exact hrows d h
  | cons f fs ih =>
    refine ih (fun rows g hg => hS rows g (mem_cons_of_mem _ hg)) (fun d' h' => ?_) h
    rw [rowIn_inferStep] at h'
    split at h'
    · rename_i hd
      exact hd ▸ hS rows f mem_cons_self hrows h'
    · exact hrows d' h'

theorem of_inferRounds {n : Nat}
    (hS : ∀ (rows : List (DefId × Row)), ∀ f ∈ p.functions, (∀ d, Q (rowIn rows d) → S d) →
      Q (p.inferFunction exhaustive rows f).row → S f.id)
    (hrows : ∀ d, Q (rowIn rows d) → S d) (d : DefId)
    (h : Q (rowIn (p.inferRounds exhaustive n rows) d)) : S d := by
  induction n generalizing rows with
  | zero => exact hrows d h
  | succ n ih =>
    rw [Program.inferRounds] at h
    split at h
    · exact hrows d h
    · exact ih (of_foldl_inferStep hS hrows) h

/-- **The final rows hold nothing beyond**: a set of functions has every function whose row has the
property, if it has each function for which a pass finds it, given rows that keep to the set. -/
theorem Tracks.of_functionRow (hQ : p.Tracks exhaustive Q)
    (hS : ∀ (rows : List (DefId × Row)), ∀ f ∈ p.functions, (∀ d, Q (rowIn rows d) → S d) →
      Q (p.inferFunction exhaustive rows f).row → S f.id) (d : DefId)
    (h : Q ((p.analyze exhaustive).functionRow d)) : S d := by
  have hstart (d : DefId) (h : Q (rowIn [] d)) : S d := absurd h hQ.not_pure
  exact of_inferRounds hS hstart d h

end Least

end Effectful.Program
