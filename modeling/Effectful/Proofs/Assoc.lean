import Effectful.Assoc
import Mathlib.Data.List.Basic
/-!
# Laws of finite maps

What `Assoc.get?` finds after `Assoc.set`, and after a list of entries is put into a map one by one.
-/

namespace Effectful.Assoc

variable {κ α β : Type} [DecidableEq κ] {m : List (κ × α)} {k : κ} {v : α} {entries : List β}

@[simp]
theorem get?_nil (k : κ) : get? ([] : List (κ × α)) k = none := rfl

theorem get?_cons (k' : κ) (v : α) (m : List (κ × α)) (k : κ) :
    get? ((k', v) :: m) k = if k = k' then some v else get? m k := by
  simp only [get?, List.lookup_cons, beq_eq_decide]
  by_cases h : k = k' <;> simp [h]

theorem mem_of_get? (h : get? m k = some v) : (k, v) ∈ m := by
  obtain ⟨before, behind, rfl, -⟩ := List.lookup_eq_some_iff.mp h
  simp

theorem exists_get? (h : k ∈ m.map (·.1)) : ∃ v, get? m k = some v := by
  induction m with
  | nil => cases h
  | cons entry m ih =>
    obtain ⟨key, v⟩ := entry
    rw [get?_cons]
    split
    · exact ⟨v, rfl⟩
    · rename_i hne
      exact ih ((List.mem_cons.mp h).resolve_left hne)

theorem get?_set (m : List (κ × α)) (k k' : κ) (v : α) :
    get? (set m k v) k' = if k' = k then some v else get? m k' := by
  induction m with
  | nil => simp [set, get?_cons]
  | cons entry m ih =>
    obtain ⟨key, w⟩ := entry
    by_cases h : key = k
    · subst h
      simp only [set, beq_self_eq_true, ↓reduceIte, get?_cons]
      split <;> rfl
    · have h' : (key == k) = false := by simpa using h
      simp only [set, h', Bool.false_eq_true, ↓reduceIte, get?_cons, ih]
      by_cases hk : k' = key
      · subst hk
        simp [h]
      · simp [hk]

/-- Setting a key to the value that it has changes nothing. -/
theorem set_eq_self (h : get? m k = some v) : set m k v = m := by
  induction m with
  | nil => cases h
  | cons entry m ih =>
    obtain ⟨key, w⟩ := entry
    rw [get?_cons] at h
    rw [set]
    by_cases hk : k = key
    · rw [if_pos hk] at h
      simp [hk, Option.some.inj h]
    · rw [if_neg hk] at h
      simp [Ne.symm hk, ih h]

/-- A key keeps its value while entries are put in that agree with it. -/
theorem get?_foldl_set_of_some (key : β → κ) (val : β → α) (hm : get? m k = some v)
    (h : ∀ b ∈ entries, key b = k → val b = v) :
    get? (entries.foldl (fun m b => set m (key b) (val b)) m) k = some v := by
  induction entries generalizing m with
  | nil => exact hm
  | cons b entries ih =>
    refine ih ?_ fun b hb => h b (List.mem_cons_of_mem _ hb)
    rw [get?_set]
    split
    · rename_i hk
      rw [h b List.mem_cons_self hk.symm]
    · exact hm

/-- A key that is put in has the value on which all its entries agree. -/
theorem get?_foldl_set (key : β → κ) (val : β → α) {b : β} (m : List (κ × α)) (hb : b ∈ entries)
    (h : ∀ b' ∈ entries, key b' = key b → val b' = val b) :
    get? (entries.foldl (fun m b => set m (key b) (val b)) m) (key b) = some (val b) := by
  induction entries generalizing m with
  | nil => simp at hb
  | cons b' entries ih =>
    have htail : ∀ b'' ∈ entries, key b'' = key b → val b'' = val b :=
      fun b'' hb'' => h b'' (List.mem_cons_of_mem _ hb'')
    obtain rfl | hb := List.mem_cons.mp hb
    · rw [List.foldl_cons]
      refine get?_foldl_set_of_some key val ?_ htail
      rw [get?_set, if_pos rfl]
    · exact ih _ hb htail

/-- The keys of a map after entries are put in. -/
theorem isSome_get?_foldl_set (key : β → κ) (val : β → α) (k : κ) (entries : List β)
    (m : List (κ × α)) :
    (get? (entries.foldl (fun m b => set m (key b) (val b)) m) k).isSome ↔
      (get? m k).isSome ∨ ∃ b ∈ entries, key b = k := by
  induction entries generalizing m with
  | nil => simp
  | cons b entries ih =>
    rw [List.foldl_cons, ih, get?_set]
    by_cases h : k = key b
    · simp [h]
    · simp [h, Ne.symm h]

/-- What is found after entries are put in was there before or is one of them. -/
theorem of_get?_foldl_set (key : β → κ) (val : β → α)
    (h : get? (entries.foldl (fun m b => set m (key b) (val b)) m) k = some v) :
    get? m k = some v ∨ ∃ b ∈ entries, key b = k ∧ val b = v := by
  induction entries generalizing m with
  | nil => exact .inl h
  | cons b entries ih =>
    obtain h | ⟨b', hb', h⟩ := ih h
    · rw [get?_set] at h
      split at h
      · rename_i hk
        exact .inr ⟨b, List.mem_cons_self, hk.symm, Option.some.inj h⟩
      · exact .inl h
    · exact .inr ⟨b', List.mem_cons_of_mem _ hb', h⟩

end Effectful.Assoc
