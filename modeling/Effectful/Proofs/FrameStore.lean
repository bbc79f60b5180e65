import Effectful.Interp.Frames
import Effectful.Proofs.Assoc
/-!
# Frames in use, frames that are free

A store of frames is `Sound` when its free list has no repetition, a free frame is blank and every
parent is pinned.  Each operation is described by what it does to the frames one by one (`cell?`)
and to the set of frames in use.  A new frame was not in use; giving back a frame touches no other
one. Parents are pinned from the start, so pinning a frame changes that frame only.
-/

namespace Effectful.Interp.Frames

open List

variable {fs : Frames}
variable {id x : FrameId} {l source : LocalId} {fs' : Frames}

def cell? (fs : Frames) (id : FrameId) : Option Frame := fs.cells[id.index]?

/-- The frame belongs to a call, or is kept for good. -/
def InUse (fs : Frames) (id : FrameId) : Prop := id.index < fs.cells.size ∧ id ∉ fs.free

/-- The frame is kept for good. -/
def Pinned (fs : Frames) (id : FrameId) : Prop := ∃ f, fs.cell? id = some f ∧ f.pinned = true

/-- Free frames are blank and listed once; parents are kept for good. -/
structure Sound (fs : Frames) : Prop where
  nodup_free : fs.free.Nodup
  blank : ∀ id ∈ fs.free, fs.cell? id = some {}
  parent : ∀ id f q, fs.cell? id = some f → f.parent = some q → fs.Pinned q

theorem sound_empty : Sound {} where
  nodup_free := nodup_nil
  blank := by simp
  parent := by simp [cell?]

theorem FrameId.index_inj {a b : FrameId} : a.index = b.index ↔ a = b := by
  cases a; cases b; simp

theorem cell?_isSome : (fs.cell? id).isSome ↔ id.index < fs.cells.size := by
  simp [cell?]

theorem InUse.exists_cell (h : fs.InUse id) : ∃ f, fs.cell? id = some f :=
  Option.isSome_iff_exists.mp (cell?_isSome.mpr h.1)

/-- Pinned frames are never free. -/
theorem Pinned.inUse (hs : fs.Sound) (h : fs.Pinned id) : fs.InUse id := by
  obtain ⟨f, hf, hpin⟩ := h
  refine ⟨cell?_isSome.mp (by rw [hf]; rfl), fun hfree => ?_⟩
  rw [hs.blank id hfree, Option.some.injEq] at hf
  subst hf
  simp at hpin

/-! ### Changing one frame -/

/-- The frame is changed by `g`, which keeps its parent and leaves it pinned; the other frames are
as they were. -/
structure Updated (fs : Frames) (id : FrameId) (g : Frame → Frame) (fs' : Frames) : Prop where
  free : fs'.free = fs.free
  cell : ∀ x, fs'.cell? x = if x = id then (fs.cell? x).map g else fs.cell? x
  parent : ∀ f, (g f).parent = f.parent
  pinned : ∀ f, f.pinned = true → (g f).pinned = true

namespace Updated

variable {g : Frame → Frame} {f : Frame} (h : fs.Updated id g fs')
include h

theorem inUse_iff : fs'.InUse x ↔ fs.InUse x := by
  rw [InUse, InUse, ← cell?_isSome, ← cell?_isSome, h.cell, h.free]
  split <;> simp

/-- An update changes one frame, and keeps its parent. -/
theorem exists_before (hf : fs'.cell? x = some f) :
    ∃ f₀, fs.cell? x = some f₀ ∧ f.parent = f₀.parent ∧ (f = f₀ ∨ x = id ∧ f = g f₀) := by
  rw [h.cell] at hf
  split at hf
  · rename_i hx
    obtain ⟨f₀, hf₀, rfl⟩ := Option.map_eq_some_iff.mp hf
    exact ⟨f₀, hf₀, h.parent f₀, .inr ⟨hx, rfl⟩⟩
  · exact ⟨f, hf, rfl, .inl rfl⟩

theorem exists_after (hf : fs.cell? x = some f) :
    ∃ f', fs'.cell? x = some f' ∧ f'.parent = f.parent ∧ (f.pinned = true → f'.pinned = true) := by
  rw [h.cell, hf]
  split
  · exact ⟨g f, rfl, h.parent f, h.pinned f⟩
  · exact ⟨f, rfl, rfl, fun hpin => hpin⟩

theorem pinned_of_pinned (hx : fs.Pinned x) : fs'.Pinned x := by
  obtain ⟨f, hf, hpin⟩ := hx
  obtain ⟨f', hf', -, hpin'⟩ := h.exists_after hf
  exact ⟨f', hf', hpin' hpin⟩

theorem sound (hs : fs.Sound) (hid : fs.InUse id) : fs'.Sound where
  nodup_free := h.free ▸ hs.nodup_free
  blank x hx := by
    rw [h.free] at hx
    rw [h.cell, if_neg]
    · exact hs.blank x hx
    · rintro rfl
      exact hid.2 hx
  parent x f q hf hq := by
    obtain ⟨f₀, hf₀, hparent, -⟩ := h.exists_before hf
    exact h.pinned_of_pinned (hs.parent x f₀ q hf₀ (hparent ▸ hq))

end Updated

/-! ### Binding -/

theorem updated_define (id : FrameId) (target : LocalId) (v : Value) :
    fs.Updated id (fun f => { f with locals := Assoc.set f.locals target v })
      (fs.define id target v) where
  free := rfl
  cell x := by simp only [cell?, define, Array.getElem?_modify, FrameId.index_inj, eq_comm]
  parent _ := rfl
  pinned _ hpin := hpin

@[simp]
theorem inUse_define (id : FrameId) (target : LocalId) (v : Value) :
    (fs.define id target v).InUse x ↔ fs.InUse x :=
  (updated_define id target v).inUse_iff

@[simp]
theorem pinned_define (id : FrameId) (target : LocalId) (v : Value) :
    (fs.define id target v).Pinned x ↔ fs.Pinned x := by
  rw [Pinned, (updated_define id target v).cell]
  split
  · cases h : fs.cell? x <;> simp [Pinned, h]
  · rfl

theorem ownerFrom_modify (h : source ≠ l) (cells : Array Frame) (i : Nat) (v : Value) (bound : Nat)
    (id : Option FrameId) :
    ownerFrom (cells.modify i fun f => { f with locals := Assoc.set f.locals l v })
      source bound id =
      ownerFrom cells source bound id := by
  induction bound generalizing id with
  | zero => rfl
  | succ bound ih =>
    cases id with
    | none => rfl
    | some id =>
      simp only [ownerFrom, Array.getElem?_modify, ih]
      cases cells[id.index]? with
      | none => simp
      | some f => by_cases hi : i = id.index <;> simp [hi, Assoc.get?_set, h]

/-- Binding a local changes no other one, in whichever frame it is looked up. -/
theorem read?_define_of_ne (h : source ≠ l) (id x : FrameId) (v : Value) :
    (fs.define id l v).read? x source = fs.read? x source := by
  simp only [read?, owner?, define, Array.size_modify, ownerFrom_modify h]

theorem read?_assign_of_ne (h : source ≠ l) (id x : FrameId) (v : Value) :
    (fs.assign id l v).read? x source = fs.read? x source :=
  read?_define_of_ne h _ x v

/-- What a frame finds for a local is bound in the frame itself or in an ancestor, so all is true of
the owner that passes from frames to their parents. -/
theorem Sound.owner? (hs : fs.Sound) {y : FrameId} {v : Value} (hx : fs.InUse x)
    (hy : fs.owner? x l = some (y, v)) (P : FrameId → Prop) (hP : P x)
    (hparent : ∀ z f q, fs.InUse z → fs.cell? z = some f → f.parent = some q → P z → P q) :
    fs.InUse y ∧ P y ∧ ∃ f, fs.cell? y = some f ∧ Assoc.get? f.locals l = some v := by
  suffices ∀ bound x, fs.InUse x → P x → ownerFrom fs.cells l bound (some x) = some (y, v) →
      fs.InUse y ∧ P y ∧ ∃ f, fs.cell? y = some f ∧ Assoc.get? f.locals l = some v from this
      _ x hx hP hy
  -- induction on the bound, which follows the chain of parents
  intro bound
  induction bound with
  | zero => simp [ownerFrom]
  | succ bound ih =>
    intro x hx hP hy
    obtain ⟨f, hf⟩ := hx.exists_cell
    have hcell : fs.cells[x.index]? = some f := hf
    simp only [ownerFrom, hcell] at hy
    split at hy
    · rename_i v' hv'
      obtain ⟨rfl, rfl⟩ := hy
      exact ⟨hx, hP, f, hf, hv'⟩
    · cases hq : f.parent with
      | none =>
        rw [hq] at hy
        cases bound <;> simp [ownerFrom] at hy
      | some q =>
        rw [hq] at hy
        exact ih q ((hs.parent x f q hf hq).inUse hs) (hparent x f q hx hf hq hP) hy

/-! ### New frames -/

/-- A frame that was not in use is now there without locals; the other frames are as they were. -/
structure Pushed (fs : Frames) (parent : Option FrameId) (id : FrameId) (fs' : Frames) : Prop where
  fresh : ¬ fs.InUse id
  inUse : ∀ x, fs'.InUse x ↔ x = id ∨ fs.InUse x
  cell : fs'.cell? id = some { parent }
  other : ∀ x, x ≠ id → fs'.cell? x = fs.cell? x
  free_sublist : fs'.free.Sublist fs.free

/-- A new frame is taken from the free ones or is added behind all others. -/
theorem Sound.pushed (hs : fs.Sound) (recycle : Bool) (parent : Option FrameId) :
    fs.Pushed parent (fs.push recycle parent).1 (fs.push recycle parent).2 := by
  have hfree (x : FrameId) (hx : x ∈ fs.free) : x.index < fs.cells.size :=
    cell?_isSome.mp (by rw [hs.blank x hx]; rfl)
  unfold Frames.push
  split
  · rename_i top rest hlist
    have hnodup : (top :: rest).Nodup := hlist ▸ hs.nodup_free
    have hmem : top ∈ fs.free := by rw [hlist]; exact mem_cons_self
    refine ⟨fun h => h.2 hmem, fun x => ?_, ?_, fun x hx => ?_, ?_⟩
    · by_cases hx : x = top
      · subst hx
        simpa [InUse, (nodup_cons.mp hnodup).1] using hfree x hmem
      · simp [InUse, hlist, hx]
    · have hblank := hs.blank top hmem
      rw [cell?] at hblank
      simp [cell?, Array.getElem?_modify, hblank]
    · have : top.index ≠ x.index := fun h => hx (FrameId.index_inj.mp h).symm
      simp [cell?, Array.getElem?_modify, this]
    · rw [hlist]
      exact sublist_cons_self _ _
  · refine ⟨fun h => Nat.lt_irrefl _ h.1, fun x => ?_, by simp [cell?], fun x hx => ?_,
      List.Sublist.refl _⟩
    · by_cases hx : x = ⟨fs.cells.size⟩
      · subst hx
        simpa [InUse] using fun hx => Nat.lt_irrefl _ (hfree _ hx)
      · have hne : x.index ≠ fs.cells.size := fun h => hx (FrameId.index_inj.mp h)
        have hlt : x.index < fs.cells.size + 1 ↔ x.index < fs.cells.size := by omega
        simp [InUse, hx, hlt]
    · have : x.index ≠ fs.cells.size := fun h => hx (FrameId.index_inj.mp h)
      simp [cell?, Array.getElem?_push, this]

theorem Pushed.pinned_iff (hs : fs.Sound) {parent : Option FrameId} (h : fs.Pushed parent id fs') :
    fs'.Pinned x ↔ fs.Pinned x := by
  by_cases hx : x = id
  · subst hx
    constructor
    · rintro ⟨f, hf, hpin⟩
      rw [h.cell, Option.some.injEq] at hf
      subst hf
      simp at hpin
    · exact fun hpin => absurd (hpin.inUse hs) h.fresh
  · rw [Pinned, h.other x hx, Pinned]

/-- A frame whose parent is pinned keeps the store sound. -/
theorem Sound.of_pushed (hs : fs.Sound) {parent : Option FrameId} (h : fs.Pushed parent id fs')
    (hparent : ∀ q ∈ parent, fs.Pinned q) : fs'.Sound where
  nodup_free := hs.nodup_free.sublist h.free_sublist
  blank x hx := by
    have hne : x ≠ id := by
      rintro rfl
      exact ((h.inUse x).mpr (.inl rfl)).2 hx
    rw [h.other x hne]
    exact hs.blank x (h.free_sublist.subset hx)
  parent x f q hf hq := by
    rw [h.pinned_iff hs]
    by_cases hx : x = id
    · subst hx
      rw [h.cell, Option.some.injEq] at hf
      subst hf
      exact hparent q hq
    · rw [h.other x hx] at hf
      exact hs.parent x f q hf hq

/-! ### Keeping a frame -/

/-- Nothing is pinned above a frame that is pinned, or above no frame. -/
theorem pinFrom_of_pinned {bound : Nat} {id : Option FrameId} {cells : Array Frame}
    (h : ∀ q ∈ id, ∃ f, cells[q.index]? = some f ∧ f.pinned = true) :
    pinFrom bound id cells = cells := by
  match bound, id with
  | 0, _ => rw [pinFrom]
  | bound + 1, none => rw [pinFrom]; simp
  | bound + 1, some q =>
    obtain ⟨f, hf, hpin⟩ := h q rfl
    rw [pinFrom, hf]
    simp [hpin]

/-- Pinning a frame changes that frame only, since its ancestors are pinned already. -/
theorem cells_pin (hs : fs.Sound) {f : Frame} (hf : fs.cell? id = some f) :
    (fs.pin id).cells = fs.cells.setIfInBounds id.index { f with pinned := true } := by
  have hlt : id.index < fs.cells.size := cell?_isSome.mp (by rw [hf]; rfl)
  obtain ⟨n, hn⟩ := Nat.exists_eq_add_one_of_ne_zero (show fs.cells.size ≠ 0 by omega)
  have hcell : fs.cells[id.index]? = some f := hf
  simp only [pin, hn, pinFrom, hcell]
  split
  · rename_i hpin
    obtain ⟨locals, parent, pinned⟩ := f
    obtain rfl : pinned = true := hpin
    obtain ⟨_, hget⟩ := Array.getElem?_eq_some_iff.mp hcell
    rw [← hget, Array.setIfInBounds_def, dif_pos hlt, Array.set_getElem_self]
  · refine pinFrom_of_pinned fun q hq => ?_
    obtain ⟨g, hg, hpin⟩ := hs.parent id f q hf hq
    by_cases hqid : id.index = q.index
    · rw [← hqid]
      exact ⟨{ f with pinned := true }, by simp [hlt], rfl⟩
    · refine ⟨g, ?_, hpin⟩
      rw [Array.getElem?_setIfInBounds_ne hqid]
      exact hg

theorem cell?_pin (hs : fs.Sound) (id x : FrameId) :
    (fs.pin id).cell? x = if x =
      id then (fs.cell? x).map ({ · with pinned := true }) else fs.cell? x := by
  cases hf : fs.cell? id with
  | none =>
    have hcell : fs.cells[id.index]? = none := hf
    have hsame : (fs.pin id).cells = fs.cells := by
      cases hn : fs.cells.size <;> simp [pin, hn, pinFrom, hcell]
    rw [cell?, hsame]
    split
    · rename_i hx
      rw [hx, hf, hcell]
      rfl
    · rfl
  | some f =>
    have hlt : id.index < fs.cells.size := cell?_isSome.mp (by rw [hf]; rfl)
    rw [cell?, cells_pin hs hf]
    split
    · rename_i hx
      rw [hx, hf]
      simp [hlt]
    · rename_i hx
      rw [Array.getElem?_setIfInBounds_ne fun h => hx (FrameId.index_inj.mp h.symm), cell?]

theorem updated_pin (hs : fs.Sound) (id : FrameId) : fs.Updated id ({ · with pinned := true })
    (fs.pin id) where
  free := rfl
  cell := cell?_pin hs id
  parent _ := rfl
  pinned _ _ := rfl

theorem inUse_pin (hs : fs.Sound) (id : FrameId) : (fs.pin id).InUse x ↔ fs.InUse x :=
  (updated_pin hs id).inUse_iff

/-- Pinning a frame pins nothing else, since its ancestors are pinned already. -/
theorem pinned_pin (hs : fs.Sound) (hid : id.index < fs.cells.size) :
    (fs.pin id).Pinned x ↔ x = id ∨ fs.Pinned x := by
  rw [Pinned, cell?_pin hs]
  split
  · rename_i hx
    obtain ⟨f, hf⟩ := Option.isSome_iff_exists.mp (cell?_isSome.mpr hid)
    simp [hx, hf]
  · rename_i hx
    simp [hx, Pinned]

/-! ### Giving a frame back -/

/-- A pinned frame is not given back. -/
theorem release_of_pinned (h : fs.Pinned id) : fs.release id = fs := by
  obtain ⟨f, hf, hpin⟩ := h
  rw [cell?] at hf
  simp [release, hf, hpin]

/-- A frame that is given back is blank and free, unless it is pinned; other frames stay. -/
structure Released (fs : Frames) (id : FrameId) (fs' : Frames) : Prop where
  inUse : ∀ x, fs'.InUse x ↔ x ≠ id ∧ fs.InUse x
  other : ∀ x, x ≠ id → fs'.cell? x = fs.cell? x
  cell : fs'.cell? id = some {}
  free : fs'.free = id :: fs.free

theorem released (hid : fs.InUse id) (hpin : ¬ fs.Pinned id) : fs.Released id (fs.release id) := by
  obtain ⟨f, hf⟩ := hid.exists_cell
  have hf' : fs.cells[id.index]? = some f := hf
  have hpin' : f.pinned = false := by
    by_contra h
    exact hpin ⟨f, hf, by simpa using h⟩
  have hrel : fs.release id =
      { cells := fs.cells.setIfInBounds id.index {}, free := id :: fs.free } := by
    simp [release, hf', hpin']
  rw [hrel]
  refine ⟨fun x => ?_, fun x hx => ?_, by simp [cell?, hid.1], rfl⟩
  · simp only [InUse, Array.size_setIfInBounds, mem_cons, not_or]
    tauto
  · rw [cell?, Array.getElem?_setIfInBounds_ne fun h => hx (FrameId.index_inj.mp h.symm), cell?]

theorem Released.pinned_iff (hpin : ¬ fs.Pinned id) (h : fs.Released id fs') :
    fs'.Pinned x ↔ fs.Pinned x := by
  by_cases hx : x = id
  · subst hx
    refine ⟨fun ⟨f, hf, hp⟩ => ?_, fun hp => absurd hp hpin⟩
    rw [h.cell, Option.some.injEq] at hf
    subst hf
    simp at hp
  · rw [Pinned, h.other x hx, Pinned]

theorem Pinned.release (hx : fs.Pinned x) (hid : fs.InUse id) : (fs.release id).Pinned x := by
  by_cases hpin : fs.Pinned id
  · rwa [release_of_pinned hpin]
  · exact ((released hid hpin).pinned_iff hpin).mpr hx

/-- No frame has the released one as its parent. -/
theorem Sound.of_released (hs : fs.Sound) (hid : fs.InUse id) (hpin : ¬ fs.Pinned id)
    (h : fs.Released id fs') :
    fs'.Sound where
  nodup_free := by
    rw [h.free]
    exact nodup_cons.mpr ⟨hid.2, hs.nodup_free⟩
  blank x hx := by
    rw [h.free] at hx
    by_cases hxid : x = id
    · rw [hxid, h.cell]
    · rw [h.other x hxid]
      exact hs.blank x ((mem_cons.mp hx).resolve_left hxid)
  parent x f q hf hq := by
    rw [h.pinned_iff hpin]
    by_cases hx : x = id
    · rw [hx, h.cell, Option.some.injEq] at hf
      subst hf
      simp at hq
    · rw [h.other x hx] at hf
      exact hs.parent x f q hf hq

end Effectful.Interp.Frames
