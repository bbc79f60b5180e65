import Effectful.Proofs.FrameStore
/-!
# Frames as environments

A frame gives values to the locals that are bound in it (`Frames.env`), and these hide what its
ancestors hold (`Frames.read?_of_env`).  A new frame holds the arguments that it is made with and
nothing else (`Frames.Sound.env_push`).
-/

namespace Effectful

open List

open Interp (Value)

variable {l : LocalId} {v : Value}

/-- The locals of an activation, as far as they have values. -/
abbrev Env := LocalId → Option Value

namespace Env

/-- The locals before anything is bound. -/
def empty : Env := fun _ => none

def set (ρ : Env) (l : LocalId) (v : Value) : Env := fun m => if m = l then some v else ρ m

/-- The locals of a call at its start; the last of several parameters with one name counts. -/
def ofArgs (params : List LocalId) (args : List Value) : Env :=
  (params.zip args).foldl (fun ρ (b : LocalId × Value) => ρ.set b.1 b.2) empty

theorem set_apply (ρ : Env) (l m : LocalId) (v : Value) :
    ρ.set l v m = if m = l then some v else ρ m := rfl

@[simp]
theorem set_self (ρ : Env) (l : LocalId) (v : Value) : ρ.set l v l = some v := by simp [set]

theorem set_of_ne {ρ : Env} {m : LocalId} (h : m ≠ l) : ρ.set l v m = ρ m := by simp [set, h]

end Env

namespace Interp.Frames

variable {fs : Frames} {φ : FrameId}

def env (fs : Frames) (id : FrameId) : Env :=
  fun l => (fs.cell? id).bind fun f => Assoc.get? f.locals l

theorem env_define (hφ : fs.InUse φ) (l : LocalId) (v : Value) :
    (fs.define φ l v).env φ = (fs.env φ).set l v := by
  obtain ⟨f, hf⟩ := hφ.exists_cell
  funext m
  simp only [env, (updated_define φ l v).cell, if_true, hf, Option.map_some, Option.bind_some,
    Assoc.get?_set, Env.set_apply]

/-! ### New frames -/

/-- Locals that are not bound again keep their values. -/
theorem foldl_set_of_not_mem {bs : List (LocalId × Value)} (h : ∀ b ∈ bs, b.1 ≠ l) (ρ : Env) :
    bs.foldl (fun ρ (b : LocalId × Value) => ρ.set b.1 b.2) ρ l = ρ l := by
  induction bs generalizing ρ with
  | nil => rfl
  | cons b bs ih =>
    obtain ⟨hb, hbs⟩ := forall_mem_cons.mp h
    exact (ih hbs _).trans (Env.set_of_ne hb.symm)

/-- The last binding of a local counts. -/
theorem ofArgs_of_getElem? {ts : List LocalId} {vs : List Value} {i : Nat} (ht : ts[i]? = some l)
    (hv : vs[i]? = some v) (hlast : ∀ j, i < j → ts[j]? ≠ some l) :
    Env.ofArgs ts vs l = some v := by
  unfold Env.ofArgs
  generalize Env.empty = ρ
  induction ts generalizing vs i ρ with
  | nil => simp at ht
  | cons t ts ih =>
    cases vs with
    | nil => simp at hv
    | cons w vs =>
      rw [zip_cons_cons, foldl_cons]
      cases i with
      | zero =>
        rw [getElem?_cons_zero, Option.some.injEq] at ht hv
        subst ht hv
        refine (foldl_set_of_not_mem (fun b hb heq => ?_) _).trans (Env.set_self _ _ _)
        obtain ⟨j, hj⟩ := getElem?_of_mem (of_mem_zip hb).1
        exact hlast (j + 1) (Nat.succ_pos j) (by rw [getElem?_cons_succ, hj, heq])
      | succ i => exact ih ht hv (fun j hj => hlast (j + 1) (Nat.succ_lt_succ hj)) _

/-- A local of the frame itself hides those of its ancestors. -/
theorem read?_of_env (h : fs.env φ l = some v) : fs.read? φ l = some v := by
  obtain ⟨f, hf, hv⟩ := Option.bind_eq_some_iff.mp h
  have hcell : fs.cells[φ.index]? = some f := hf
  have hlt : φ.index < fs.cells.size := (Array.getElem?_eq_some_iff.mp hcell).1
  obtain ⟨n, hn⟩ := Nat.exists_eq_add_one_of_ne_zero (show fs.cells.size ≠ 0 by omega)
  simp [read?, owner?, hn, ownerFrom, hcell, hv]

theorem env_defineAll (hφ : fs.InUse φ) (ts : List LocalId) (vs : List Value) :
    (fs.defineAll φ ts vs).env φ =
      (ts.zip vs).foldl (fun ρ (b : LocalId × Value) => ρ.set b.1 b.2) (fs.env φ) := by
  rw [defineAll]
  induction ts.zip vs generalizing fs with
  | nil => rfl
  | cons b bs ih =>
    refine (ih ((inUse_define φ b.1 b.2).mpr hφ)).trans ?_
    rw [env_define hφ]
    rfl

/-- A new frame holds the given locals, whatever its parent. -/
theorem Sound.env_push (hs : fs.Sound) (recycle : Bool) (parent : Option FrameId)
    (ts : List LocalId) (vs : List Value) :
    ((fs.push recycle parent).2.defineAll (fs.push recycle parent).1 ts vs).env
      (fs.push recycle parent).1 = .ofArgs ts vs := by
  have hpushed := hs.pushed recycle parent
  have hempty : (fs.push recycle parent).2.env (fs.push recycle parent).1 = Env.empty := by
    funext l
    simp [env, hpushed.cell, Env.empty, Assoc.get?_nil]
  rw [env_defineAll ((hpushed.inUse _).mpr (.inl rfl)), hempty]
  rfl

end Interp.Frames

end Effectful
