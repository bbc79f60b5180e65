import Effectful.Proofs.Renaming
/-!
# What the host sees

The numbers of frames, continuations and suspended calls mean nothing outside of a run.  A host sees
a request without them (`Request.forget`).  It may keep the closures and continuations that it is
given and hand them back, but only by position: its answers name them by handles (`Value.link?`).

Such a host cannot tell runs apart that differ in numbers only (`HostState.byHandles_rename`).
-/

namespace Effectful.Interp

open List

/-- The renaming that forgets all numbers. -/
def Renaming.forget : Renaming := ⟨fun _ => ⟨0⟩, fun _ => ⟨0⟩⟩

/-- A request without numbers. -/
def Request.forget (r : Request) : Request :=
  { r with args := r.args.map (·.rename .forget), suspension := ⟨0⟩ }

/-! ### Handles -/

/-- The callable that an answer stands for.  A continuation is the handle of a callable; closures
cannot be made outside of a run. -/
def Callable.link? (handles : List Callable) : Callable → Option Callable
  | .continuation k => handles[k.index]?
  | .lambda _ _ _ => none
  | t => some t

/-- Whether the callable means the same in every run. -/
def Callable.isPortable : Callable → Bool
  | .lambda _ _ _ | .continuation _ => false
  | .fn _ | .op _ | .intrinsic _ => true

mutual

/-- The value that an answer stands for. -/
def Value.link? (handles : List Callable) : Value → Option Value
  | .callable t => (t.link? handles).map .callable
  | .tuple vs => (linkAll? handles vs).map .tuple
  | v => some v

def linkAll? (handles : List Callable) : List Value → Option (List Value)
  | [] => some []
  | v :: vs => (v.link? handles).bind fun w => (linkAll? handles vs).map (w :: ·)

end

/-- The state of a host: its own, the requests so far, and the callables that it was given. -/
structure HostState (σ : Type) where
  own : σ
  requests : List Request := []
  handles : List Callable := []

namespace HostState

variable {σ : Type}

/-- The host that answers as `answers` says, which sees no numbers. -/
def byHandles (answers : σ → Request → Except EvalError Value × σ) (state : HostState σ)
    (r : Request) :
    Except EvalError Value × HostState σ :=
  let handles := state.handles ++ r.args.flatMap Value.callables
  let (reply, own) := answers state.own r.forget
  let linked := match reply with
    | .error e => .error e
    | .ok v =>
      match v.link? handles with
      | some w => .ok w
      | none => .error (.trap .unreachable)
  (linked, ⟨own, state.requests ++ [r.forget], handles⟩)

def rename (ρ : Renaming) (state : HostState σ) : HostState σ :=
  { state with handles := state.handles.map (·.rename ρ) }

end HostState

/-! ### Renamed values -/

variable {ρ : Renaming}

theorem Callable.rename_forget (t : Callable) : (t.rename ρ).rename .forget = t.rename .forget := by
  cases t <;> rfl

mutual

/-- Renaming is forgotten. -/
theorem Value.rename_forget : ∀ v : Value, (v.rename ρ).rename .forget = v.rename .forget
  | .callable t => by rw [Value.rename, Value.rename, Callable.rename_forget, Value.rename]
  | .tuple vs => by rw [Value.rename, Value.rename, renameAll_forget vs, Value.rename]
  | .unit | .bool _ | .i32 _ | .i64 _ | .f32 _ | .f64 _ => by simp [Value.rename]

theorem renameAll_forget : ∀ vs :
    List Value, renameAll .forget (renameAll ρ vs) = renameAll .forget vs
  | [] => by simp [renameAll]
  | v :: vs => by rw [renameAll, renameAll, Value.rename_forget v, renameAll_forget vs, renameAll]

end

mutual

theorem Value.callables_rename : ∀ v : Value, (v.rename ρ).callables = v.callables.map (·.rename ρ)
  | .callable t => by rw [Value.rename, Value.callables, Value.callables, map_singleton]
  | .tuple vs => by rw [Value.rename, Value.callables, Value.callables, allCallables_rename vs]
  | .unit | .bool _ | .i32 _ | .i64 _ | .f32 _ | .f64 _ => by simp [Value.rename, Value.callables]

theorem allCallables_rename : ∀ vs : List Value,
    allCallables (renameAll ρ vs) = (allCallables vs).map (·.rename ρ)
  | [] => by simp [renameAll, allCallables]
  | v :: vs => by
    rw [renameAll, allCallables, allCallables, Value.callables_rename v, allCallables_rename vs,
      map_append]

end

/-- The renaming that changes nothing. -/
def Renaming.refl : Renaming := ⟨id, id⟩

mutual

theorem Value.rename_refl : ∀ v : Value, v.rename .refl = v
  | .callable t => by cases t <;> rfl
  | .tuple vs => by rw [Value.rename, renameAll_refl vs]
  | .unit | .bool _ | .i32 _ | .i64 _ | .f32 _ | .f64 _ => by simp [Value.rename]

theorem renameAll_refl : ∀ vs : List Value, renameAll .refl vs = vs
  | [] => by simp [renameAll]
  | v :: vs => by rw [renameAll, Value.rename_refl v, renameAll_refl vs]

end

/-! ### Linked values -/

variable {handles : List Callable}

theorem Callable.link?_rename (t : Callable) :
    t.link? (handles.map (·.rename ρ)) = (t.link? handles).map (·.rename ρ) := by
  cases t with
  | continuation k => exact getElem?_map
  | _ => rfl

mutual

/-- Linking and renaming commute. -/
theorem Value.link?_rename : ∀ v : Value,
    v.link? (handles.map (·.rename ρ)) = (v.link? handles).map (·.rename ρ)
  | .callable t => by
    rw [Value.link?, Value.link?, Callable.link?_rename, Option.map_map, Option.map_map]
    rfl
  | .tuple vs => by
    rw [Value.link?, Value.link?, linkAll?_rename vs, Option.map_map, Option.map_map]
    rfl
  | .unit | .bool _ | .i32 _ | .i64 _ | .f32 _ | .f64 _ => by simp [Value.link?, Value.rename]

theorem linkAll?_rename : ∀ vs : List Value,
    linkAll? (handles.map (·.rename ρ)) vs = (linkAll? handles vs).map (renameAll ρ)
  | [] => by simp [linkAll?, renameAll]
  | v :: vs => by
    rw [linkAll?, linkAll?, Value.link?_rename v, linkAll?_rename vs]
    cases v.link? handles with
    | none => rfl
    | some w => cases linkAll? handles vs <;> simp [renameAll]

end

theorem Callable.mem_or_eq_of_link? {t u : Callable} (h : t.link? handles = some u) :
    u ∈ handles ∨ u = t ∧ t.isPortable = true := by
  cases t with
  | continuation k => exact .inl (mem_of_getElem? h)
  | lambda => cases h
  | fn | op | intrinsic =>
    obtain rfl := Option.some.inj h
    exact .inr ⟨rfl, rfl⟩

mutual

/-- The callables of a linked value are handles, or they were in the answer and mean the same
everywhere. -/
theorem Value.mem_callables_link? : ∀ {v w : Value}, v.link? handles = some w → ∀ u ∈ w.callables,
    u ∈ handles ∨ u ∈ v.callables ∧ u.isPortable = true
  | .callable t, w, h, u, hu => by
    rw [Value.link?] at h
    obtain ⟨t', ht, rfl⟩ := Option.map_eq_some_iff.mp h
    rw [Value.callables, mem_singleton] at hu
    subst hu
    refine (Callable.mem_or_eq_of_link? ht).imp_right ?_
    rintro ⟨rfl, hp⟩
    exact ⟨by simp [Value.callables], hp⟩
  | .tuple vs, w, h, u, hu => by
    rw [Value.link?] at h
    obtain ⟨ws, hws, rfl⟩ := Option.map_eq_some_iff.mp h
    rw [Value.callables] at hu ⊢
    exact mem_callables_linkAll? hws u hu
  | .unit, w, h, u, hu | .bool _, w, h, u, hu | .i32 _, w, h, u, hu | .i64 _, w, h, u, hu | .f32 _,
      w, h, u, hu
  | .f64 _, w, h, u, hu => by
    simp only [Value.link?, Option.some.injEq] at h
    subst h
    simp [Value.callables] at hu

/-- Callables of linked values are handed-out ones, or mean the same everywhere. -/
theorem mem_callables_linkAll? : ∀ {vs ws : List Value}, linkAll? handles vs = some ws →
    ∀ u ∈ allCallables ws, u ∈ handles ∨ u ∈ allCallables vs ∧ u.isPortable = true
  | [], ws, h, u, hu => by
    simp only [linkAll?, Option.some.injEq] at h
    subst h
    simp [allCallables] at hu
  | v :: vs, ws, h, u, hu => by
    rw [linkAll?] at h
    obtain ⟨w, hw, h⟩ := Option.bind_eq_some_iff.mp h
    obtain ⟨ws', hws, rfl⟩ := Option.map_eq_some_iff.mp h
    rw [allCallables] at hu ⊢
    obtain hu | hu := mem_append.mp hu
    · exact (Value.mem_callables_link? hw u hu).imp_right (And.imp_left (mem_append_left _))
    · exact (mem_callables_linkAll? hws u hu).imp_right (And.imp_left (mem_append_right _))

end

namespace HostState

variable {σ : Type} (answers : σ → Request → Except EvalError Value × σ) (state : HostState σ)

/-- What a host of handles answers, and what it holds afterwards. -/
theorem of_byHandles {r : Request} {v : Value} {state₁ : HostState σ}
    (h : byHandles answers state r = (.ok v, state₁)) :
    state₁.handles = state.handles ++ r.args.flatMap Value.callables ∧
      ∃ a own, answers state.own r.forget = (.ok a, own) ∧ a.link? state₁.handles = some v := by
  unfold byHandles at h
  cases hanswer : answers state.own r.forget with
  | mk reply own =>
    rw [hanswer] at h
    obtain ⟨hv, rfl⟩ := Prod.mk.inj h
    refine ⟨rfl, ?_⟩
    cases reply with
    | error e => cases hv
    | ok a =>
      refine ⟨a, own, rfl, ?_⟩
      dsimp only at hv ⊢
      split at hv
      · rename_i w hw
        cases hv
        exact hw
      · cases hv

/-- **A host that sees no numbers gives renamed answers to renamed requests.** -/
theorem byHandles_rename (ρ : Renaming) {r r' : Request} (hr : r'.forget = r.forget)
    (hargs : r'.args = r.args.map (·.rename ρ)) :
    byHandles answers (state.rename ρ) r' =
      ((byHandles answers state r).1.map (·.rename ρ), (byHandles answers state r).2.rename ρ) := by
  have hhandles : (state.rename ρ).handles ++ r'.args.flatMap Value.callables =
      (state.handles ++ r.args.flatMap Value.callables).map (·.rename ρ) := by
    rw [hargs, map_append, flatMap_map, map_flatMap]
    simp only [Value.callables_rename]
    rfl
  unfold byHandles
  rw [hhandles, hr]
  have hown : (state.rename ρ).own = state.own := rfl
  rw [hown]
  cases answers state.own r.forget with
  | mk reply own =>
    refine Prod.ext ?_ rfl
    cases reply with
    | error e => rfl
    | ok v =>
      dsimp only
      rw [Value.link?_rename]
      cases v.link? (state.handles ++ r.args.flatMap Value.callables) <;> rfl

end HostState

end Effectful.Interp
