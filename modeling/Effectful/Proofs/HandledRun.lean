import Effectful.Proofs.FrameEnv
import Effectful.Proofs.HostRun
import Effectful.Proofs.HostView
import Effectful.Proofs.Lockstep
/-!
# A run under a handler and a run under the host

One run is answered by the host, which gives a constant to one operation.  In the other run a
handler around the same code answers this operation with the constant, and the host answers the
others.  The two runs end with the same value, and the other operations reach the host in the same
order with the same arguments (`Linked.reaches_iff`).

The runs are compared transition by transition.  While the code of the function runs, the handled
run has the guard of the handler below its stack, and below the guard a tower: for each operation
answered so far the clause that answered it (`Tower`).  An operation that the handler answers makes
the tower grow by one clause and puts the function back on the guard; any other operation takes the
guard and the tower along to the host, which puts them back with its answer.  When the function is
over, its value goes down the tower unchanged.
-/

namespace Effectful.Interp

open List

open StateTransition

variable {below rest : List Pending} {fs : Frames} {n : Nat} {control : Control}
  {handles : List Callable} {args : List Value}

/-- The host that answers one operation with a constant and leaves the others to `host`. -/
def constantly {τ : Type} (op : OpRef) (reply : Value)
    (host : τ → Request → Except EvalError Value × τ) (state : τ) (r : Request) :
    Except EvalError Value × τ :=
  if r.op = op then (.ok reply, state) else host state r

/-- A new frame holds the given locals; no continuation is touched. -/
theorem Store.env_push {store store' : Store} (hs : store.frames.Sound) {recycle : Bool}
    {parent : Option FrameId} {ts : List LocalId} {vs : List Value} {x : FrameId}
    (hpush : store.push recycle parent ts vs = (x, store')) :
    store'.frames.env x = .ofArgs ts vs ∧ store'.continuations = store.continuations := by
  have hx : x = (store.frames.push recycle parent).1 := congrArg (·.1) hpush.symm
  have hframes : store'.frames = (store.frames.push recycle parent).2.defineAll
      (store.frames.push recycle parent).1
      ts vs := congrArg (·.2.frames) hpush.symm
  exact ⟨by rw [hframes, hx, hs.env_push], congrArg (·.2.continuations) hpush.symm⟩

/-! ### Towers -/

/-- What stands below the guard: the clauses that resumed the guarded call, each with the mark of
its tail continuation, and the call of the function that has the handler. -/
inductive Tower (handle : ExprId) : ResumeKind → List Pending → Prop where
  | call {kind : ResumeKind} (owned : Option FrameId) : Tower handle kind [.call owned]
  | resume {below : List Pending} (owned : Option FrameId) (h : Tower handle .resume below) :
    Tower handle .resume (.clause handle .resume owned :: below)
  | tail {below : List Pending} (owned : Option FrameId) (h : Tower handle .tail below) :
    Tower handle .tail (.transfer handle :: .clause handle .tail owned :: below)

/-- What stands below a computation that a continuation of the given kind resumed. -/
def marked (handle : ExprId) : ResumeKind → List Pending → List Pending
  | .tail, stack => .transfer handle :: stack
  | .resume, stack => stack

/-- The construct as part of a suspended call: it gives no frame back. -/
def Pending.detach : Pending → Pending
  | .call _ => .call none
  | .clause handle kind _ => .clause handle kind none
  | q => q

namespace Tower

variable {handle : ExprId} {kind : ResumeKind}

theorem detach (h : Tower handle kind below) : Tower handle kind (below.map Pending.detach) := by
  induction h with
  | call owned => exact .call none
  | resume owned _ ih => exact .resume none ih
  | tail owned _ ih => exact .tail none ih

theorem ownedFrames_detach (h : Tower handle kind below) :
    ownedFrames (below.map Pending.detach) = [] := by
  induction h with
  | call owned => rfl
  | resume owned _ ih => exact ih
  | tail owned _ ih => exact ih

section Down

variable {σ : Type} (s : Setting) (host : σ → Request → Except EvalError Value × σ) (state : σ)

/-- A value goes down a tower unchanged. -/
theorem reaches_value (h : Tower handle kind below) (v : Value) (store : Store) :
    ∃ last, Reaches (s.advance host) (state, .of (.value v) below store) (state, last) ∧
      s.result? last = some v := by
  induction h generalizing store with
  | call owned =>
    exact ⟨.done (.value v) (store.release owned),
      Setting.reaches_next rfl (Setting.reaches_next rfl .refl), rfl⟩
  | resume owned _ ih =>
    obtain ⟨last, hreach, hv⟩ := ih (store.release owned)
    exact ⟨last, Setting.reaches_next rfl hreach, hv⟩
  | @tail below owned _ ih =>
    obtain ⟨last, hreach, hv⟩ := ih (store.release owned)
    have hleave : s.step ⟨.exit (.transfer handle v), .clause handle .tail owned :: below, store⟩ =
        .of (.value v) below (store.release owned) := if_pos rfl
    exact ⟨last, Setting.reaches_next rfl (Setting.reaches_next hleave hreach), hv⟩

/-- So does the value of a transfer: the clause of its handler takes it, or no clause does. -/
theorem reaches_transfer (h : Tower handle kind below) (target : ExprId) (v : Value)
    (store : Store) :
    ∃ last, Reaches (s.advance host) (state, .of (.exit (.transfer target v)) below store)
      (state, last) ∧ s.result? last = some v := by
  -- at a clause of the tower the transfer is over or goes on
  have hclause {kind : ResumeKind} {below : List Pending} {owned : Option FrameId}
      (hbelow : Tower handle kind below)
      (ih : ∀ store, ∃ last, Reaches (s.advance host)
      (state, .of (.exit (.transfer target v)) below store)
        (state, last) ∧ s.result? last = some v) (store : Store) :
      ∃ last, Reaches (s.advance host)
        (state, .of (.exit (.transfer target v)) (.clause handle kind owned :: below) store)
        (state, last) ∧ s.result? last = some v := by
    by_cases ht : target = handle
    · obtain ⟨last, hreach, hv⟩ := hbelow.reaches_value s host state v (store.release owned)
      exact ⟨last, Setting.reaches_next (if_pos ht) hreach, hv⟩
    · obtain ⟨last, hreach, hv⟩ := ih (store.release owned)
      exact ⟨last, Setting.reaches_next (if_neg ht) hreach, hv⟩
  induction h generalizing store with
  | call owned =>
    exact ⟨.done (.exit (.transfer target v)) (store.release owned),
      Setting.reaches_next rfl (Setting.reaches_next rfl .refl), rfl⟩
  | resume owned hbelow ih => exact hclause hbelow ih store
  | tail owned hbelow ih =>
    obtain ⟨last, hreach, hv⟩ := hclause hbelow ih store
    exact ⟨last, Setting.reaches_next rfl hreach, hv⟩

end Down

/-- A request takes a tower along.  The frames of the tower, which only this side has, are kept for
good. -/
theorem reaches_request {σ : Type} {c : Sharing} (host : σ → Request → Except EvalError Value × σ)
    (state : σ) {ρ : Renaming} {extra : FrameId → Prop} {stack : List Pending}
    {store store' : Store} (h : Tower handle kind below) (hg : c.Ground ρ extra stack store store')
    (howned : ∀ x ∈ ownedFrames below, extra x) (op : OpRef) (args : List Value)
    (rest : List Pending) :
    ∃ store'', Reaches (c.right.advance host) (state, .of (.request op args rest) below store')
        (state, .done (.request op args ((below.map Pending.detach).reverse ++ rest)) store'') ∧
      c.Ground ρ extra stack store store'' := by
  -- a frame that is owned is pinned on the way
  have hpin (owned : Option FrameId) (ho : ∀ x, owned = some x → extra x) {store' : Store}
      (hg : c.Ground ρ extra stack store store') :
      ∃ store'', c.Ground ρ extra stack store store'' ∧
        (∀ below rest, c.right.step ⟨.request op args rest, .call owned :: below, store'⟩ =
          .of (.request op args (.call none :: rest)) below store'') ∧
        ∀ kind below rest, c.right.step
          ⟨.request op args rest, .clause handle kind owned :: below, store'⟩ = .of
          (.request op args (.clause handle kind none :: rest)) below store'' := by
    cases owned with
    | none => exact ⟨store', hg, fun _ _ => rfl, fun _ _ _ => rfl⟩
    | some x => exact ⟨store'.pin x, hg.pin_right (ho x rfl), fun _ _ => rfl, fun _ _ _ => rfl⟩
  have hmem {q : Pending} {below : List Pending} (hq : q ∈ below) {x : FrameId}
      (hx : q.owned? = some x) :
      x ∈ ownedFrames below := mem_filterMap.mpr ⟨q, hq, hx⟩
  induction h generalizing store' rest with
  | call owned =>
    obtain ⟨store'', hg', hcall, -⟩ := hpin owned (fun x hx => howned x (hmem mem_cons_self hx)) hg
    exact ⟨store'', Setting.reaches_next (hcall _ _) (Setting.reaches_next rfl .refl), hg'⟩
  | @resume below owned _ ih =>
    obtain ⟨store₁, hg₁, -, hclause⟩ := hpin owned (fun x hx => howned x (hmem mem_cons_self hx)) hg
    obtain ⟨store'', hreach, hg'⟩ :=
      ih hg₁ (fun x hx => howned x (by simp [ownedFrames_cons, hx]))
        (.clause handle .resume none :: rest)
    refine ⟨store'', Setting.reaches_next (hclause _ _ _) ?_, hg'⟩
    simpa [Pending.detach] using hreach
  | @tail below owned _ ih =>
    obtain ⟨store₁, hg₁, -, hclause⟩ :=
      hpin owned (fun x hx => howned x (hmem (mem_cons_of_mem _ mem_cons_self) hx)) hg
    obtain ⟨store'', hreach, hg'⟩ := ih hg₁ (fun x hx => howned x (by simp [ownedFrames_cons, hx]))
      (.clause handle .tail none :: .transfer handle :: rest)
    refine ⟨store'', Setting.reaches_next rfl (Setting.reaches_next (hclause _ _ _) ?_), hg'⟩
    simpa [Pending.detach] using hreach

end Tower

/-- A tower below a guard, with the frames that only the handled run has. -/
structure Footing (handle : ExprId) (kind : ResumeKind) (extra : FrameId → Prop) (frame : FrameId)
    (below : List Pending) : Prop where
  tower : Tower handle kind below
  frame : extra frame
  owned : ∀ x ∈ ownedFrames below, extra x

theorem Footing.detach {handle : ExprId} {kind : ResumeKind} {extra : FrameId → Prop}
    {frame : FrameId} (h : Footing handle kind extra frame below) :
    Footing handle kind extra frame (below.map Pending.detach) :=
  ⟨h.tower.detach, h.frame, by simp [h.tower.ownedFrames_detach]⟩

theorem Control.above_rename (ρ : Renaming) {up : List Pending}
    (h : up ≠ [] ∨ ∃ e frame, control = .eval e frame) :
    up.map (·.rename ρ) ≠ [] ∨ ∃ e frame, control.rename ρ = .eval e frame := by
  refine h.imp (fun h => by simpa using h) ?_
  rintro ⟨e, frame, rfl⟩
  exact ⟨e, ρ.frame frame, rfl⟩

namespace Sharing

variable {c : Sharing} {ρ : Renaming} {extra : FrameId → Prop} {store store' : Store}

theorem KeepsCallable.of_isPortable {t : Callable} (h : t.isPortable = true)
    (hfn : ∀ d, t = .fn d → c.known d) :
    c.KeepsCallable fs n t := by
  cases t with
  | fn d => exact hfn d rfl
  | lambda | continuation => cases h
  | op | intrinsic => trivial

/-! ### Steps above the guard -/

/-- A step in the upper part of a stack.  Both sides fail, or both go on there, and what stands
below is kept under the names that it has. -/
theorem Ground.step_above (ha : c.Agrees) (up : List Pending)
    (h : c.Ground ρ extra (up ++ below) store store') (hc : c.ControlIn store (up ++ below) control)
    (hup : up ≠ [] ∨ ∃ e frame, control = .eval e frame) :
    (∃ e e' store₁ store₁', c.left.step ⟨control, up, store⟩ = .fail e store₁ ∧
      c.right.step ⟨control.rename ρ, up.map (·.rename ρ), store'⟩ = .fail e' store₁') ∨
    ∃ ρ₁ control₁ up₁ store₁ store₁', c.left.step ⟨control, up, store⟩ = .of control₁ up₁ store₁ ∧
      c.right.step ⟨control.rename ρ, up.map (·.rename ρ), store'⟩ =
        .of (control₁.rename ρ₁) (up₁.map (·.rename ρ₁)) store₁' ∧
      c.Ground ρ₁ extra (up₁ ++ below) store₁ store₁' ∧
      c.ControlIn store₁ (up₁ ++ below) control₁ ∧
      below.map (·.rename ρ₁) = below.map (·.rename ρ) := by
  have hup' := Control.above_rename ρ hup
  have hfollows := h.step ha hc
  rw [map_append, Setting.step_under _ _ hup, Setting.step_under _ _ hup'] at hfollows
  cases hl : c.left.step ⟨control, up, store⟩ with
  | done control₁ store₁ => exact absurd hl (Setting.step_ne_done _ hup _)
  | fail e store₁ =>
    cases hr : c.right.step ⟨control.rename ρ, up.map (·.rename ρ), store'⟩ with
    | done control₁ store₁ => exact absurd hr (Setting.step_ne_done _ hup' _)
    | fail e' store₁' => exact .inl ⟨e, e', store₁, store₁', rfl, rfl⟩
    | next st =>
      rw [hl, hr] at hfollows
      exact hfollows.elim
  | next st =>
    cases hr : c.right.step ⟨control.rename ρ, up.map (·.rename ρ), store'⟩ with
    | done control₁ store₁ => exact absurd hr (Setting.step_ne_done _ hup' _)
    | fail e store₁ =>
      rw [hl, hr] at hfollows
      exact hfollows.elim
    | next st' =>
      rw [hl, hr] at hfollows
      obtain ⟨ρ₁, hground, hkeeps, hcontrol, hstack⟩ := hfollows
      obtain ⟨control₁, up₁, store₁⟩ := st
      obtain ⟨control₁', up₁', store₁'⟩ := st'
      simp only [map_append] at hstack
      obtain ⟨rfl, hbelow⟩ := append_inj' hstack (by simp)
      obtain rfl : control₁' = control₁.rename ρ₁ := hcontrol
      exact .inr ⟨ρ₁, control₁, up₁, store₁, store₁', rfl, rfl, hground, hkeeps, hbelow.symm⟩

/-! ### The answer of the clause -/

/-- A clause for one operation whose body resumes the continuation with a constant. -/
structure ConstantClause (s : Setting) (handle : ExprId) (cl : Clause) (op : OpRef)
    (kind : ResumeKind) (reply : Value) : Prop where
  clauseFor? : ∀ o, s.clauseFor? handle [cl] o = if o = op then some (cl, kind) else none
  not_mem : cl.head.continuation ∉ cl.head.params
  body : ∃ callee arg l, cl.body.form = .call callee [arg] ∧ callee.form = .var
    cl.head.continuation ∧ arg.form = .literal l ∧ reply = .ofLiteral arg.ty l

/-- The guard takes a request for the operation, and the clause resumes the computation with the
constant. -/
theorem Ground.reaches_answer {σ : Type} (host : σ → Request → Except EvalError Value × σ)
    (state : σ) {handle : ExprId} {cl : Clause} {op : OpRef} {kind : ResumeKind} {reply : Value}
    {stack : List Pending} {frame : FrameId} (hcl : ConstantClause c.right handle cl op kind reply)
    (h : c.Ground ρ extra stack store store') (hf : Footing handle kind extra frame below)
    (args : List Value) (rest : List Pending) :
    ∃ extra' below' store'',
      Reaches₁ (c.right.advance host)
        (state, c.right.step ⟨.request op args rest, .guard handle [cl] frame :: below, store'⟩)
        (state, .of (.value reply) (rest.reverse ++ .guard handle [cl] frame :: below') store'') ∧
      c.Ground ρ extra' stack store store'' ∧ Footing handle kind extra' frame below' := by
  obtain ⟨callee, arg, l, hbody, hcallee, harg, hreply⟩ := hcl.body
  have hs := h.frames.sound_right
  have hinUse := (h.frames.extra frame hf.frame).1
  -- the frame of the handler is kept, and the rest of the computation is captured
  set k : ContinuationId := ⟨store'.continuations.size⟩ with hk
  set captured : Captured := { handle, clauses := [cl], frame, rest, kind }
  set store₁ : Store :=
    { store'.pin frame with continuations := store'.continuations.push captured } with hstore₁
  have hpinned : store₁.frames.Pinned frame := (Frames.pinned_pin hs hinUse.1).mpr (.inl rfl)
  have h₁ : c.Ground ρ extra stack store store₁ := (h.pin_right hf.frame).capture_right captured
  -- the clause starts in a frame of its own
  generalize hpush : store₁.push c.right.recycle (some frame)
    (cl.head.continuation :: cl.head.params) (.callable (.continuation k) :: args) = pushed
  obtain ⟨x, store₂⟩ := pushed
  have hraise : c.right.step ⟨.request op args rest, .guard handle [cl] frame :: below, store'⟩ =
      .of (.eval cl.body x) (.clause handle kind (some x) :: below) store₂ := by
    simp only [Setting.step, Setting.raise, hcl.clauseFor?, if_true]
    exact hpush ▸ rfl
  have h₂ := h₁.enter_right c.right.recycle (fun q hq => Option.some.inj hq ▸ hpinned) _ _ hpush
  obtain ⟨henv, hcont⟩ := Store.env_push h₁.frames.sound_right hpush
  have hread : store₂.frames.read? x cl.head.continuation = some (.callable (.continuation k)) := by
    refine Frames.read?_of_env ?_
    rw [henv]
    refine Frames.ofArgs_of_getElem? (i := 0) rfl rfl fun j hj hget => hcl.not_mem ?_
    obtain ⟨j, rfl⟩ := Nat.exists_eq_succ_of_ne_zero hj.ne'
    exact mem_of_getElem? hget
  -- the continuation is called with the constant
  set store₃ : Store := { store₂ with
    continuations := store₂.continuations.setIfInBounds k.index { captured with resumed := 1 } }
  have hresume : Setting.resumeContinuation k reply (.clause handle kind (some x) :: below) store₂ =
      .of (.value reply) (rest.reverse ++ .guard handle [cl] frame ::
        marked handle kind (.clause handle kind (some x) :: below)) store₃ := by
    have hget : store₂.continuations[k.index]? = some captured := by
      rw [hcont]; exact Array.getElem?_push_size
    simp only [Setting.resumeContinuation, hget, reverseAux_eq]
    cases kind <;> rfl
  refine ⟨fun z => z = x ∨ extra z, marked handle kind (.clause handle kind (some x) :: below),
    store₃, ?_, ?_, ?_, .inr hf.frame, ?_⟩
  · rw [hraise]
    have hcall (stack : List Pending) : c.right.step ⟨.eval cl.body x, stack, store₂⟩ =
        .of (.eval callee x) (.callee [arg] x :: stack) store₂ := by
      simp only [Setting.step, Setting.eval, hbody]
    have hvar (stack : List Pending) : c.right.step ⟨.eval callee x, stack, store₂⟩ =
        .of (.value (.callable (.continuation k))) stack store₂ := by
      simp only [Setting.step, Setting.eval, hcallee, hread]
    have hliteral (stack : List Pending) : c.right.step ⟨.eval arg x, stack, store₂⟩ =
        .of (.value reply) stack store₂ := by
      simp only [Setting.step, Setting.eval, harg, hreply]
    exact Setting.reaches₁_next (hcall _) <| Setting.reaches_next (hvar _) <|
      Setting.reaches_next rfl <| Setting.reaches_next (hliteral _) <| Setting.reaches_next
        hresume .refl
  · refine h₂.set_right (fun l hl heq => ?_) _
    exact Nat.lt_irrefl _ (heq ▸ h.cont_lt hl)
  · cases kind with
    | tail => exact .tail _ hf.tower
    | resume => exact .resume _ hf.tower
  · intro y hy
    have hmem : y = x ∨ y ∈ ownedFrames below := by
      cases kind <;> simpa [marked, ownedFrames_cons, Pending.owned?] using hy
    exact hmem.imp_right (hf.owned y)

/-! ### The two runs side by side -/

/-- What has left the call at the bottom of a stack: a value, a transfer, or a request that takes
the call along. -/
def HasLeft : Control → Prop
  | .value _ | .exit (.transfer _ _) | .request _ _ (.call none :: _) => True
  | _ => False

/-- A call is left or fails. -/
theorem step_call (s : Setting) (hc : ∀ e frame, control ≠ .eval e frame) (owned : Option FrameId)
    (store : Store) :
    (∃ e store₁, s.step ⟨control, [.call owned], store⟩ = .fail e store₁) ∨
      ∃ control₁ store₁, s.step ⟨control, [.call owned], store⟩ = .of control₁ [] store₁ ∧
        HasLeft control₁ := by
  cases control with
  | eval e frame => exact absurd rfl (hc e frame)
  | value v => exact .inr ⟨.value v, store.release owned, rfl, trivial⟩
  | exit x =>
    cases x with
    | ret v => exact .inr ⟨.value v, store.release owned, rfl, trivial⟩
    | transfer target v =>
      exact .inr ⟨.exit (.transfer target v), store.release owned, rfl, trivial⟩
    | breakLoop | continueLoop => exact .inl ⟨_, _, rfl⟩
  | request op args rest =>
    cases owned with
    | none => exact .inr ⟨.request op args (.call none :: rest), store, rfl, trivial⟩
    | some x => exact .inr ⟨.request op args (.call none :: rest), store.pin x, rfl, trivial⟩

/-- What the host was given is kept like the values of any construct.  So it stands at the very
bottom of the stack, where no step gets. -/
def handed (handles : List Callable) : Pending := .finalized (.tuple (handles.map .callable))

theorem handed_rename (handles : List Callable) :
    (handed handles).rename ρ = handed (handles.map (·.rename ρ)) := by
  rw [handed, handed, Pending.rename, Value.rename, renameAll_eq_map, map_map, map_map]
  rfl

theorem handed_inj {handles' : List Callable} (h : handed handles = handed handles') :
    handles = handles' := by
  have hmap : handles.map Value.callable = handles'.map Value.callable := by simpa [handed] using h
  exact map_injective_iff.mpr (fun _ _ h => Value.callable.inj h) hmap

theorem keepsPending_handed : c.KeepsPending fs n (handed handles) ↔
    ∀ t ∈ handles, c.KeepsCallable fs n t := by
  have hcallables : (Value.tuple (handles.map .callable)).callables = handles := by
    rw [Value.callables, allCallables_eq_flatMap, flatMap_map]
    simp [Value.callables]
  constructor
  · intro h t ht
    exact h.held _ (mem_singleton_self _) t (by rwa [hcallables])
  · intro h
    refine ⟨by simp [handed, Pending.code],
      fun v hv t ht => ?_, by simp [handed, Pending.use?], by simp [handed]⟩
    rw [handed, Pending.held, mem_singleton] at hv
    subst hv
    exact h t (by rwa [hcallables] at ht)

/-- Nothing is in use yet. -/
theorem ground_empty (c : Sharing) : c.Ground .refl (fun _ => False) [handed []] {} {} where
  frames := {
    sound := Frames.sound_empty
    sound_right := Frames.sound_empty
    lineage := by simp [Frames.InUse]
    locals := by simp [Frames.InUse]
    inUse := by simp [Frames.InUse]
    cell := by simp [Frames.InUse]
    inj := by simp [Frames.InUse]
    extra := by simp }
  cont := by simp
  cont_inj := by simp
  detached := by simp
  kept := by simp
  anchored := ⟨by simp [handed, Pending.frame?], by simp [handed, Pending.owned?], trivial⟩
  stack := by simp [keepsPending_handed]

/-- The host's state is known under the names of any renaming that keeps what it was given. -/
theorem rename_eq_of_handed {σ : Type} {ρ₁ : Renaming} {state : HostState σ}
    (h : (handed state.handles).rename ρ₁ = (handed state.handles).rename ρ) :
    state.rename ρ₁ = state.rename ρ := by
  rw [handed_rename, handed_rename] at h
  rw [HostState.rename, HostState.rename, handed_inj h]

section Linked

variable {σ : Type} (c) (answers : σ → Request → Except EvalError Value × σ) (handle : ExprId)
  (cl : Clause) (op : OpRef) (kind : ResumeKind) (reply : Value)

/-- Where the two runs stand, the one that the host answers on the left and the handled one on the
right. -/
inductive Linked : HostState σ × Step → HostState σ × Step → Prop where
  /-- The code of the function runs on both sides. -/
  | running {ρ : Renaming} {extra : FrameId → Prop} {frame : FrameId} {up below : List Pending}
    {owned : Option FrameId} {control : Control} {store store' : Store} {state : HostState σ}
    (ground : c.Ground ρ extra (up ++ [.call owned, handed state.handles]) store store')
    (keeps : c.KeepsControl store.frames store.continuations.size
    (up ++ [.call owned, handed state.handles]) control)
    (footing : Footing handle kind extra frame below) :
    Linked (state, .of control (up ++ [.call owned]) store)
      (state.rename ρ, .of (control.rename ρ)
        (up.map (·.rename ρ) ++ .call (owned.map ρ.frame) :: .guard handle [cl] frame :: below)
        store')
  /-- The call of the function was left. -/
  | left {ρ : Renaming} {extra : FrameId → Prop} {frame : FrameId} {below : List Pending}
      {control : Control}
    {store store' : Store} {state : HostState σ}
    (ground : c.Ground ρ extra [handed state.handles] store store')
    (keeps : c.KeepsControl store.frames store.continuations.size [handed state.handles] control)
    (hasLeft : HasLeft control) (footing : Footing handle kind extra frame below) :
    Linked (state, .of control [] store)
      (state.rename ρ, .of (control.rename ρ) (.guard handle [cl] frame :: below) store')
  /-- The host is about to answer with the constant, and the clause is on its way to the same. -/
  | answering {ρ : Renaming} {extra : FrameId → Prop} {frame : FrameId} {rest below : List Pending}
    {args : List Value} {store store' : Store} {state : HostState σ} {step' : Step}
    (ground : c.Ground ρ extra (rest.reverse ++ [.call none, handed state.handles]) store store')
    (footing : Footing handle kind extra frame below)
    (path : Reaches₁ (c.right.advance (HostState.byHandles answers)) (state.rename ρ, step')
      (state.rename ρ, .of (.value reply)
        (rest.reverse.map (·.rename ρ) ++ .call none :: .guard handle [cl] frame :: below)
        store')) :
    Linked (state, .done (.request op args (.call none :: rest)) store) (state.rename ρ, step')
  /-- Both sides ask the host. -/
  | asking {ρ : Renaming} {extra : FrameId → Prop} {frame : FrameId} {rest below : List Pending}
      {o : OpRef}
    {args : List Value} {store store' : Store} {state : HostState σ} (ne : o ≠ op)
    (ground : c.Ground ρ extra [handed state.handles] store store')
    (keeps : c.KeepsControl store.frames store.continuations.size [handed state.handles]
      (.request o args (.call none :: rest)))
    (footing : Footing handle kind extra frame below) :
    Linked (state, .done (.request o args (.call none :: rest)) store)
      (state.rename ρ, .done (.request o (args.map (·.rename ρ))
        (below.reverse ++ .guard handle [cl] frame :: .call none :: rest.map (·.rename ρ))) store')
  /-- Both runs are over. -/
  | ended {ρ : Renaming} {state : HostState σ} {step step' : Step} {v : Value}
      (left : c.left.result? step = some v)
    (right : c.right.result? step' = some (v.rename ρ)) : Linked (state, step)
    (state.rename ρ, step')
  | failed {state state' : HostState σ} {e e' : EvalError} {store store' : Store} :
    Linked (state, .fail e store) (state', .fail e' store')

end Linked

namespace Linked

variable {σ : Type} {answers : σ → Request → Except EvalError Value × σ} {handle : ExprId}
  {cl : Clause} {op : OpRef} {kind : ResumeKind} {reply : Value} {frame : FrameId}
  {state : HostState σ}

/-- While the code of the function runs, the two sides take their steps together. -/
theorem advance_running (ha : c.Agrees) {up : List Pending} {owned : Option FrameId}
    (ground : c.Ground ρ extra (up ++ [.call owned, handed state.handles]) store store')
    (keeps : c.ControlIn store (up ++ [.call owned, handed state.handles]) control)
    (footing : Footing handle kind extra frame below) :
    ∃ step', Linked c answers handle cl op kind reply
        (state, c.left.step ⟨control, up ++ [.call owned], store⟩) (state.rename ρ, step') ∧
      c.right.step ⟨control.rename ρ,
        up.map (·.rename ρ) ++ .call (owned.map ρ.frame) :: .guard handle [cl] frame ::
        below, store'⟩ = step' := by
  by_cases hup : up ≠ [] ∨ ∃ e frame, control = .eval e frame
  · have hup' := Control.above_rename ρ hup
    refine ⟨_, ?_, rfl⟩
    rw [Setting.step_under _ _ hup, Setting.step_under _ _ hup']
    obtain ⟨e, e', store₁, store₁', hl, hr⟩ | ⟨ρ₁, control₁, up₁, store₁, store₁', hl, hr, hground,
      hkeeps, hsame⟩ :=
      Ground.step_above ha up ground keeps hup
    · rw [hl, hr]
      exact .failed
    · rw [hl, hr]
      simp only [map_cons, map_nil, List.cons.injEq, Pending.rename, Pending.call.injEq,
        and_true] at hsame
      rw [← rename_eq_of_handed hsame.2, ← hsame.1]
      exact .running hground hkeeps footing
  · -- the call is the topmost construct
    rw [not_or, not_not] at hup
    obtain ⟨rfl, hcontrol⟩ := hup
    have hne : ∀ e frame, control ≠ .eval e frame := fun e frame h => hcontrol ⟨e, frame, h⟩
    refine ⟨_, ?_, rfl⟩
    have hright : c.right.step ⟨control.rename ρ, [.call (owned.map ρ.frame)] ++ .guard handle [cl]
        frame :: below,
        store'⟩ = (c.right.step ⟨control.rename ρ, [.call (owned.map ρ.frame)], store'⟩).under
          (.guard handle [cl] frame :: below) := Setting.step_under _ _ (.inl (by simp))
    change Linked c answers handle cl op kind reply
      (state, c.left.step ⟨control, [.call owned], store⟩)
      (state.rename ρ, c.right.step ⟨control.rename ρ,
        [.call (owned.map ρ.frame)] ++ .guard handle [cl] frame :: below, store'⟩)
    rw [hright]
    obtain ⟨e, e', store₁, store₁', hl, hr⟩ | ⟨ρ₁, control₁, up₁, store₁, store₁', hl, hr, hground,
      hkeeps, hsame⟩ :=
      Ground.step_above ha [.call owned] ground keeps (.inl (by simp))
    · rw [map_singleton, Pending.rename] at hr
      rw [hl, hr]
      exact .failed
    · rw [map_singleton, Pending.rename] at hr
      obtain ⟨e, store₂, hfail⟩ | ⟨control₂, store₂, hof, hleft⟩ := step_call c.left hne owned store
      · rw [hfail] at hl
        cases hl
      · rw [hof] at hl
        cases hl
        rw [hof, hr]
        rw [map_singleton, map_singleton, singleton_inj] at hsame
        rw [← rename_eq_of_handed hsame]
        exact .left hground hkeeps hleft footing

/-- The constructs of a request that has left the call need nothing of the stack. -/
theorem detached_of_keeps {o : OpRef}
    (keeps : c.KeepsControl fs n [handed handles] (.request o args rest)) :
    Detached fs rest := by
  intro q hq
  refine ⟨(keeps.2 q hq).2.1, fun x hx => ?_⟩
  exact ((keeps.2 q hq).2.2 x hx).resolve_right (by simp [base?, handed, Pending.base?])

/-- What has left the call goes down the tower, to the clause, or to the host. -/
theorem advance_left (hcl : ConstantClause c.right handle cl op kind reply)
    (ground : c.Ground ρ extra [handed state.handles] store store')
    (keeps : c.ControlIn store [handed state.handles] control)
    (hasLeft : HasLeft control) (footing : Footing handle kind extra frame below) :
    ∃ b, Linked c answers handle cl op kind reply (state, c.left.step ⟨control, [], store⟩) b ∧
      Reaches₁ (c.right.advance (HostState.byHandles answers))
        (state.rename ρ, .of (control.rename ρ) (.guard handle [cl] frame :: below) store') b := by
  cases control with
  | eval e frame => exact hasLeft.elim
  | value v =>
    obtain ⟨last, hreach, hv⟩ := footing.tower.reaches_value c.right (HostState.byHandles answers)
      (state.rename ρ) (v.rename ρ) store'
    exact ⟨_, .ended (v := v) rfl hv, Setting.reaches₁_next rfl hreach⟩
  | exit x =>
    cases x with
    | transfer target v =>
      obtain ⟨last, hreach, hv⟩ :=
        footing.tower.reaches_transfer c.right (HostState.byHandles answers) (state.rename ρ) target
          (v.rename ρ) store'
      exact ⟨_, .ended (v := v) rfl hv, Setting.reaches₁_next rfl hreach⟩
    | ret | breakLoop | continueLoop => exact hasLeft.elim
  | request o args rest =>
    obtain ⟨rest, rfl⟩ : ∃ rest', rest = .call none :: rest' := by
      unfold HasLeft at hasLeft
      split at hasLeft
      · rename_i h
        cases h
      · rename_i h
        cases h
      · rename_i h
        cases h
        exact ⟨_, rfl⟩
      · exact hasLeft.elim
    have hmap : (Pending.call none :: rest).map (·.rename ρ) = .call none ::
        rest.map (·.rename ρ) := rfl
    by_cases ho : o = op
    · subst ho
      -- the clause answers; both sides put the same constructs back
      have hback := ground.put_back (detached_of_keeps keeps) fun q hq => (keeps.2 q hq).1
      rw [reverse_cons, append_assoc, singleton_append] at hback
      obtain ⟨extra', below', store'', hreach, hground, hfooting⟩ :=
        Ground.reaches_answer (HostState.byHandles answers) (state.rename ρ) hcl hback footing
          (args.map (·.rename ρ)) (.call none :: rest.map (·.rename ρ))
      refine ⟨_, .answering hground hfooting ?_, Setting.reaches₁_next rfl .refl⟩
      rw [reverse_cons, append_assoc, singleton_append, ← map_reverse] at hreach
      exact hreach
    · obtain ⟨store'', hreach, hground⟩ := footing.tower.reaches_request
        (HostState.byHandles answers) (state.rename ρ) ground footing.owned o
        (args.map (·.rename ρ)) (.guard handle [cl] frame :: .call none :: rest.map (·.rename ρ))
      have hpass : c.right.step ⟨(Control.request o args (.call none :: rest)).rename ρ,
          .guard handle [cl] frame :: below, store'⟩ =
          .of (.request o (args.map (·.rename ρ))
            (.guard handle [cl] frame :: .call none :: rest.map (·.rename ρ))) below store' := by
        simp only [Setting.step, Setting.raise, Control.rename, hcl.clauseFor?, if_neg ho, hmap]
      exact ⟨_, .asking ho hground keeps footing.detach, Setting.reaches₁_next hpass hreach⟩

/-- The host answers with the constant, and the clause has done so. -/
theorem advance_answering (hdecl : (c.left.program.op? op).isSome)
    (hreply : reply.isFirstOrder = true) {step' : Step}
    (ground : c.Ground ρ extra (rest.reverse ++ [.call none, handed state.handles]) store store')
    (footing : Footing handle kind extra frame below)
    (path : Reaches₁ (c.right.advance (HostState.byHandles answers)) (state.rename ρ, step')
      (state.rename ρ, .of (.value reply)
        (rest.reverse.map (·.rename ρ) ++ .call none :: .guard handle [cl] frame :: below)
        store')) :
    ∃ b b', c.left.advance (constantly op reply (HostState.byHandles answers))
        (state, .done (.request op args (.call none :: rest)) store) = some b ∧
      Linked c answers handle cl op kind reply b b' ∧
      Reaches₁ (c.right.advance (HostState.byHandles answers)) (state.rename ρ, step') b' := by
  obtain ⟨decl, hd⟩ := Option.isSome_iff_exists.mp hdecl
  obtain ⟨effect, he, -⟩ := Program.op?_eq_some_iff.mp hd
  obtain ⟨xs, hadvance⟩ :=
    (Setting.advance_request (constantly op reply (HostState.byHandles answers)) state he hd args
      (.call none :: rest) store).1 reply state (if_pos rfl)
  rw [reverse_cons] at hadvance
  refine ⟨_, _, hadvance, ?_, path⟩
  have hkeeps : c.ControlIn store
      (rest.reverse ++ [.call none, handed state.handles]) (.value reply) := .of_isFirstOrder hreply
  have hcontrol : (Control.value reply).rename ρ = .value reply := by
    rw [Control.rename, Value.rename_of_isFirstOrder _ hreply]
  have hlinked : Linked c answers handle cl op kind reply _ _ :=
    .running (ground.with_suspensions xs store'.suspensions) hkeeps footing
  rwa [hcontrol] at hlinked

/-- What a host of handles gives is kept, and so is what it holds. -/
theorem keepsValue_of_byHandles
    (hanswers : ∀ own r v own', answers own r = (.ok v, own') → ∀ d, .fn d ∈ v.callables →
      c.known d) {r : Request}
    {v : Value} {state₁ : HostState σ} (h : HostState.byHandles answers state r = (.ok v, state₁))
    (hhandles : ∀ t ∈ state.handles, c.KeepsCallable fs n t)
    (hargs : ∀ v ∈ r.args, c.KeepsValue fs n v) :
    (∀ t ∈ state₁.handles, c.KeepsCallable fs n t) ∧ c.KeepsValue fs n v := by
  obtain ⟨hheld, a, own, ha, hlink⟩ := HostState.of_byHandles answers state h
  have hkept : ∀ t ∈ state₁.handles, c.KeepsCallable fs n t := by
    intro t ht
    rw [hheld] at ht
    obtain ht | ht := mem_append.mp ht
    · exact hhandles t ht
    · obtain ⟨w, hw, ht⟩ := mem_flatMap.mp ht
      exact hargs w hw t ht
  refine ⟨hkept, fun t ht => ?_⟩
  obtain ht | ⟨ht, hportable⟩ := Value.mem_callables_link? hlink t ht
  · exact hkept t ht
  · exact .of_isPortable hportable fun d hd => hanswers _ _ _ _ ha d (hd ▸ ht)

/-- The host gives both sides the same answer. -/
theorem advance_asking (heffects : c.right.program.effects = c.left.program.effects)
    (hanswers : ∀ own r v own', answers own r = (.ok v, own') → ∀ d, .fn d ∈ v.callables →
      c.known d) {o : OpRef}
    (ho : o ≠ op) (ground : c.Ground ρ extra [handed state.handles] store store')
    (keeps : c.ControlIn store [handed state.handles]
      (.request o args (.call none :: rest)))
    (footing : Footing handle kind extra frame below) :
    (c.left.advance (constantly op reply (HostState.byHandles answers))
        (state, .done (.request o args (.call none :: rest)) store) = none ∧
      c.right.advance (HostState.byHandles answers)
      (state.rename ρ, .done (.request o (args.map (·.rename ρ))
        (below.reverse ++ .guard handle [cl] frame :: .call none :: rest.map (·.rename ρ)))
        store') = none) ∨
    ∃ b b', c.left.advance (constantly op reply (HostState.byHandles answers))
        (state, .done (.request o args (.call none :: rest)) store) = some b ∧
      c.right.advance (HostState.byHandles answers)
      (state.rename ρ, .done (.request o (args.map (·.rename ρ))
        (below.reverse ++ .guard handle [cl] frame :: .call none :: rest.map (·.rename ρ)))
        store') = some b' ∧
      Linked c answers handle cl op kind reply b b' := by
  have heffect? (d : DefId) : c.right.program.effect? d = c.left.program.effect? d := by
    rw [Program.effect?, heffects, Program.effect?]
  have hop? : c.right.program.op? o = c.left.program.op? o := by
    rw [Program.op?, heffect?, Program.op?]
  cases hd : c.left.program.op? o with
  | none =>
    exact .inl ⟨Setting.advance_request_of_none hd _ _ _, Setting.advance_request_of_none
      (hop?.trans hd) _ _ _⟩
  | some decl =>
    obtain ⟨effect, he, -⟩ := Program.op?_eq_some_iff.mp hd
    have hrequest : (c.right.request o effect decl (args.map (·.rename ρ)) store').forget =
        (c.left.request o effect decl args store).forget := by
      have hargs : (args.map (·.rename ρ)).map (·.rename .forget) = args.map
          (·.rename .forget) := by
        rw [map_map]
        exact map_congr_left fun v _ => Value.rename_forget v
      have hlabel : c.right.program.opLabel o = c.left.program.opLabel o := by
        rw [Program.opLabel, heffect?, hop?, Program.opLabel]
      simp only [Request.forget, Setting.request, hargs, hlabel]
    have hsame := HostState.byHandles_rename answers state ρ hrequest rfl
    have hconst : constantly op reply (HostState.byHandles answers) state
        (c.left.request o effect decl args store) = HostState.byHandles answers state
        (c.left.request o effect decl args store) := if_neg ho
    have hl := Setting.advance_request (constantly op reply (HostState.byHandles answers))
      state he hd args (.call none :: rest) store
    have hr := Setting.advance_request (HostState.byHandles answers) (state.rename ρ)
      ((heffect? _).trans he) (hop?.trans hd) (args.map (·.rename ρ))
      (below.reverse ++ .guard handle [cl] frame :: .call none :: rest.map (·.rename ρ)) store'
    rw [hconst] at hl
    rw [hsame] at hr
    cases hreply : HostState.byHandles answers state (c.left.request o effect decl args store) with
    | mk answer state₁ =>
      rw [hreply] at hl hr
      cases answer with
      | error e => exact .inl ⟨hl.2 e state₁ rfl, hr.2 e (state₁.rename ρ) rfl⟩
      | ok v =>
        obtain ⟨xs, hleft⟩ := hl.1 v state₁ rfl
        obtain ⟨xs', hright⟩ := hr.1 (v.rename ρ) (state₁.rename ρ) rfl
        refine .inr ⟨_, _, hleft, hright, ?_⟩
        obtain ⟨hhandles, hv⟩ := keepsValue_of_byHandles hanswers hreply (keepsPending_handed.mp
          (ground.stack _ mem_cons_self)) keeps.1
        -- the host now holds more, and the suspended constructs stand on that
        have hground : c.Ground ρ extra (rest.reverse ++ [.call none, handed state₁.handles]) store
            store' := by
          have hbase := ground.tail.push (keepsPending_handed.mpr hhandles)
            (by simp [handed, Pending.frame?]) (by simp [handed, Pending.owned?])
          have hback := hbase.put_back (detached_of_keeps keeps) fun q hq => (keeps.2 q hq).1
          rwa [reverse_cons, append_assoc, singleton_append] at hback
        have hv' : c.ControlIn store
            (rest.reverse ++ [.call none, handed state₁.handles]) (.value v) := hv
        have hlinked : Linked c answers handle cl op kind reply _ _ :=
          .running (hground.with_suspensions xs xs') hv' footing
        simpa [Control.rename, map_reverse] using hlinked

/-- **The two runs stay side by side.** -/
theorem respects (ha : c.Agrees) (heffects : c.right.program.effects = c.left.program.effects)
    (hcl : ConstantClause c.right handle cl op kind reply) (hdecl : (c.left.program.op? op).isSome)
    (hreply : reply.isFirstOrder = true)
    (hanswers : ∀ own r v own', answers own r = (.ok v, own') → ∀ d, .fn d ∈ v.callables →
      c.known d) :
    Respects (c.left.advance (constantly op reply (HostState.byHandles answers)))
      (c.right.advance (HostState.byHandles answers))
      (Linked c answers handle cl op kind reply) := by
  intro a b hab
  cases hab with
  | running ground keeps footing =>
    obtain ⟨step', hlinked, hstep⟩ := advance_running ha ground keeps footing
    exact ⟨_, hlinked, Setting.reaches₁_next hstep .refl⟩
  | left ground keeps hasLeft footing =>
    obtain ⟨b, hlinked, hreach⟩ := advance_left hcl ground keeps hasLeft footing
    exact ⟨b, hlinked, hreach⟩
  | answering ground footing path =>
    obtain ⟨a, b, hleft, hlinked, hreach⟩ := advance_answering hdecl hreply ground footing path
    rw [hleft]
    exact ⟨b, hlinked, hreach⟩
  | asking ho ground keeps footing =>
    obtain ⟨hleft, hright⟩ | ⟨a, b, hleft, hright, hlinked⟩ :=
      advance_asking heffects hanswers ho ground keeps footing
    · rw [hleft]
      exact hright
    · rw [hleft]
      exact ⟨b, hlinked, .single hright⟩
  | ended left right =>
    rw [Setting.advance_of_result? left]
    exact Setting.advance_of_result? right
  | failed => exact rfl

/-- Runs side by side are over together, with values that differ in numbers only. -/
theorem result?_cases {a b : HostState σ × Step}
    (h : Linked c answers handle cl op kind reply a b) :
    (c.left.result? a.2 = none ∧ c.right.result? b.2 = none) ∨
      ∃ ρ v, c.left.result? a.2 = some v ∧ c.right.result? b.2 = some (v.rename ρ) ∧
        b.1 = a.1.rename ρ := by
  cases h with
  | running | left | failed => exact .inl ⟨rfl, rfl⟩
  | answering ground footing path =>
    refine .inl ⟨Setting.result?_request _ _ _ _, Option.eq_none_iff_forall_not_mem.mpr
      fun v hv => ?_⟩
    obtain ⟨b, hb, -⟩ := Relation.TransGen.head'_iff.mp path
    rw [Setting.advance_of_result? hv] at hb
    cases hb
  | asking => exact .inl ⟨Setting.result?_request _ _ _ _, Setting.result?_request _ _ _ _⟩
  | @ended ρ _ _ _ v left right => exact .inr ⟨ρ, v, left, right, rfl⟩

/-- Runs side by side end with one value as the host sees it, after the same requests. -/
theorem reaches_iff
    (hresp : Respects (c.left.advance (constantly op reply (HostState.byHandles answers)))
      (c.right.advance (HostState.byHandles answers)) (Linked c answers handle cl op kind reply))
    {a b : HostState σ × Step} (h : Linked c answers handle cl op kind reply a b) (own : σ)
    (requests : List Request) (w : Value) :
    (∃ handles last v, Reaches (c.left.advance (constantly op reply (HostState.byHandles answers)))
      a
        (⟨own, requests, handles⟩, last) ∧ c.left.result? last = some v ∧ v.rename .forget = w) ↔
      ∃ handles last v, Reaches (c.right.advance (HostState.byHandles answers)) b
        (⟨own, requests, handles⟩, last) ∧ c.right.result? last = some v ∧
        v.rename .forget = w := by
  constructor
  · rintro ⟨handles, last, v, hreach, hv, hw⟩
    obtain ⟨⟨state', last'⟩, hlinked, hlast⟩ :=
      tr_eval hresp h (mem_eval.mpr ⟨hreach, Setting.advance_of_result? hv⟩)
    obtain ⟨hnone, -⟩ | ⟨ρ, v', hl, hr, hstate⟩ := hlinked.result?_cases
    · rw [hv] at hnone
      cases hnone
    · obtain rfl : v = v' := Option.some.inj (hv.symm.trans hl)
      obtain rfl : state' = _ := hstate
      exact ⟨_, last', _, (mem_eval.mp hlast).1, hr, (Value.rename_forget v).trans hw⟩
  · rintro ⟨handles, last, v, hreach, hv, hw⟩
    obtain ⟨⟨state', last'⟩, hlinked, hlast⟩ :=
      tr_eval_rev hresp h (mem_eval.mpr ⟨hreach, Setting.advance_of_result? hv⟩)
    obtain ⟨-, hnone⟩ | ⟨ρ, v', hl, hr, hstate⟩ := hlinked.result?_cases
    · rw [hv] at hnone
      cases hnone
    · obtain rfl : v = v'.rename ρ := Option.some.inj (hv.symm.trans hr)
      obtain ⟨own', requests', handles'⟩ := state'
      obtain ⟨rfl, rfl, -⟩ : own = own' ∧ requests = requests' ∧ _ := by
        simpa [HostState.rename] using hstate
      exact ⟨handles', last', v', (mem_eval.mp hlast).1, hl, (Value.rename_forget v').symm.trans hw⟩

end Linked

end Sharing

end Effectful.Interp
