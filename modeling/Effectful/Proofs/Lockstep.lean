import Effectful.Proofs.Renaming
/-!
# Runs that differ in numbers only

Two states are in step if one is the other with frames and continuations renamed, over related
stores. Then their next states are in step again, or both fail for the same reason
(`Sharing.Follows`, `Ground.step`).  Whether frames are used again plays no role: it decides which
number a new frame gets.

Each function of the interpreter has one lemma about a `Ground` stack, that is a stack and two
related stores; what stands above the stack comes in as a further hypothesis.  Only a new frame and
a new continuation change the renaming.
-/

namespace Effectful.Interp

open List

variable {fs : Frames} {q : Pending} {captured : Captured} {k : ContinuationId}
  {v : Value} {e : Expr} {frame x : FrameId} {store₁ : Store} {args : List Value}
  {rest : List Pending}

/-- The constructs that resuming a continuation puts back, the outermost first. -/
def Captured.constructs (k : Captured) : List Pending := .guard k.handle k.clauses k.frame :: k.rest

namespace Sharing

variable {c : Sharing} {ρ ρ' : Renaming} {extra : FrameId → Prop} {stack : List Pending}
  {store store' : Store}

/-! ### Related stores -/

/-- Frames and continuations of one store are found in the other under their other numbers. -/
structure Stores (c : Sharing) (ρ : Renaming) (extra : FrameId → Prop) (store store' : Store) :
    Prop where
  frames : c.Renames store.continuations.size ρ extra store.frames store'.frames
  cont : ∀ k : ContinuationId, k.index < store.continuations.size →
    store'.continuations[(ρ.cont k).index]? = (store.continuations[k.index]?).map (·.rename ρ)
  cont_inj : ∀ k l : ContinuationId, k.index < store.continuations.size →
    l.index < store.continuations.size → ρ.cont k = ρ.cont l → k = l
  detached : ∀ (i : Nat) k, store.continuations[i]? = some k → Detached store.frames k.constructs
  kept : ∀ (i : Nat) k, store.continuations[i]? = some k →
    ∀ q ∈ k.constructs, c.KeepsPending store.frames store.continuations.size q

/-- Related stores under a stack of kept constructs whose frames stay. -/
structure Ground (c : Sharing) (ρ : Renaming) (extra : FrameId → Prop) (stack : List Pending)
    (store store' : Store) : Prop extends c.Stores ρ extra store store' where
  anchored : Anchored store.frames stack
  stack : ∀ q ∈ stack, c.KeepsPending store.frames store.continuations.size q

/-- Two outcomes of a step that differ in numbers only. -/
def Follows (c : Sharing) (extra : FrameId → Prop) : Step → Step → Prop
  | .next st, .next st' =>
    ∃ ρ, c.Ground ρ extra st.stack st.store st'.store ∧
      c.KeepsControl st.store.frames st.store.continuations.size st.stack st.control ∧
      st'.control = st.control.rename ρ ∧ st'.stack = st.stack.map (·.rename ρ)
  | .fail e _, .fail e' _ => e = e'
  | .done control store, .done control' store' =>
    ∃ ρ, c.Stores ρ extra store store' ∧
      c.KeepsControl store.frames store.continuations.size [] control ∧ control' = control.rename ρ
  | _, _ => False

/-- What may be held in a store. -/
abbrev ValueIn (c : Sharing) (store : Store) : Value → Prop :=
  c.KeepsValue store.frames store.continuations.size

abbrev PendingIn (c : Sharing) (store : Store) : Pending → Prop :=
  c.KeepsPending store.frames store.continuations.size

abbrev ControlIn (c : Sharing) (store : Store) : List Pending → Control → Prop :=
  c.KeepsControl store.frames store.continuations.size

theorem KeepsPending.rename_eq {n : Nat} (hs : fs.Sound) (h : c.KeepsPending fs n q)
    (hframe : ∀ frame ∈ q.frame?, fs.InUse frame) (howned : ∀ frame ∈ q.owned?, fs.InUse frame)
    (ha : ρ.AgreesOn fs n ρ') : q.rename ρ' = q.rename ρ := by
  have hf {frame : FrameId} (hq : q.frame? = some frame) : ρ'.frame frame = ρ.frame frame :=
    ha.frame frame (hframe frame hq)
  have ho {owned : Option FrameId} (hq : q.owned? = owned) : owned.map ρ'.frame = owned.map
      ρ.frame := by
    cases owned with
    | none => rfl
    | some frame => rw [Option.map_some, Option.map_some, ha.frame frame (howned frame hq)]
  have hv {v : Value} (hv : v ∈ q.held) : v.rename ρ' = v.rename ρ := (h.held v hv).rename_eq hs ha
  cases q with
  | binaryRight op lhs | finalized lhs =>
    rw [Pending.rename, Pending.rename, hv (by simp [Pending.held])]
  | operands done rest frame use =>
    have huse : use.rename ρ' = use.rename ρ := by
      cases use with
      | apply callee =>
        rw [OperandUse.rename, OperandUse.rename, (h.use callee rfl).rename_eq hs ha]
      | _ => rfl
    have hdone : done.map (·.rename ρ') = done.map (·.rename ρ) := map_congr_left fun v h => hv h
    rw [Pending.rename, Pending.rename, hf rfl, huse, hdone]
  | call owned | clause handle kind owned => rw [Pending.rename, Pending.rename, @ho owned rfl]
  | unary | ret | field | transfer => rfl
  | _ => rw [Pending.rename, Pending.rename, hf rfl]

/-- A construct that holds nothing is kept. -/
theorem KeepsPending.of_empty {n : Nat} (hempty : q.code = [] ∧ q.held = [] ∧ q.use? = none) :
    c.KeepsPending fs n q := by
  obtain ⟨hcode, hheld, huse⟩ := hempty
  refine ⟨by simp [hcode], by simp [hheld], by simp [huse], ?_⟩
  rintro handle clauses frame rfl op
  obtain rfl : clauses = [] := map_eq_nil_iff.mp hcode
  simp only [Setting.clauseFor?]
  split <;> split <;> simp

theorem Ground.map_rename_eq (h : c.Ground ρ extra stack store store')
    (ha : ρ.AgreesOn store.frames store.continuations.size ρ') :
    stack.map (·.rename ρ') = stack.map (·.rename ρ) := by
  refine map_congr_left fun q hq => ?_
  have hs := h.frames.sound
  refine (h.stack q hq).rename_eq hs (fun frame hf => h.anchored.inUse_frame? hs hq hf)
    (fun frame ho => ?_) ha
  exact h.anchored.inUse_of_owned (mem_filterMap.mpr ⟨q, hq, ho⟩)

theorem Stores.captured_rename_eq (h : c.Stores ρ extra store store')
    (hdet : Detached store.frames captured.constructs)
    (hkept : ∀ q ∈ captured.constructs, c.PendingIn store q)
    (ha : ρ.AgreesOn store.frames store.continuations.size ρ') :
    captured.rename ρ' = captured.rename ρ := by
  have hs := h.frames.sound
  have hrest (q : Pending) (hq : q ∈ captured.constructs) : q.rename ρ' = q.rename ρ :=
    (hkept q hq).rename_eq hs (fun frame hf => ((hdet q hq).2 frame hf).inUse hs)
      (by simp [(hdet q hq).1]) ha
  rw [Captured.rename, Captured.rename, ha.frame _ (((hdet _ mem_cons_self).2 _ rfl).inUse hs),
    map_congr_left fun q hq => hrest q (mem_cons_of_mem _ hq)]

/-- The renaming may be changed where nothing is in use. -/
theorem Stores.of_agrees (h : c.Stores ρ extra store store')
    (ha : ρ.AgreesOn store.frames store.continuations.size ρ') :
    c.Stores ρ' extra store store' where
  frames := h.frames.of_agrees ha (Nat.le_refl _)
  cont k hk := by
    rw [ha.cont k hk, h.cont k hk]
    cases hcap : store.continuations[k.index]? with
    | none => rfl
    | some captured =>
      rw [Option.map_some, Option.map_some, h.captured_rename_eq (h.detached _ _ hcap)
        (h.kept _ _ hcap) ha]
  cont_inj k l hk hl heq := h.cont_inj k l hk hl (by rwa [ha.cont k hk, ha.cont l hl] at heq)
  detached := h.detached
  kept := h.kept

theorem Stores.cont_lt (h : c.Stores ρ extra store store')
    (hk : k.index < store.continuations.size) :
    (ρ.cont k).index < store'.continuations.size := by
  obtain ⟨captured, hcap⟩ :=
    Option.isSome_iff_exists.mp (show (store.continuations[k.index]?).isSome by simpa)
  have hcont := h.cont k hk
  rw [hcap] at hcont
  exact (Array.getElem?_eq_some_iff.mp hcont).1

/-- The stores stay related under other frames, as long as pinned frames stay pinned. -/
theorem Stores.with_frames (h : c.Stores ρ extra store store') {fs' : Frames}
    (hren : c.Renames store.continuations.size ρ extra fs fs')
    (hpin : ∀ x, store.frames.Pinned x → fs.Pinned x) :
    c.Stores ρ extra { store with frames := fs } { store' with frames := fs' } where
  frames := hren
  cont := h.cont
  cont_inj := h.cont_inj
  detached i k hk := (h.detached i k hk).mono hpin
  kept i k hk q hq := (h.kept i k hk q hq).mono hpin (Nat.le_refl _)

theorem Ground.with_frames (h : c.Ground ρ extra stack store store') {fs' : Frames}
    (hren : c.Renames store.continuations.size ρ extra fs fs')
    (hpin : ∀ x, store.frames.Pinned x → fs.Pinned x)
    (huse : ∀ x, store.frames.InUse x → fs.InUse x) :
    c.Ground ρ extra stack { store with frames := fs } { store' with frames := fs' } where
  toStores := h.toStores.with_frames hren hpin
  anchored := h.anchored.mono hpin fun x _ => huse x
  stack q hq := (h.stack q hq).mono hpin (Nat.le_refl _)

/-! ### Steps above a ground stack -/

section Ground

variable (h : c.Ground ρ extra stack store store')
include h

/-- Both sides go on with the same control, renamed. -/
theorem Ground.next (control : Control)
    (hc : c.ControlIn store stack control) :
    c.Follows extra (.of control stack store)
      (.of (control.rename ρ) (stack.map (·.rename ρ)) store') :=
  ⟨ρ, h, hc, rfl, rfl⟩

theorem Ground.value (hv : c.ValueIn store v) :
    c.Follows extra (.of (.value v) stack store)
      (.of (.value (v.rename ρ)) (stack.map (·.rename ρ)) store') :=
  h.next (.value v) hv

theorem Ground.eval (he : c.Shares e) (hframe : Usable store.frames stack frame) :
    c.Follows extra (.of (.eval e frame) stack store)
      (.of (.eval e (ρ.frame frame)) (stack.map (·.rename ρ)) store') :=
  h.next (.eval e frame) ⟨he, hframe⟩

theorem Ground.result {r : Except EvalError Value} (hr : ∀ v, r = .ok v → v.isFirstOrder = true) :
    c.Follows extra (.result r stack store) (.result r (stack.map (·.rename ρ)) store') := by
  cases r with
  | error e => exact rfl
  | ok v =>
    have hv := h.value (.of_isFirstOrder (hr v rfl))
    rwa [v.rename_of_isFirstOrder (hr v rfl)] at hv

theorem Ground.push (hq : c.PendingIn store q)
    (hframe : ∀ frame ∈ q.frame?, Usable store.frames stack frame)
    (howned : ∀ frame ∈ q.owned?, store.frames.InUse frame ∧ frame ∉ ownedFrames stack) :
    c.Ground ρ extra (q :: stack) store store' where
  toStores := h.toStores
  anchored := ⟨hframe, howned, h.anchored⟩
  stack := forall_mem_cons.mpr ⟨hq, h.stack⟩

/-- Code is evaluated under a construct that belongs to the same frame. -/
theorem Ground.eval_under (hq : c.PendingIn store q) (hbase : q.base? = none)
    (hqf : q.frame? = none ∨ q.frame? = some frame) (he : c.Shares e)
    (hframe : Usable store.frames stack frame) :
    c.Follows extra (.of (.eval e frame) (q :: stack) store)
      (.of (.eval e (ρ.frame frame)) (q.rename ρ :: stack.map (·.rename ρ)) store') := by
  have howned : q.owned? = none := by cases q <;> first | rfl | simp [Pending.base?] at hbase
  refine (h.push hq ?_ (by simp [howned])).eval he
    (hframe.imp_right fun hb => by rw [base?, hbase]; exact hb)
  obtain hqf | hqf := hqf
  · simp [hqf]
  · exact forall_of_eq_some hqf hframe

/-- The code around it is all that the construct holds. -/
theorem Ground.eval_part (hcode : ∀ y ∈ e :: q.code, c.Shares y)
    (hplain : q.held = [] ∧ q.use? = none ∧ q.base? = none)
    (hqf : q.frame? = none ∨ q.frame? = some frame) (hframe : Usable store.frames stack frame) :
    c.Follows extra (.of (.eval e frame) (q :: stack) store)
      (.of (.eval e (ρ.frame frame)) (q.rename ρ :: stack.map (·.rename ρ)) store') := by
  obtain ⟨hheld, huse, hbase⟩ := hplain
  obtain ⟨he, hcode⟩ := forall_mem_cons.mp hcode
  refine h.eval_under ⟨hcode, by simp [hheld], by simp [huse], ?_⟩ hbase hqf he hframe
  rintro handle clauses frame' rfl
  cases hbase

/-- A new frame on both sides.  The renaming learns of it, and stays as it is on all that is in
use. -/
theorem Ground.enter (recycle recycle' : Bool) (parent : Option FrameId)
    (hparent : ∀ q ∈ parent, store.frames.Pinned q) (ts : List LocalId) {vs : List Value}
    (hvs : ∀ v ∈ vs, c.ValueIn store v) {x' : FrameId} {store₁' : Store}
    (hpush : store.push recycle parent ts vs = (x, store₁))
    (hpush' : store'.push recycle' (parent.map ρ.frame) ts (vs.map (·.rename ρ)) = (x', store₁')) :
    ∃ ρ', ρ.AgreesOn store.frames store.continuations.size ρ' ∧ ρ'.frame x = x' ∧ ρ'.cont = ρ.cont ∧
      c.Ground ρ' extra stack store₁ store₁' ∧ store₁.frames.InUse x ∧ x ∉ ownedFrames stack ∧
      store₁.continuations = store.continuations ∧ ∀ y, store.frames.Pinned y →
      store₁.frames.Pinned y := by
  have hs := h.frames.sound
  have hnew := hs.pushed recycle parent
  have hnew' := h.frames.sound_right.pushed recycle' (parent.map ρ.frame)
  set y := (store.frames.push recycle parent).1
  set y' := (store'.frames.push recycle' (parent.map ρ.frame)).1
  obtain ⟨rfl, rfl⟩ := Prod.mk.inj hpush
  obtain ⟨rfl, rfl⟩ := Prod.mk.inj hpush'
  let ρ' : Renaming := { ρ with frame := Function.update ρ.frame y y' }
  have hagree : ρ.AgreesOn store.frames store.continuations.size ρ' := by
    refine ⟨fun z hz => Function.update_of_ne (fun heq : z = y => hnew.fresh (heq ▸ hz)) _ _,
      fun _ _ => rfl⟩
  have hy : ρ'.frame y = y' := Function.update_self _ _ _
  have hparent' : parent.map ρ.frame = parent.map ρ'.frame := by
    cases parent with
    | none => rfl
    | some q => rw [Option.map_some, Option.map_some, hagree.frame q ((hparent q rfl).inUse hs)]
  have hvs' : vs.map (·.rename ρ) = vs.map (·.rename ρ') :=
    map_congr_left fun v hv => ((hvs v hv).rename_eq hs hagree).symm
  have hpin (z : FrameId) (hz : store.frames.Pinned z) :
      (store.frames.push recycle parent).2.Pinned z := (hnew.pinned_iff hs).mpr hz
  rw [hparent'] at hnew'
  obtain ⟨hdef, hdefUse, hdefPin⟩ :=
    ((h.frames.of_agrees hagree (Nat.le_refl _)).of_pushed hnew hnew' hparent hy).defineAll
      ((hnew.inUse y).mpr (.inl rfl)) ts vs fun v hv => (hvs v hv).mono hpin (Nat.le_refl _)
  rw [hy, ← hvs', ← hparent'] at hdef
  have hground : c.Ground ρ' extra stack store store' :=
    ⟨h.toStores.of_agrees hagree, h.anchored, h.stack⟩
  refine ⟨ρ', hagree, hy, rfl, hground.with_frames hdef (fun z hz => (hdefPin z).mpr (hpin z hz))
    fun z hz => (hdefUse z).mpr ((hnew.inUse z).mpr (.inr hz)), (hdefUse y).mpr
    ((hnew.inUse y).mpr (.inl rfl)), fun hmem => hnew.fresh (h.anchored.inUse_of_owned hmem), rfl,
    fun z hz => (hdefPin z).mpr (hpin z hz)⟩

/-- The body of a call starts in a new frame. -/
theorem Ground.enter_call (recycle recycle' : Bool) (parent : Option FrameId)
    (hparent : ∀ q ∈ parent, store.frames.Pinned q) (ts : List LocalId) {vs : List Value}
    (hvs : ∀ v ∈ vs, c.ValueIn store v) {body : Expr} (hbody : c.Shares body) :
    c.Follows extra
      (.of (.eval body (store.push recycle parent ts vs).1)
        (.call (some (store.push recycle parent ts vs).1) :: stack)
        (store.push recycle parent ts vs).2)
      (.of (.eval body (store'.push recycle' (parent.map ρ.frame) ts (vs.map (·.rename ρ))).1)
        (.call (some (store'.push recycle' (parent.map ρ.frame) ts (vs.map (·.rename ρ))).1) ::
          stack.map (·.rename ρ))
        (store'.push recycle' (parent.map ρ.frame) ts (vs.map (·.rename ρ))).2) := by
  generalize hpush : store.push recycle parent ts vs = pushed
  generalize hpush' : store'.push recycle' (parent.map ρ.frame) ts (vs.map (·.rename ρ)) = pushed'
  obtain ⟨x, store₁⟩ := pushed
  obtain ⟨ρ', hagree, hx, -, hground, huse, howned, -, -⟩ :=
    h.enter recycle recycle' parent hparent ts hvs hpush hpush'
  have hcall := hground.push (q := .call (some x)) (.of_empty ⟨rfl, rfl, rfl⟩)
    (by simp [Pending.frame?])
    (by rintro frame hf; obtain rfl := Option.some.inj hf; exact ⟨huse, howned⟩)
  have hstep := hcall.eval hbody (.inr rfl)
  rwa [map_cons, Pending.rename, Option.map_some, hx, h.map_rename_eq hagree] at hstep

/-- Known functions are called alike. -/
theorem Ground.callFn (ha : c.Agrees) {target : DefId} (ht : c.known target)
    (hargs : ∀ v ∈ args, c.ValueIn store v) :
    c.Follows extra (c.left.callFn target args stack store)
      (c.right.callFn target (args.map (·.rename ρ)) (stack.map (·.rename ρ)) store') := by
  rw [Setting.callFn, Setting.callFn, ha.function?_eq target ht, length_map]
  split
  · exact rfl
  · rename_i f hf
    split
    · exact rfl
    · exact h.enter_call _ _ none (by simp) _ hargs (ha.body target f ht hf)

/-- A resumption is counted on both sides. -/
theorem Ground.count_resumption (hk : store.continuations[k.index]? = some captured) (m : Nat) :
    c.Ground ρ extra stack
      { store with continuations :=
        store.continuations.setIfInBounds k.index { captured with resumed := m } }
      { store' with continuations :=
          store'.continuations.setIfInBounds (ρ.cont k).index { captured.rename ρ with resumed :=
            m } } := by
  have hlt : k.index < store.continuations.size := (Array.getElem?_eq_some_iff.mp hk).1
  have hsize : (store.continuations.setIfInBounds k.index { captured with resumed := m }).size =
      store.continuations.size := Array.size_setIfInBounds
  -- what is found afterwards was there before, but for the count
  have hfound (i : Nat) (k' : Captured)
      (hi : (store.continuations.setIfInBounds k.index { captured with resumed := m })[i]? =
        some k') :
      ∃ k'', store.continuations[i]? = some k'' ∧ k''.constructs = k'.constructs := by
    rw [Array.getElem?_setIfInBounds] at hi
    split at hi
    · rename_i hki
      obtain rfl := Option.some.inj hi
      exact ⟨captured, hki ▸ hk, rfl⟩
    · exact ⟨k', hi, rfl⟩
  refine ⟨⟨by rw [hsize]; exact h.frames, fun l hl => ?_, by simpa only [hsize] using h.cont_inj,
    fun i k' hi => ?_,
    fun i k' hi q hq => ?_⟩, h.anchored, by rw [hsize]; exact h.stack⟩
  · rw [hsize] at hl
    rw [Array.getElem?_setIfInBounds, Array.getElem?_setIfInBounds]
    have hlt' := h.cont_lt hlt
    by_cases hkl : k.index = l.index
    · obtain rfl : k = l := by cases k; cases l; simp_all
      simp only [↓reduceIte, hlt, hlt', Option.map_some]
      rfl
    · have hne : (ρ.cont k).index ≠ (ρ.cont l).index := by
        intro heq
        have : ρ.cont k = ρ.cont l := by
          cases hkk : ρ.cont k; cases hll : ρ.cont l; simp_all
        exact hkl (congrArg _ (h.cont_inj k l hlt hl this))
      rw [if_neg hkl, if_neg hne]
      exact h.cont l hl
  · obtain ⟨k'', hk'', hsame⟩ := hfound i k' hi
    rw [← hsame]
    exact h.detached i k'' hk''
  · obtain ⟨k'', hk'', hsame⟩ := hfound i k' hi
    rw [← hsame] at hq
    rw [hsize]
    exact h.kept i k'' hk'' q hq

/-- Constructs of a suspended computation are put back, the outermost first. -/
theorem Ground.put_back (hdet : Detached store.frames rest)
    (hkept : ∀ q ∈ rest, c.PendingIn store q) :
    c.Ground ρ extra (rest.reverse ++ stack) store store' := by
  refine ⟨h.toStores, (hdet.anchored_reverse_append h.anchored).1, fun q hq => ?_⟩
  obtain hq | hq := mem_append.mp hq
  · exact hkept q (mem_reverse.mp hq)
  · exact h.stack q hq

theorem Ground.resume (hk : store.continuations[k.index]? = some captured) :
    c.Ground ρ extra (captured.rest.reverseAux
      (.guard captured.handle captured.clauses captured.frame :: stack))
      store store' := by
  have hback := h.put_back (h.detached _ _ hk) (h.kept _ _ hk)
  rwa [Captured.constructs, reverse_cons, append_assoc, singleton_append,
    ← reverseAux_eq] at hback

/-- Both sides put the constructs of a continuation back. -/
theorem Ground.resumeContinuation (hlt : k.index < store.continuations.size)
    (hv : c.ValueIn store v) :
    c.Follows extra (Setting.resumeContinuation k v stack store)
      (Setting.resumeContinuation (ρ.cont k) (v.rename ρ) (stack.map (·.rename ρ)) store') := by
  obtain ⟨captured, hk⟩ :=
    Option.isSome_iff_exists.mp (show (store.continuations[k.index]?).isSome by simpa)
  have hk' : store'.continuations[(ρ.cont k).index]? = some (captured.rename ρ) := by
    rw [h.cont k hlt, hk]; rfl
  have hcount := h.count_resumption hk (captured.resumed + 1)
  generalize hstore : (⟨store.frames, store.continuations.setIfInBounds k.index
    { captured with resumed := captured.resumed + 1 }, store.suspensions⟩ : Store) =
    store₁ at hcount
  have hk₁ : store₁.continuations[k.index]? =
      some { captured with resumed := captured.resumed + 1 } := by
    rw [← hstore, Array.getElem?_setIfInBounds]
    simp [hlt]
  have hv₁ : c.ValueIn store₁ v := by
    rw [← hstore, ValueIn, Array.size_setIfInBounds]
    exact hv
  have hkind : (captured.rename ρ).kind = captured.kind := rfl
  have hresumed : (captured.rename ρ).resumed = captured.resumed := rfl
  simp only [Setting.resumeContinuation, hk, hk', hkind, hresumed, hstore]
  split
  · exact rfl
  split
  · have hmark := hcount.push (q := .transfer captured.handle) (.of_empty ⟨rfl, rfl, rfl⟩)
      (by simp [Pending.frame?]) (by simp [Pending.owned?])
    have hstep := (hmark.resume hk₁).value hv₁
    rw [map_reverseAux] at hstep
    exact hstep
  · have hstep := (hcount.resume hk₁).value hv₁
    rw [map_reverseAux] at hstep
    exact hstep

theorem Ground.apply (ha : c.Agrees) {callee : Value}
    (hcallee : c.ValueIn store callee)
    (hargs : ∀ v ∈ args, c.ValueIn store v) :
    c.Follows extra (c.left.apply callee args stack store)
      (c.right.apply (callee.rename ρ) (args.map (·.rename ρ)) (stack.map (·.rename ρ))
        store') := by
  cases callee with
  | callable t =>
    have ht := hcallee t (mem_singleton_self t)
    cases t with
    | fn target => exact h.callFn ha ht hargs
    | lambda params body env =>
      simp only [Setting.apply, Value.rename, Callable.rename, length_map]
      split
      · exact rfl
      · refine h.enter_call _ _ (some env) ?_ _ hargs ht.1
        rintro q hq
        obtain rfl := Option.some.inj hq
        exact ht.2
    | op operation => exact h.next (.request operation args []) ⟨hargs, by simp⟩
    | continuation k =>
      have hhead : (args.map (·.rename ρ)).headD .unit = (args.headD .unit).rename ρ := by
        cases args <;> rfl
      rw [Setting.apply, Value.rename, Callable.rename, Setting.apply, hhead]
      refine h.resumeContinuation ht ?_
      cases args with
      | nil => exact .of_isFirstOrder rfl
      | cons v vs => exact hargs v mem_cons_self
    | intrinsic which =>
      rw [Setting.apply, Value.rename, Callable.rename, Setting.apply, intrinsic_rename]
      exact h.result fun _ => isFirstOrder_of_intrinsic
  | _ => exact rfl

/-- Both sides evaluate operands in the same order and use them alike. -/
theorem Ground.operands (ha : c.Agrees) (done : List Value) {rest : List Expr} (use : OperandUse)
    (hdone : ∀ v ∈ done, c.ValueIn store v) (hrest : ∀ e ∈ rest, c.Shares e)
    (huse : ∀ callee, use = .apply callee → c.ValueIn store callee)
    (hframe : Usable store.frames stack frame) :
    c.Follows extra (c.left.operands done rest frame use stack store)
      (c.right.operands (done.map (·.rename ρ)) rest (ρ.frame frame) (use.rename ρ)
        (stack.map (·.rename ρ)) store') := by
  cases rest with
  | cons e rest =>
    obtain ⟨he, hrest⟩ := forall_mem_cons.mp hrest
    exact h.eval_under (q := .operands done rest frame use)
      ⟨hrest, hdone, fun callee hc => huse callee (Option.some.inj hc), by simp⟩
      rfl (.inr rfl) he hframe
  | nil =>
    have hargs : ∀ v ∈ done.reverse, c.ValueIn store v :=
      fun v hv => hdone v (mem_reverse.mp hv)
    cases use with
    | apply callee =>
      simp only [Setting.operands, OperandUse.rename, ← map_reverse]
      exact h.apply ha (huse callee rfl) hargs
    | perform op =>
      simp only [Setting.operands, OperandUse.rename, ← map_reverse]
      exact h.next (.request op done.reverse []) ⟨hargs, by simp⟩
    | tuple =>
      simp only [Setting.operands, OperandUse.rename, ← map_reverse]
      have hstep := h.value (v := .tuple done.reverse) fun t ht => by
        rw [Value.callables, allCallables_eq_flatMap] at ht
        obtain ⟨v, hv, ht⟩ := mem_flatMap.mp ht
        exact hargs v hv t ht
      rwa [Value.rename, renameAll_eq_map] at hstep

theorem Ground.block {stmts : List Stmt} {tail : Option Expr}
    (hcode : ∀ e ∈ stmts.filterMap Stmt.expr? ++ tail.toList, c.Shares e)
    (hframe : Usable store.frames stack frame) :
    c.Follows extra (Setting.block frame tail stack store stmts)
      (Setting.block (ρ.frame frame) tail (stack.map (·.rename ρ)) store' stmts) := by
  -- a statement that evaluates something waits for it in the frame of the block
  have hunder (target : Option LocalId) {e : Expr} {rest : List Stmt}
      (hcode : ∀ y ∈ e :: (rest.filterMap Stmt.expr? ++ tail.toList), c.Shares y) :=
    h.eval_part (q := .stmt target rest tail frame) hcode ⟨rfl, rfl, rfl⟩ (.inr rfl) hframe
  induction stmts with
  | nil =>
    cases tail with
    | none => exact h.value (v := .unit) (.of_isFirstOrder rfl)
    | some e => exact h.eval (hcode e (by simp)) hframe
  | cons s rest ih =>
    cases s with
    | bind target init =>
      cases init with
      | none => exact ih (by simpa [Stmt.expr?] using hcode)
      | some e => exact hunder (some target) hcode
    | expr e => exact hunder none hcode

theorem Ground.round (cond : Option Expr) {body : Expr}
    (hcode : ∀ e ∈ cond.toList ++ [body], c.Shares e) (hframe : Usable store.frames stack frame) :
    c.Follows extra (Setting.round cond body frame stack store)
      (Setting.round cond body (ρ.frame frame) (stack.map (·.rename ρ)) store') := by
  cases cond with
  | none =>
    exact h.eval_part (q := .loopBody none body frame)
      (forall_mem_cons.mpr ⟨hcode body (by simp), hcode⟩) ⟨rfl, rfl, rfl⟩ (.inr rfl) hframe
  | some cond =>
    exact h.eval_part (q := .loopCond cond body frame)
      (forall_mem_cons.mpr ⟨hcode cond (by simp), hcode⟩) ⟨rfl, rfl, rfl⟩ (.inr rfl) hframe

/-- A local is bound on both sides. -/
theorem Ground.define (hframe : Usable store.frames stack frame) (t : LocalId)
    (hv : c.ValueIn store v) :
    c.Ground ρ extra stack (store.define frame t v) (store'.define (ρ.frame frame) t (v.rename ρ)) ∧
      Usable (store.define frame t v).frames stack frame :=
  ⟨h.with_frames (h.frames.define (hframe.inUse h.frames.sound h.anchored) t hv)
      (fun _ => (Frames.pinned_define frame t v).mpr) fun _ => (Frames.inUse_define frame t v).mpr,
    hframe.mono fun _ => (Frames.pinned_define frame t v).mpr⟩

theorem Ground.select (hv : c.ValueIn store v) {arms : List Arm}
    (hcode : ∀ e ∈ arms.map Arm.body, c.Shares e) (hframe : Usable store.frames stack frame) :
    c.Follows extra (Setting.select v frame stack store arms)
      (Setting.select (v.rename ρ) (ρ.frame frame) (stack.map (·.rename ρ)) store' arms) := by
  induction arms with
  | nil => exact rfl
  | cons arm arms ih =>
    obtain ⟨pattern, body⟩ := arm
    rw [map_cons, forall_mem_cons] at hcode
    cases pattern with
    | wildcard => exact h.eval hcode.1 hframe
    | binding target =>
      obtain ⟨hground, husable⟩ := h.define hframe target hv
      exact hground.eval hcode.1 husable
    | literal l =>
      rw [Setting.select, Setting.select, Value.matchesLiteral_rename]
      split
      · exact h.eval hcode.1 hframe
      · exact ih hcode.2

theorem Ground.pin (hframe : store.frames.InUse frame) :
    c.Ground ρ extra stack (store.pin frame) (store'.pin (ρ.frame frame)) ∧
      ∀ x, (store.pin frame).frames.Pinned x ↔ x = frame ∨ store.frames.Pinned x := by
  have hs := h.frames.sound
  have hpin (x : FrameId) : (store.frames.pin frame).Pinned x ↔ x = frame ∨ store.frames.Pinned x :=
    Frames.pinned_pin hs hframe.1
  exact ⟨h.with_frames (h.frames.pin hframe) (fun x hx => (hpin x).mpr (.inr hx))
    fun x => (Frames.inUse_pin hs frame).mpr, hpin⟩

/-! ### Steps -/

/-- The step of an expression. -/
theorem Ground.eval_form (ha : c.Agrees) (he : c.Shares e)
    (hframe : Usable store.frames stack frame) :
    c.Follows extra (c.left.eval e frame stack store)
      (c.right.eval e (ρ.frame frame) (stack.map (·.rename ρ)) store') := by
  obtain ⟨id, form, ty, span⟩ := e
  have hinUse := hframe.inUse h.frames.sound h.anchored
  have hpart {x : Expr} (hx : x ∈ form.children) : c.Shares x := he.child hx
  have hself : c.SharesForm id form := he.self
  cases form with
  | literal l =>
    have hstep := h.value (v := .ofLiteral ty l)
      (.of_isFirstOrder (Value.isFirstOrder_ofLiteral ty l))
    rwa [Value.rename_ofLiteral] at hstep
  | var source =>
    simp only [Setting.eval, Expr.form, h.frames.read? hinUse]
    cases hread : store.frames.read? frame source with
    | none => exact rfl
    | some v => exact h.value (h.frames.read?_kept hinUse hread)
  | fn target =>
    refine h.value (v := .callable (.fn target)) ?_
    simp only [KeepsValue, Value.callables, mem_singleton, forall_eq, KeepsCallable]
    exact hself
  | op operation ty =>
    exact h.value (v := .callable (.op operation))
      (by simp [KeepsValue, Value.callables, KeepsCallable])
  | intrinsic which =>
    exact h.value (v := .callable (.intrinsic which))
      (by simp [KeepsValue, Value.callables, KeepsCallable])
  | closure params body =>
    -- the closure keeps its frame, so both sides pin theirs
    obtain ⟨hpinned, hpin⟩ := h.pin hinUse
    refine hpinned.value (v := .callable (.lambda params body frame)) ?_
    simp only [KeepsValue, Value.callables, mem_singleton, forall_eq, KeepsCallable]
    exact ⟨hpart mem_cons_self, (hpin frame).mpr (.inl rfl)⟩
  | binary op lhs rhs =>
    exact h.eval_part (q := .binaryLeft op rhs frame) (fun y => hpart) ⟨rfl, rfl, rfl⟩
      (.inr rfl) hframe
  | unary op operand =>
    exact h.eval_part (q := .unary op) (fun y => hpart) ⟨rfl, rfl, rfl⟩ (.inl rfl) hframe
  | call callee args =>
    exact h.eval_part (q := .callee args frame) (fun y => hpart) ⟨rfl, rfl, rfl⟩ (.inr rfl) hframe
  | perform op args ty =>
    exact h.operands ha [] (.perform op) (by simp) (fun y hy => hpart hy) (by simp) hframe
  | block stmts tail => exact h.block (fun y hy => hpart hy) hframe
  | assign target value =>
    exact h.eval_part (q := .assign target frame) (fun y => hpart) ⟨rfl, rfl, rfl⟩ (.inr rfl) hframe
  | branch cond onTrue onFalse =>
    exact h.eval_part (q := .branch onTrue onFalse frame) (fun y => hpart) ⟨rfl, rfl, rfl⟩
      (.inr rfl) hframe
  | select scrutinee arms =>
    exact h.eval_part (q := .select arms frame) (fun y => hpart) ⟨rfl, rfl, rfl⟩ (.inr rfl) hframe
  | loop body => exact h.round none (fun y hy => hpart hy) hframe
  | whileLoop cond body => exact h.round (some cond) (fun y hy => hpart hy) hframe
  | breakLoop => exact h.next (.exit .breakLoop) (by simp [KeepsControl, Exit.value?])
  | continueLoop => exact h.next (.exit .continueLoop) (by simp [KeepsControl, Exit.value?])
  | ret value =>
    cases value with
    | none =>
      refine h.next (.exit (.ret .unit)) ?_
      rintro v hv
      obtain rfl := Option.some.inj hv
      exact .of_isFirstOrder rfl
    | some value =>
      exact h.eval_part (q := .ret) (fun y => hpart) ⟨rfl, rfl, rfl⟩ (.inl rfl) hframe
  | handle body clauses finalizer =>
    have hcode : ∀ y ∈ clauses.map Clause.body, c.Shares y :=
      fun y hy => hpart (mem_cons_of_mem _ (mem_append_left _ hy))
    -- with a finalizer the guard stands on one construct more
    have hguard (below : List Pending) (hbelow : c.Ground ρ extra below store store')
        (huse : Usable store.frames below frame) :
        c.Follows extra (.of (.eval body frame) (.guard id clauses frame :: below) store)
          (.of (.eval body (ρ.frame frame))
          (.guard id clauses (ρ.frame frame) :: below.map (·.rename ρ)) store') := by
      refine (hbelow.push (q := .guard id clauses frame)
        ⟨hcode, by simp [Pending.held], by simp [Pending.use?], ?_⟩ (forall_of_eq_some rfl huse)
        (by simp [Pending.owned?])).eval (hpart mem_cons_self) (.inr rfl)
      rintro handle clauses' frame' ⟨⟩
      exact hself
    cases finalizer with
    | none => exact hguard stack h hframe
    | some f =>
      have hf : ∀ y ∈ [f], c.Shares y := by simpa using hpart (by simp [Form.children])
      exact hguard (.finalizer f frame :: stack)
        (h.push ⟨hf, by simp [Pending.held], by simp [Pending.use?], by simp⟩
        (forall_of_eq_some rfl hframe) (by simp [Pending.owned?])) hframe
  | tuple items =>
    exact h.operands ha [] .tuple (by simp) (fun y hy => hpart hy) (by simp) hframe
  | field base index =>
    exact h.eval_part (q := .field index) (fun y => hpart) ⟨rfl, rfl, rfl⟩ (.inl rfl) hframe

/-- A clause ends on both sides with its value, or on both with an error. -/
theorem Ground.endClause {kind : ResumeKind} (hv : c.ValueIn store v) :
    c.Follows extra (Setting.endClause kind v stack store)
      (Setting.endClause kind (v.rename ρ) (stack.map (·.rename ρ)) store') := by
  cases kind with
  | tail => exact rfl
  | resume => exact h.value hv

end Ground

/-- The topmost construct is over, and its frame is given back on both sides. -/
theorem Ground.release (h : c.Ground ρ extra (q :: stack) store store') :
    c.Ground ρ extra stack (store.release q.owned?) (store'.release (q.owned?.map ρ.frame)) ∧
      ∀ x, store.frames.Pinned x → (store.release q.owned?).frames.Pinned x := by
  cases hq : q.owned? with
  | none => exact ⟨⟨h.toStores, h.anchored.2.2, fun q' hq' => h.stack q' (mem_cons_of_mem _ hq')⟩,
      fun _ => id⟩
  | some x =>
    have hx := (h.anchored.2.1 x hq).1
    have hpin (y : FrameId) (hy : store.frames.Pinned y) : (store.frames.release x).Pinned y :=
      hy.release hx
    exact ⟨⟨h.toStores.with_frames (h.frames.release hx) hpin, h.anchored.release hq,
      fun q' hq' => (h.stack q' (mem_cons_of_mem _ hq')).mono hpin (Nat.le_refl _)⟩, hpin⟩

theorem Ground.tail (h : c.Ground ρ extra (q :: stack) store store') :
    c.Ground ρ extra stack store store' :=
  ⟨h.toStores, h.anchored.2.2, fun q' hq' => h.stack q' (mem_cons_of_mem _ hq')⟩

/-- The step of a value. -/
theorem Ground.give (ha : c.Agrees) (h : c.Ground ρ extra (q :: stack) store store')
    (hv : c.ValueIn store v) :
    c.Follows extra (c.left.give v stack store q)
      (c.right.give (v.rename ρ) (stack.map (·.rename ρ)) store' (q.rename ρ)) := by
  have hq := h.stack q mem_cons_self
  have hbelow := h.tail
  have hcode {x : Expr} (hx : x ∈ q.code) : c.Shares x := hq.code x hx
  have hframe {frame : FrameId} (hf : q.frame? = some frame) : Usable store.frames stack frame :=
    h.anchored.1 frame hf
  -- what goes on stands on the rest of the stack, where `q` had its frame from
  cases q with
  | binaryLeft op rhs frame =>
    exact hbelow.eval_under (q := .binaryRight op v)
      ⟨by simp [Pending.code], forall_mem_singleton.mpr hv, by simp [Pending.use?], by simp⟩
      rfl (.inl rfl) (hcode mem_cons_self) (hframe rfl)
  | binaryRight op lhs =>
    rw [Setting.give, Pending.rename, Setting.give, binary_rename]
    exact hbelow.result fun _ => isFirstOrder_of_binary
  | unary op =>
    rw [Setting.give, Pending.rename, Setting.give, unary_rename]
    exact hbelow.result fun _ => isFirstOrder_of_unary
  | callee args frame =>
    refine hbelow.operands ha [] (.apply v) (by simp) (fun x hx => hcode hx) ?_ (hframe rfl)
    rintro callee ⟨⟩
    exact hv
  | operands done rest frame use =>
    refine hbelow.operands ha (v :: done) use (forall_mem_cons.mpr ⟨hv, hq.held⟩)
      (fun x hx => hcode hx) ?_ (hframe rfl)
    rintro callee rfl
    exact hq.use callee rfl
  | stmt target rest tail frame =>
    cases target with
    | none => exact hbelow.block (fun x hx => hcode hx) (hframe rfl)
    | some t =>
      obtain ⟨hground, husable⟩ := hbelow.define (hframe rfl) t hv
      exact hground.block (fun x hx => hcode hx) husable
  | assign target frame =>
    have hinUse := (h.anchored.1 frame rfl).inUse h.frames.sound hbelow.anchored
    exact (hbelow.with_frames (h.frames.assign hinUse target hv)
      (fun _ => (Frames.pinned_define _ target v).mpr)
      fun _ => (Frames.inUse_define _ target v).mpr).value
        (v := .unit) (.of_isFirstOrder rfl)
  | branch onTrue onFalse frame =>
    simp only [Setting.give, Pending.rename, Value.truthy_rename]
    cases v.truthy with
    | error e => exact rfl
    | ok b =>
      cases b with
      | true => exact hbelow.eval (hcode (by simp [Pending.code])) (hframe rfl)
      | false =>
        cases onFalse with
        | none => exact hbelow.value (v := .unit) (.of_isFirstOrder rfl)
        | some e => exact hbelow.eval (hcode (by simp [Pending.code])) (hframe rfl)
  | select arms frame => exact hbelow.select hv (fun x hx => hcode hx) (hframe rfl)
  | loopCond cond body frame =>
    simp only [Setting.give, Pending.rename, Value.truthy_rename]
    cases v.truthy with
    | error e => exact rfl
    | ok b =>
      cases b with
      | true =>
        exact hbelow.eval_part (q := .loopBody (some cond) body frame)
          (forall_mem_cons.mpr ⟨hcode (by simp [Pending.code]), hq.code⟩) ⟨rfl, rfl, rfl⟩ (.inr rfl)
          (hframe rfl)
      | false => exact hbelow.value (v := .unit) (.of_isFirstOrder rfl)
  | loopBody cond body frame => exact hbelow.round cond (fun x hx => hcode hx) (hframe rfl)
  | ret =>
    refine hbelow.next (.exit (.ret v)) ?_
    rintro w hw
    obtain rfl := Option.some.inj hw
    exact hv
  | guard handle clauses frame => exact hbelow.value hv
  | finalizer e frame =>
    exact hbelow.eval_under (q := .finalized v)
      ⟨by simp [Pending.code], forall_mem_singleton.mpr hv, by simp [Pending.use?], by simp⟩
      rfl (.inl rfl) (hcode mem_cons_self) (hframe rfl)
  | finalized result => exact hbelow.value (hq.held result (by simp [Pending.held]))
  | field index =>
    cases v with
    | tuple items =>
      simp only [Setting.give, Pending.rename, Value.rename, renameAll_eq_map, getElem?_map]
      cases hi : items[index]? with
      | none => exact rfl
      | some item =>
        refine hbelow.value fun t ht => hv t ?_
        rw [Value.callables, allCallables_eq_flatMap]
        exact mem_flatMap.mpr ⟨item, mem_of_getElem? hi, ht⟩
    | _ => exact rfl
  | call owned =>
    -- letting a frame go leaves the pinned ones, and a value needs no others
    obtain ⟨hground, hpin⟩ := h.release
    exact hground.value (hv.mono hpin (by cases owned <;> exact Nat.le_refl _))
  | clause handle kind owned =>
    obtain ⟨hground, hpin⟩ := h.release
    exact hground.endClause (hv.mono hpin (by cases owned <;> exact Nat.le_refl _))
  | transfer handle =>
    refine hbelow.next (.exit (.transfer handle v)) ?_
    rintro w hw
    obtain rfl := Option.some.inj hw
    exact hv

/-- The step of an exit. -/
theorem Ground.leave (h : c.Ground ρ extra (q :: stack) store store') {x : Exit}
    (hx : ∀ v ∈ x.value?, c.ValueIn store v) :
    c.Follows extra (Setting.leave x stack store q)
      (Setting.leave (x.rename ρ) (stack.map (·.rename ρ)) store' (q.rename ρ)) := by
  have hbelow := h.tail
  have hexit := hbelow.next (.exit x) hx
  obtain ⟨hground, hpin⟩ := h.release
  have hsize : (store.release q.owned?).continuations.size = store.continuations.size := by
    cases q.owned? <;> rfl
  have hx' : ∀ v ∈ x.value?, c.KeepsValue (store.release q.owned?).frames
      (store.release q.owned?).continuations.size v :=
    fun v hv => (hx v hv).mono hpin (Nat.le_of_eq hsize.symm)
  have hexit' := hground.next (.exit x) hx'
  cases q with
  | loopBody cond body frame =>
    cases x with
    | continueLoop =>
      exact hbelow.round cond (h.stack _ mem_cons_self).code (h.anchored.1 frame rfl)
    | breakLoop => exact hbelow.value (v := .unit) (.of_isFirstOrder rfl)
    | ret v | transfer handle v => exact hexit
  | call owned =>
    cases x with
    | ret v => exact hground.value (hx' v rfl)
    | transfer handle v => exact hexit'
    | breakLoop | continueLoop => exact rfl
  | clause handle kind owned =>
    cases x with
    | ret v => exact hground.endClause (hx' v rfl)
    | transfer target v =>
      rw [Setting.leave, Exit.rename, Pending.rename, Setting.leave]
      split
      · exact hground.value (hx' v rfl)
      · exact hexit'
    | breakLoop | continueLoop => exact rfl
  | _ => exact hexit

/-- A new continuation on both sides.  The renaming learns of it, and stays as it is on all else. -/
theorem Ground.capture (h : c.Ground ρ extra stack store store') (captured : Captured)
    (hdet : Detached store.frames captured.constructs)
    (hkept : ∀ q ∈ captured.constructs, c.PendingIn store q) :
    ∃ ρ', ρ.AgreesOn store.frames store.continuations.size ρ' ∧ ρ'.frame = ρ.frame ∧
      ρ'.cont ⟨store.continuations.size⟩ = ⟨store'.continuations.size⟩ ∧
      c.Ground ρ' extra stack { store with continuations := store.continuations.push captured }
        { store' with continuations := store'.continuations.push (captured.rename ρ) } := by
  let ρ' : Renaming := { ρ with
    cont := Function.update ρ.cont ⟨store.continuations.size⟩ ⟨store'.continuations.size⟩ }
  have hagree : ρ.AgreesOn store.frames store.continuations.size ρ' := by
    refine ⟨fun _ _ => rfl, fun k hk => Function.update_of_ne ?_ _ _⟩
    rintro rfl
    exact Nat.lt_irrefl _ hk
  have hnew : ρ'.cont ⟨store.continuations.size⟩ = ⟨store'.continuations.size⟩ :=
    Function.update_self _ _ _
  have hold := h.toStores.of_agrees hagree
  have hn : store.continuations.size ≤ (store.continuations.push captured).size := by simp
  have hlt {k : ContinuationId} (hk : k.index < store.continuations.size) :
      (ρ'.cont k).index < store'.continuations.size := hold.cont_lt hk
  -- a continuation of the longer array is the new one or one of those before
  have hcases {k : ContinuationId} (hk : k.index < (store.continuations.push captured).size) :
      k = ⟨store.continuations.size⟩ ∨ k.index < store.continuations.size := by
    obtain ⟨i⟩ := k
    rw [Array.size_push] at hk
    obtain hi | rfl := Nat.lt_succ_iff_lt_or_eq.mp hk
    · exact .inr hi
    · exact .inl rfl
  have hfound {i : Nat} {k : Captured} (hi : (store.continuations.push captured)[i]? = some k) :
      k = captured ∨ store.continuations[i]? = some k := by
    rw [Array.getElem?_push] at hi
    split at hi
    · exact .inl (Option.some.inj hi).symm
    · exact .inr hi
  refine ⟨ρ', hagree, rfl, hnew, ⟨h.frames.of_agrees hagree hn, fun k hk => ?_,
    fun k l hk hl heq => ?_, fun i k hi => ?_, fun i k hi q hq => ?_⟩, h.anchored,
    fun q hq => (h.stack q hq).mono (fun _ => id) hn⟩
  · obtain rfl | hk := hcases hk
    · rw [hnew, Array.getElem?_push_size, Array.getElem?_push_size, Option.map_some,
        h.captured_rename_eq hdet hkept hagree]
    · rw [Array.getElem?_push_lt (hlt hk), Array.getElem?_push_lt hk, ← Array.getElem?_eq_getElem,
        ← Array.getElem?_eq_getElem]
      exact hold.cont k hk
  · have hne {k : ContinuationId} (hk : k.index < store.continuations.size) :
        ρ'.cont k ≠ ⟨store'.continuations.size⟩ := by
      intro heq
      have := hlt hk
      rw [heq] at this
      exact Nat.lt_irrefl _ this
    obtain rfl | hk := hcases hk <;> obtain rfl | hl := hcases hl
    · rfl
    · exact absurd (heq.symm.trans hnew) (hne hl)
    · exact absurd (heq.trans hnew) (hne hk)
    · exact hold.cont_inj k l hk hl heq
  · obtain rfl | hi := hfound hi
    · exact hdet
    · exact h.detached i k hi
  · obtain rfl | hi := hfound hi
    · exact (hkept q hq).mono (fun _ => id) hn
    · exact (h.kept i k hi q hq).mono (fun _ => id) hn

/-- The clause of a guard that answers an operation starts with the rest of the computation as its
continuation. -/
theorem Ground.answer (h : c.Ground ρ extra stack store store') (recycle recycle' : Bool)
    {handle : ExprId}
    {clauses : List Clause} {kind : ResumeKind}
    (hq : c.PendingIn store (.guard handle clauses frame))
    (hpinned : store.frames.Pinned frame) (hrest : Detached store.frames rest)
    (hkept : ∀ q ∈ rest, c.PendingIn store q)
    (hargs : ∀ v ∈ args, c.ValueIn store v) {cl : Clause} (hcl : cl ∈ clauses)
    {x' : FrameId} {store₁' : Store}
    (hpush : Store.push
      { store with continuations := store.continuations.push { handle, clauses, frame, rest, kind }
        }
      recycle (some frame) (cl.head.continuation :: cl.head.params)
      (.callable (.continuation ⟨store.continuations.size⟩) :: args) = (x, store₁))
    (hpush' : Store.push
      { store' with
        continuations := store'.continuations.push
          (Captured.rename ρ { handle, clauses, frame, rest, kind }) }
      recycle' (some (ρ.frame frame)) (cl.head.continuation :: cl.head.params)
      (.callable (.continuation ⟨store'.continuations.size⟩) :: args.map (·.rename ρ)) =
      (x', store₁')) :
    c.Follows extra (.of (.eval cl.body x) (.clause handle kind (some x) :: stack) store₁)
      (.of (.eval cl.body x') (.clause handle kind (some x') :: stack.map (·.rename ρ))
        store₁') := by
  have hs := h.frames.sound
  obtain ⟨ρ₁, hagree₁, hframe₁, hcont₁, hground₁⟩ :=
    h.capture { handle, clauses, frame, rest, kind }
      (forall_mem_cons.mpr ⟨⟨rfl, fun x hx => Option.some.inj hx ▸ hpinned⟩, hrest⟩)
      (forall_mem_cons.mpr ⟨hq, hkept⟩)
  have hargs₁ : args.map (·.rename ρ₁) = args.map (·.rename ρ) :=
    map_congr_left fun v hv => (hargs v hv).rename_eq hs hagree₁
  rw [← hargs₁, ← hframe₁, ← hcont₁] at hpush'
  obtain ⟨ρ₂, hagree₂, hx, -, hground₂, huse, howned, -, -⟩ :=
    hground₁.enter recycle recycle' (some frame)
      (fun q hq => Option.some.inj hq ▸ hpinned) (cl.head.continuation :: cl.head.params)
      (forall_mem_cons.mpr ⟨by simp [KeepsValue, Value.callables, KeepsCallable],
        fun v hv => (hargs v hv).mono (fun _ => id) (by simp)⟩) hpush hpush'
  have hclause := hground₂.push (q := .clause handle kind (some x)) (.of_empty ⟨rfl, rfl, rfl⟩)
    (by simp [Pending.frame?])
    (by rintro frame hf; obtain rfl := Option.some.inj hf; exact ⟨huse, howned⟩)
  have hstep := hclause.eval (hq.code cl.body (mem_map_of_mem hcl)) (.inr rfl)
  rwa [map_cons, Pending.rename, Option.map_some, hx, hground₁.map_rename_eq hagree₂,
    h.map_rename_eq hagree₁] at hstep

/-- The step of a request. -/
theorem Ground.raise (h : c.Ground ρ extra (q :: stack) store store') {op : OpRef}
    (hr : c.ControlIn store (q :: stack) (.request op args rest)) :
    c.Follows extra (c.left.raise op args rest stack store q)
      (c.right.raise op (args.map (·.rename ρ)) (rest.map (·.rename ρ))
        (stack.map (·.rename ρ)) store'
        (q.rename ρ)) := by
  obtain ⟨hargs, hrest⟩ := hr
  have hq := h.stack q mem_cons_self
  have hbelow := h.tail
  have hs := h.frames.sound
  -- a construct that is passed joins the rest of the computation
  have hjoin {store₁ store₁' : Store} {q' : Pending}
      (hground : c.Ground ρ extra stack store₁ store₁')
      (hmono : ∀ y, store.frames.Pinned y → store₁.frames.Pinned y)
      (hn : store.continuations.size ≤ store₁.continuations.size)
      (huse : ∀ frame, Usable store.frames (q :: stack) frame → Usable store₁.frames stack frame)
      (hq' : c.PendingIn store q') (howned : q'.owned? = none)
      (hframe : ∀ frame ∈ q'.frame?, Usable store₁.frames stack frame) :
      c.Follows extra (.of (.request op args (q' :: rest)) stack store₁)
        (.of (.request op (args.map (·.rename ρ)) (q'.rename ρ :: rest.map (·.rename ρ)))
          (stack.map (·.rename ρ)) store₁') := by
    refine hground.next (.request op args (q' :: rest)) ⟨fun v hv => (hargs v hv).mono hmono hn,
      forall_mem_cons.mpr ⟨⟨hq'.mono hmono hn, howned, hframe⟩, fun q'' hq'' => ?_⟩⟩
    obtain ⟨hkept, howned', hframe'⟩ := hrest q'' hq''
    exact ⟨hkept.mono hmono hn, howned', fun frame hf => huse frame (hframe' frame hf)⟩
  have hpassed (hbase : q.base? = none ∨ q.base? = some none) (howned : q.owned? = none) :=
    hjoin hbelow (fun _ => id) (Nat.le_refl _) (fun frame hu => hu.imp_right fun hb => by
      obtain hbase | hbase := hbase <;> rw [base?, hbase] at hb
      · exact hb
      · cases hb) hq howned h.anchored.1
  -- the frame of a call or clause is pinned on the way
  have hpinned {x : FrameId} (q' : Pending) (hbase : q.base? = some (some x))
      (howned : q.owned? = some x)
      (hplain : q'.frame? = none ∧ q'.owned? = none)
      (hkept : c.PendingIn store q') := by
    obtain ⟨hground, hpin⟩ := hbelow.pin (h.anchored.2.1 x howned).1
    refine hjoin hground (fun y hy => (hpin y).mpr (.inr hy)) (Nat.le_refl _)
      (fun frame hu => .inl ((hpin frame).mpr ?_))
      hkept hplain.2 (by simp [hplain.1])
    rw [Usable, base?, hbase] at hu
    exact hu.symm.imp_left fun hb => (Option.some.inj hb).symm
  cases q with
  | call owned =>
    cases owned with
    | none => exact hpassed (.inr rfl) rfl
    | some x => exact hpinned (.call none) rfl rfl ⟨rfl, rfl⟩ (.of_empty ⟨rfl, rfl, rfl⟩)
  | clause handle kind owned =>
    cases owned with
    | none => exact hpassed (.inr rfl) rfl
    | some x => exact hpinned (.clause handle kind none) rfl rfl ⟨rfl, rfl⟩ (.of_empty
        ⟨rfl, rfl, rfl⟩)
  | guard handle clauses frame =>
    have hframe := h.anchored.1 frame rfl
    have hinUse := hframe.inUse hs hbelow.anchored
    rw [Setting.raise, Pending.rename, Setting.raise, hq.guard handle clauses frame rfl op]
    cases hcl : c.left.clauseFor? handle clauses op with
    | none =>
      exact hjoin hbelow (fun _ => id) (Nat.le_refl _)
        (fun _ hu => hu.elim .inl fun hb => Option.some.inj hb ▸ hframe) hq rfl h.anchored.1
    | some found =>
      obtain ⟨hground, hpin⟩ := hbelow.pin hinUse
      have hmono (y : FrameId) (hy : store.frames.Pinned y) : (store.pin frame).frames.Pinned y :=
        (hpin y).mpr (.inr hy)
      refine hground.answer c.left.recycle c.right.recycle (hq.mono hmono (Nat.le_refl _))
        ((hpin frame).mpr (.inl rfl))
        (fun q' hq' => ⟨(hrest q' hq').2.1, fun frame' hf => (hpin frame').mpr ?_⟩)
        (fun q' hq' => (hrest q' hq').1.mono hmono (Nat.le_refl _))
        (fun v hv => (hargs v hv).mono hmono (Nat.le_refl _))
        (Setting.mem_of_clauseFor? hcl) rfl rfl
      obtain hp | hb := (hrest q' hq').2.2 frame' hf
      · exact .inr hp
      · exact .inl (Option.some.inj hb).symm
  | _ => exact hpassed (.inl rfl) rfl

/-- **States that differ in numbers only take steps that differ in numbers only.** -/
theorem Ground.step (ha : c.Agrees) (h : c.Ground ρ extra stack store store') {control : Control}
    (hc : c.ControlIn store stack control) :
    c.Follows extra (c.left.step ⟨control, stack, store⟩)
      (c.right.step ⟨control.rename ρ, stack.map (·.rename ρ), store'⟩) := by
  cases control with
  | eval e frame => exact h.eval_form ha hc.1 hc.2
  | value v =>
    cases stack with
    | nil => exact ⟨ρ, h.toStores, hc, rfl⟩
    | cons q stack => exact h.give ha hc
  | exit x =>
    cases stack with
    | nil => exact ⟨ρ, h.toStores, hc, rfl⟩
    | cons q stack => exact h.leave hc
  | request op args rest =>
    cases stack with
    | nil => exact ⟨ρ, h.toStores, hc, rfl⟩
    | cons q stack => exact h.raise hc

/-! ### What only the right side has -/

section Right

variable (h : c.Ground ρ extra stack store store')
include h

/-- Suspended calls play no role. -/
theorem Ground.with_suspensions (xs xs' : Array Suspended) :
    c.Ground ρ extra stack { store with suspensions := xs } { store' with suspensions := xs' } :=
  ⟨⟨h.frames, h.cont, h.cont_inj, h.detached, h.kept⟩, h.anchored, h.stack⟩

theorem Ground.pin_right {y : FrameId} (hy : extra y) :
    c.Ground ρ extra stack store (store'.pin y) :=
  ⟨⟨h.frames.pin_right hy, h.cont, h.cont_inj, h.detached, h.kept⟩, h.anchored, h.stack⟩

theorem Ground.capture_right (captured : Captured) :
    c.Ground ρ extra stack store
      { store' with continuations := store'.continuations.push captured } := by
  refine ⟨⟨h.frames, fun k hk => ?_, h.cont_inj, h.detached, h.kept⟩, h.anchored, h.stack⟩
  rw [Array.getElem?_push_lt (h.cont_lt hk), ← Array.getElem?_eq_getElem]
  exact h.cont k hk

/-- A continuation of the right side alone may be counted. -/
theorem Ground.set_right {i : Nat}
    (hi : ∀ k : ContinuationId, k.index < store.continuations.size → (ρ.cont k).index ≠ i)
    (captured : Captured) :
    c.Ground ρ extra stack store
      { store' with continuations := store'.continuations.setIfInBounds i captured } := by
  refine ⟨⟨h.frames, fun k hk => ?_, h.cont_inj, h.detached, h.kept⟩, h.anchored, h.stack⟩
  rw [Array.getElem?_setIfInBounds_ne (hi k hk).symm]
  exact h.cont k hk

theorem Ground.enter_right (recycle : Bool) {parent : Option FrameId}
    (hparent : ∀ q ∈ parent, store'.frames.Pinned q) (ts : List LocalId) (vs : List Value)
    (hpush : store'.push recycle parent ts vs = (x, store₁)) :
    c.Ground ρ (fun z => z = x ∨ extra z) stack store store₁ := by
  have hnew := h.frames.sound_right.pushed recycle parent
  obtain ⟨rfl, rfl⟩ := Prod.mk.inj hpush
  have hren := (h.frames.of_pushed_right hnew hparent).defineAll_right (.inl rfl) ts vs
  exact ⟨⟨hren, h.cont, h.cont_inj, h.detached, h.kept⟩, h.anchored, h.stack⟩

end Right

end Sharing

end Effectful.Interp
