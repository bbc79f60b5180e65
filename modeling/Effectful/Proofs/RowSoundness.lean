import Effectful.Interp.Run
import Effectful.Proofs.RowFlow
/-!
# Soundness of effect rows

The row of a function has the label of every operation on which a call of the function is suspended,
however often the call is resumed (`History.label_mem_functionRow`).

The proof follows the interpreter.  `Ground` says of a stack what does not depend on the control
above it, that whatever gets past the stack is in the row, and that whatever gets to a guard is in
the row of the body that it guards.  Each function of the interpreter has one lemma that takes a
ground stack to a valid step; `Setting.step_valid` puts them together, and the rest is an induction
over the steps of a call and over the calls of a history.
-/

namespace Effectful.Interp

open List

variable {rest : List Pending} {store : Store} {n : Nat} {fs : Frames} {q : Pending}
  {frame : FrameId} {e x : Expr} {v : Value} {f : FnDecl} {s : Setting} {c : InferenceContext}
  {args : List Value} {clauses : List Clause} {op : OpRef} {handle : ExprId} {d : DefId}
  {log : List (DefId × Request)}

section Valid

variable (c : InferenceContext) (l : String) (w : World) (n : Nat) (fs : Frames) (may : Prop)

/-- A stack above which data may be evaluated: its constructs fit, their frames stay, and if `above`
may perform the label inside, then `may` allows what gets past the stack. -/
structure Ground (stack : List Pending) (above : Prop) : Prop where
  anchored : Anchored fs stack
  fits : ∀ q ∈ stack, q.Fits c.program w n
  named : c.program.callsByName = true → ∀ q ∈ stack, q.isCallee = false
  flow : w.Bounds c l may stack above

/-- Constructs that may be put on a stack at any time; they are listed from the outermost on. -/
structure Resumable (rest : List Pending) (may : Prop) : Prop where
  detached : Detached fs rest
  fits : ∀ q ∈ rest, q.Fits c.program w n
  named : c.program.callsByName = true → ∀ q ∈ rest, q.isCallee = false
  flow : w.Bounds c l may rest.reverse False

/-- The store fits: its frames do, and all that it can resume performs no more than is known of it.
`owners` are the functions to whose calls the suspensions belong, in the order of the
suspensions. -/
structure Store.Fits (owners : List DefId) (store : Store) : Prop where
  length_owners : owners.length = store.suspensions.size
  frames : store.frames.Fit c.program w store.continuations.size
  continuations : ∀ k : ContinuationId, ∀ captured, store.continuations[k.index]? = some captured →
    Resumable c l w store.continuations.size store.frames
      (.guard captured.handle captured.clauses captured.frame :: captured.rest) (w.cont k)
  suspensions : ∀ (i : Nat) suspended, store.suspensions[i]? = some suspended →
    ∃ d, owners[i]? = some d ∧
      Resumable c l w store.continuations.size store.frames suspended.rest (c.rowHas l d)

def Exit.value? : Exit → Option Value
  | .ret v | .transfer _ v => some v
  | .breakLoop | .continueLoop => none

/-- A control fits the stack below it. -/
def Control.Fits (stack : List Pending) : Control → Prop
  | .eval e frame =>
    Usable fs stack frame ∧ e ∈ (w.fn frame).body.walk ∧
      (AtCallee stack → c.program.callsByName = true →
        e.form.isName (w.fn frame).continuations = true ∨ e.form.isIntrinsic = true) ∧
      (¬ AtCallee stack → e.form.isName (w.fn frame).continuations = false)
  | .value v =>
    (AtCallee stack → v.isFirstOrder = true ∨ v.IsNamed n) ∧ (¬ AtCallee stack → c.program.Admits v)
  | .exit x => ∀ v ∈ x.value?, c.program.Admits v
  | .request op args rest =>
    (c.program.op? op).isSome ∧ (∀ v ∈ args, c.program.Admits v) ∧
      (∀ q ∈ rest, q.Fits c.program w n) ∧
      (c.program.callsByName = true → ∀ q ∈ rest ++ stack, q.isCallee = false) ∧
      (∀ q ∈ rest, q.owned? = none ∧ ∀ frame ∈ q.frame?, Usable fs stack frame) ∧
      ∀ q ∈ rest, ¬ World.handles c (c.program.opLabel op) q

end Valid

/-- A state in which `may` allows all that gets past the stack, and guards get what they expect. -/
structure State.Valid (c : InferenceContext) (l : String) (owners : List DefId) (may : Prop)
    (w : World) (st : State) : Prop where
  store : st.store.Fits c l w owners
  anchored : Anchored st.store.frames st.stack
  fits : ∀ q ∈ st.stack, q.Fits c.program w st.store.continuations.size
  named : c.program.callsByName = true → ∀ q ∈ st.stack.tail, q.isCallee = false
  control : st.control.Fits c w st.store.continuations.size st.store.frames st.stack
  flow : w.Bounds c l may (st.control.rest.reverse ++ st.stack) (w.control c l st.stack st.control)

/-- The step leads to a valid state, or ends with a store that fits; a request that gets out is
allowed. -/
def Step.Valid (c : InferenceContext) (l : String) (owners : List DefId) (may : Prop) : Step → Prop
  | .next st => ∃ w, st.Valid c l owners may w
  | .fail _ store => ∃ w, store.Fits c l w owners
  | .done control store => ∃ w, store.Fits c l w owners ∧
      control.Fits c w store.continuations.size store.frames [] ∧
      w.Bounds c l may control.rest.reverse (w.control c l [] control)

/-! ### Moving between worlds -/

section Agree

variable {l : String} {w w' : World} {n' : Nat} {fs' : Frames} {may : Prop}

theorem Resumable.inUse (h : Resumable c l w n fs rest may) (hs : fs.Sound) :
    ∀ q ∈ rest, ∀ frame ∈ q.frame?, fs.InUse frame :=
  fun q hq frame hf => ((h.detached q hq).2 frame hf).inUse hs

theorem Resumable.of_agrees (h : Resumable c l w n fs rest may) (hs : fs.Sound)
    (ha : World.Agrees fs n w w') (hn : n ≤ n') (hpin : ∀ x, fs.Pinned x → fs'.Pinned x)
    {may' : Prop} (hmay : may → may') : Resumable c l w' n' fs' rest may' where
  detached := h.detached.mono hpin
  fits q hq := (h.fits q hq).of_agrees ha hn (h.inUse hs q hq)
  named := h.named
  flow := (h.flow.of_agrees (fun q hq => h.fits q (mem_reverse.mp hq)) ha fun q hq =>
    h.inUse hs q (mem_reverse.mp hq)).weaken hmay

theorem Ground.of_agrees {stack : List Pending} {above : Prop}
    (h : Ground c l w n fs may stack above) (hs : fs.Sound) (ha : World.Agrees fs n w w')
    (hn : n ≤ n') (hpin : ∀ x, fs.Pinned x → fs'.Pinned x) (huse : ∀ x, fs.InUse x → fs'.InUse x) :
    Ground c l w' n' fs' may stack above where
  anchored := h.anchored.mono hpin fun x _ => huse x
  fits q hq := (h.fits q hq).of_agrees ha hn fun _ => h.anchored.inUse_frame? hs hq
  named := h.named
  flow := h.flow.of_agrees h.fits ha fun _ hq _ => h.anchored.inUse_frame? hs hq

theorem World.Agrees.refl : World.Agrees fs n w w :=
  ⟨fun _ _ => rfl, fun _ _ => rfl, fun _ _ => rfl⟩

/-- The store with other frames, as long as pinned frames stay pinned. -/
theorem Store.Fits.with_frames {owners : List DefId} (h : store.Fits c l w owners)
    (hfit : fs'.Fit c.program w store.continuations.size)
    (hpin : ∀ x, store.frames.Pinned x → fs'.Pinned x) :
    Store.Fits c l w owners { store with frames := fs' } where
  length_owners := h.length_owners
  frames := hfit
  continuations k captured hk :=
    (h.continuations k captured hk).of_agrees h.frames.sound .refl (Nat.le_refl _) hpin id
  suspensions i suspended hi := by
    obtain ⟨d, hd, hres⟩ := h.suspensions i suspended hi
    exact ⟨d, hd, hres.of_agrees h.frames.sound .refl (Nat.le_refl _) hpin id⟩

end Agree

/-! ### Ground stacks -/

/-- A ground stack over a store that fits. -/
structure Standing (c : InferenceContext) (l : String) (owners : List DefId) (may : Prop)
    (w : World) (store : Store) (stack : List Pending) (above : Prop) : Prop extends
    Ground c l w store.continuations.size store.frames may stack above where
  stored : store.Fits c l w owners

theorem forall_of_eq_some {o : Option FrameId} (ho : o = some frame) {P : FrameId → Prop}
    (h : P frame) :
    ∀ frame ∈ o, P frame := by
  rintro frame' hf
  obtain rfl : frame = frame' := Option.some.inj (ho.symm.trans hf)
  exact h

/-- Code of the frame's function that is evaluated for its value. -/
def World.IsCode (w : World) (frame : FrameId) (e : Expr) : Prop :=
  e ∈ (w.fn frame).body.walk ∧ e.form.isName (w.fn frame).continuations = false

namespace Standing

variable {l : String} {owners : List DefId} {may : Prop} {w : World} {stack : List Pending}
  {above : Prop} (h : Standing c l owners may w store stack above)
include h

theorem sound : store.frames.Sound := h.stored.frames.sound

theorem inUse (hframe : Usable store.frames stack frame) : store.frames.InUse frame :=
  hframe.inUse h.sound h.anchored

theorem not_atCallee (hn : c.program.callsByName = true) : ¬ AtCallee stack := by
  rintro ⟨q, hq, hcallee⟩
  rw [h.named hn q (mem_of_head? hq)] at hcallee
  exact Bool.noConfusion hcallee

theorem named_tail (hn : c.program.callsByName = true) : ∀ q ∈ stack.tail, q.isCallee = false :=
  fun q hq => h.named hn q (mem_of_mem_tail hq)

/-- The store gets other frames, and pinned frames stay pinned. -/
theorem with_frames {fs' : Frames} (hfit : fs'.Fit c.program w store.continuations.size)
    (hpin : ∀ x, store.frames.Pinned x → fs'.Pinned x)
    (huse : ∀ x, store.frames.InUse x → fs'.InUse x) :
    Standing c l owners may w { store with frames := fs' } stack above :=
  ⟨h.toGround.of_agrees h.sound .refl (Nat.le_refl _) hpin huse, h.stored.with_frames hfit hpin⟩

theorem push (hfit : q.Fits c.program w store.continuations.size)
    (hframe : ∀ frame ∈ q.frame?, Usable store.frames stack frame)
    (howned : ∀ frame ∈ q.owned?, store.frames.InUse frame ∧ frame ∉ ownedFrames stack)
    (hcallee : q.isCallee = false) {above' : Prop} (hadmits : above' → w.admits c l q)
    (ha : w.passes c l q above' → above) :
    Standing c l owners may w store (q :: stack) above' where
  anchored := ⟨hframe, howned, h.anchored⟩
  fits := forall_mem_cons.mpr ⟨hfit, h.fits⟩
  named hn := forall_mem_cons.mpr ⟨hcallee, h.named hn⟩
  flow := ⟨hadmits, h.flow.mono ha⟩
  stored := h.stored

/-- A construct without a frame, which passes everything on. -/
theorem push_plain (hplain : q.frame? = none ∧ q.use? = none ∧ q.isCallee = false)
    (howned : ∀ frame ∈ q.owned?, store.frames.InUse frame ∧ frame ∉ ownedFrames stack)
    (hheld : ∀ v ∈ q.held, c.program.Admits v) :
    Standing c l owners may w store (q :: stack) above := by
  obtain ⟨hframe, huse, hcallee⟩ := hplain
  have hcode : q.code = [] := by cases q <;> first | rfl | simp [Pending.frame?] at hframe
  refine h.push ⟨by simp [hframe], by simp [hframe], hheld, by simp [huse], ?_⟩
    (by simp [hframe]) howned hcallee (fun _ => by cases q <;> trivial) ?_
  · rintro handle clauses frame rfl
    simp [Pending.frame?] at hframe
  · rintro (⟨hb, -⟩ | hadds)
    · exact hb
    · simp [World.adds, hcode, hframe, huse] at hadds

/-- A construct that holds code and nothing else. -/
theorem push_code (hq : q.frame? = some frame)
    (hplain : q.held = [] ∧ q.use? = none ∧ q.isCallee = false ∧ q.base? = none)
    (hframe : Usable store.frames stack frame) (hcode : ∀ e ∈ q.code, w.IsCode frame e)
    (hbinders : ∀ t ∈ q.binders, t ∉ (w.fn frame).continuations) (above' : Prop)
    (ha : above' ∨ (∃ e ∈ q.code, e.performs c l) ∨ w.reach frame → above) :
    Standing c l owners may w store (q :: stack) above' ∧
      Usable store.frames (q :: stack) frame := by
  obtain ⟨hheld, huse, hcallee, hbase⟩ := hplain
  have howned : q.owned? = none := by cases q <;> first | rfl | simp [Pending.base?] at hbase
  have hadmits : w.admits c l q := by cases q <;> trivial
  refine ⟨h.push ⟨?_, ?_, by simp [hheld], by simp [huse], ?_⟩ ?_ (by simp [howned]) hcallee
    (fun _ => hadmits) ?_, ?_⟩
  · exact forall_of_eq_some hq hcode
  · exact forall_of_eq_some hq hbinders
  · rintro handle clauses frame' rfl
    simp [Pending.base?] at hbase
  · exact forall_of_eq_some hq hframe
  · rintro (⟨hb, -⟩ | hcode | ⟨frame', hf, hr⟩ | ⟨u, hu, -⟩)
    · exact ha (.inl hb)
    · exact ha (.inr (.inl hcode))
    · obtain rfl : frame = frame' := Option.some.inj (hq.symm.trans hf)
      exact ha (.inr (.inr hr))
    · simp [huse] at hu
  · exact hframe.imp_right fun hb => by rw [base?, hbase]; exact hb

/-- Data is evaluated above a ground stack. -/
theorem eval (hframe : Usable store.frames stack frame) (he : w.IsCode frame e)
    (ha : e.performs c l ∨ w.reach frame → above) :
    (Step.of (.eval e frame) stack store).Valid c l owners may := by
  refine ⟨w, h.stored, h.anchored, h.fits, h.named_tail,
    ⟨hframe, he.1, fun hat hn => absurd hat (h.not_atCallee hn), fun _ => he.2⟩,
    h.flow.mono fun hc => ?_⟩
  obtain hp | hr | ⟨d, hd, -⟩ := hc
  · exact ha (.inl hp)
  · exact ha (.inr hr)
  · have := he.2
    rw [hd] at this
    exact Bool.noConfusion this

/-- Data is given to a ground stack. -/
theorem value (hv : c.program.Admits v) :
    (Step.of (.value v) stack store).Valid c l owners may := by
  have hfirst (hat : AtCallee stack) : v.isFirstOrder = true :=
    hv.resolve_right fun hn => h.not_atCallee hn hat
  refine ⟨w, h.stored, h.anchored, h.fits, h.named_tail,
    ⟨fun hat => .inl (hfirst hat), fun _ => hv⟩, h.flow.mono fun hc => ?_⟩
  exact absurd hc.2 (World.calling_of_isFirstOrder (hfirst hc.1))

/-- Data is evaluated under a construct that holds code and nothing else. -/
theorem eval_under (hq : q.frame? = some frame)
    (hplain : q.held = [] ∧ q.use? = none ∧ q.isCallee = false ∧ q.base? = none)
    (hframe : Usable store.frames stack frame) (hx : w.IsCode frame x)
    (hcode : ∀ e ∈ q.code, w.IsCode frame e)
    (hbinders : ∀ t ∈ q.binders, t ∉ (w.fn frame).continuations)
    (ha : ∀ e ∈ x :: q.code, e.performs c l → above) (hr : w.reach frame → above) :
    (Step.of (.eval x frame) (q :: stack) store).Valid c l owners may := by
  rw [forall_mem_cons] at ha
  have hpush := h.push_code hq hplain hframe hcode hbinders (x.performs c l ∨ w.reach frame) ?_
  · exact hpush.1.eval hpush.2 hx id
  · rintro ((hp | hr') | ⟨e, he, hp⟩ | hr')
    · exact ha.1 hp
    · exact hr hr'
    · exact ha.2 e he hp
    · exact hr hr'

theorem result {r : Except EvalError Value} (hr : ∀ v, r = .ok v → v.isFirstOrder = true) :
    (Step.result r stack store).Valid c l owners may := by
  cases r with
  | ok v => exact h.value (.inl (hr v rfl))
  | error e => exact ⟨w, h.stored⟩

theorem exit {x : Exit} (hx : ∀ v ∈ x.value?, c.program.Admits v) :
    (Step.of (.exit x) stack store).Valid c l owners may :=
  ⟨w, h.stored, h.anchored, h.fits, h.named_tail, hx, h.flow.mono False.elim⟩

/-! ### Calls -/

/-- A new frame that the construct above gives back: there is a world that knows the frame and
agrees with the old one on everything else. -/
theorem enter (recycle : Bool) {parent : Option FrameId} {targets : List LocalId} {vs : List Value}
    (hf : f ∈ c.program.functions) (reach : Prop)
    (hparent : ∀ q ∈ parent, store.frames.Pinned q ∧ w.fn q = f ∧ (w.reach q → reach))
    (hroot : parent = none → ¬ reach)
    (hvs : ∀ tv ∈ targets.zip vs,
      if tv.1 ∈ f.continuations then
        ∃ k, tv.2 = .callable (.continuation k) ∧ k.index < store.continuations.size ∧
          (w.cont k → reach)
      else c.program.Admits tv.2)
    {x : FrameId} {store' : Store} (hpush : store.push recycle parent targets vs = (x, store'))
    (hplain : q.frame? = none ∧ q.use? = none ∧ q.isCallee = false) (howned : q.owned? = some x) :
    ∃ w', w'.fn x = f ∧ w'.reach x = reach ∧
      Standing c l owners may w' store' (q :: stack) above := by
  have hpushed := h.sound.pushed recycle parent
  set y := (store.frames.push recycle parent).1 with hy
  set fs' := (store.frames.push recycle parent).2 with hfs'
  have hpush' : (y, { store with frames := fs'.defineAll y targets vs }) = (x, store') := hpush
  rw [Prod.mk.injEq] at hpush'
  obtain ⟨rfl, rfl⟩ := hpush'
  -- the new world differs at the fresh frame only
  let w' : World :=
    { w with fn := Function.update w.fn y f, reach := Function.update w.reach y reach }
  have hagree : World.Agrees store.frames store.continuations.size w w' := by
    refine ⟨fun z hz => ?_, fun z hz => ?_, fun _ _ => rfl⟩ <;>
      exact Function.update_of_ne (fun h : z = y => hpushed.fresh (h ▸ hz)) _ _
  have hfn : w'.fn y = f := Function.update_self _ _ _
  have hreach : w'.reach y = reach := Function.update_self _ _ _
  have hfit : fs'.Fit c.program w' store.continuations.size := by
    refine h.stored.frames.of_pushed hpushed hagree (Nat.le_refl _) (by rwa [hfn]) ?_ ?_
    · rw [hfn, hreach]
      exact hparent
    · rwa [hreach]
  obtain ⟨hfit', huse, hpin⟩ := hfit.defineAll ((hpushed.inUse y).mpr (.inl rfl)) targets vs
    (by
      intro tv htv
      have := hvs tv htv
      rwa [World.Holds, hfn, hreach])
  have hpinned (z : FrameId) (hz : store.frames.Pinned z) : (fs'.defineAll y targets vs).Pinned z :=
    (hpin z).mpr ((hpushed.pinned_iff h.sound).mpr hz)
  have hstored : Store.Fits c l w' owners { store with frames := fs'.defineAll y targets vs } := by
    refine ⟨h.stored.length_owners, hfit', fun k captured hk => ?_, fun i suspended hi => ?_⟩
    · exact (h.stored.continuations k captured hk).of_agrees h.sound hagree
        (Nat.le_refl _) hpinned id
    · obtain ⟨d, hd, hres⟩ := h.stored.suspensions i suspended hi
      exact ⟨d, hd, hres.of_agrees h.sound hagree (Nat.le_refl _) hpinned id⟩
  have hground := h.toGround.of_agrees h.sound hagree (Nat.le_refl _) hpinned fun z hz =>
    (huse z).mpr ((hpushed.inUse z).mpr (.inr hz))
  have hheld : q.held = [] := by cases q <;> first | rfl | cases howned
  refine ⟨w', hfn, hreach, push_plain ⟨hground, hstored⟩ hplain
    (forall_of_eq_some howned ⟨?_, fun hx => ?_⟩) (by simp [hheld])⟩
  · exact (huse y).mpr ((hpushed.inUse y).mpr (.inl rfl))
  · exact hpushed.fresh (h.anchored.inUse_of_owned hx)

/-- What can be resumed is put on a ground stack that allows it. -/
theorem resume {resumed : Prop}
    (hrest : Resumable c l w store.continuations.size store.frames rest resumed)
    (ha : resumed → above) : Standing c l owners may w store (rest.reverse ++ stack) False where
  anchored := (hrest.detached.anchored_reverse_append h.anchored).1
  fits q hq := (mem_append.mp hq).elim (fun hq => hrest.fits q (mem_reverse.mp hq)) (h.fits q)
  named hn q hq :=
    (mem_append.mp hq).elim (fun hq => hrest.named hn q (mem_reverse.mp hq)) (h.named hn q)
  flow := hrest.flow.append ha h.flow
  stored := h.stored

variable {k : ContinuationId} {captured : Captured}

theorem count_resumption (hk : store.continuations[k.index]? = some captured) (m : Nat) :
    Standing c l owners may w { store with
      continuations := store.continuations.setIfInBounds k.index { captured with resumed := m } }
        stack above := by
  have hsize : (store.continuations.setIfInBounds k.index { captured with resumed := m }).size =
      store.continuations.size := Array.size_setIfInBounds
  refine ⟨by rw [hsize]; exact h.toGround,
    h.stored.length_owners, by rw [hsize]; exact h.stored.frames,
    fun k' captured' hk' => ?_, by rw [hsize]; exact h.stored.suspensions⟩
  rw [hsize]
  simp only [Array.getElem?_setIfInBounds] at hk'
  split at hk'
  · rename_i hkk
    split at hk'
    · obtain rfl := Option.some.inj hk'
      refine h.stored.continuations k' captured ?_
      rwa [← hkk]
    · cases hk'
  · exact h.stored.continuations k' captured' hk'

theorem put_back (hk : store.continuations[k.index]? = some captured) (hv : c.program.Admits v)
    (ha : w.cont k → above) :
    (Step.of (.value v)
      (captured.rest.reverseAux (.guard captured.handle captured.clauses captured.frame :: stack))
      store).Valid c l owners may := by
  have hback := (h.resume (h.stored.continuations k captured hk) ha).value hv
  rwa [reverse_cons, append_assoc, singleton_append, ← reverseAux_eq] at hback

/-- Resuming a continuation adds no more to a ground stack than is known of the continuation. -/
theorem resumeContinuation (hv : c.program.Admits v) (ha : w.cont k → above) :
    (Setting.resumeContinuation k v stack store).Valid c l owners may := by
  rw [Setting.resumeContinuation]
  split
  · exact ⟨w, h.stored⟩
  rename_i captured hk
  split
  · exact ⟨w, h.stored⟩
  have hcount := h.count_resumption hk (captured.resumed + 1)
  have hk' := Array.getElem?_setIfInBounds_self_of_lt (Array.getElem?_eq_some_iff.mp hk).1
    (a := { captured with resumed := captured.resumed + 1 })
  split
  · -- a tail continuation leaves a mark below, which passes everything on
    exact ((hcount.push_plain (q := .transfer captured.handle) ⟨rfl, rfl, rfl⟩
      (by simp [Pending.owned?]) (by simp [Pending.held])).put_back hk' hv ha :)
  · exact (hcount.put_back hk' hv ha :)

/-- The frame of a call or clause that is over is given back. -/
theorem release
    (hanchored : Anchored store.frames (q :: stack)) :
    Standing c l owners may w (store.release q.owned?) stack above := by
  cases hq : q.owned? with
  | none => exact h
  | some x =>
    have hx := (hanchored.2.1 x hq).1
    exact ⟨⟨hanchored.release hq, h.fits, h.named, h.flow⟩,
      h.stored.with_frames (h.stored.frames.release hx) fun y hy => hy.release hx⟩

theorem endClause {kind : ResumeKind}
    (hv : c.program.Admits v) : (Setting.endClause kind v stack store).Valid c l owners may := by
  cases kind with
  | tail => exact ⟨w, h.stored⟩
  | resume => exact h.value hv

/-- A request goes past a construct, which becomes part of the rest of the computation. -/
theorem pass
    (hbounds : w.Bounds c l may (rest.reverse ++ q :: stack) (c.program.opLabel op = l))
    (hrequest : (Control.request op args rest).Fits c w store.continuations.size store.frames stack)
    (hfit : q.Fits c.program w store.continuations.size) (howned : q.owned? = none)
    (hframe : ∀ frame ∈ q.frame?, Usable store.frames stack frame)
    (hcallee : c.program.callsByName = true → q.isCallee = false)
    (hhandles : ¬ World.handles c (c.program.opLabel op) q) :
    (Step.of (.request op args (q :: rest)) stack store).Valid c l owners may := by
  obtain ⟨hop, hargs, hfits, hnamed, hrest, hnot⟩ := hrequest
  refine ⟨w, h.stored, h.anchored, h.fits, h.named_tail,
    ⟨hop, hargs, forall_mem_cons.mpr ⟨hfit, hfits⟩,
      fun hn => forall_mem_cons.mpr ⟨hcallee hn, hnamed hn⟩,
      forall_mem_cons.mpr ⟨⟨howned, hframe⟩, hrest⟩, forall_mem_cons.mpr ⟨hhandles, hnot⟩⟩, ?_⟩
  change w.Bounds c l may ((q :: rest).reverse ++ stack) _
  rwa [reverse_cons, append_assoc, singleton_append]

/-- A continuation is added to the store, and the world learns what it may perform. -/
theorem capture (captured : Captured) {resumed : Prop}
    (hres : Resumable c l w store.continuations.size store.frames
      (.guard captured.handle captured.clauses captured.frame :: captured.rest) resumed) :
    ∃ w', w'.fn = w.fn ∧ w'.reach = w.reach ∧ w'.cont ⟨store.continuations.size⟩ = resumed ∧
      Standing c l owners may w' { store with continuations := store.continuations.push captured }
      stack above := by
  let w' : World := { w with cont := Function.update w.cont ⟨store.continuations.size⟩ resumed }
  have hagree : World.Agrees store.frames store.continuations.size w w' := by
    refine ⟨fun _ _ => rfl, fun _ _ => rfl, fun k hk => Function.update_of_ne ?_ _ _⟩
    rintro rfl
    exact Nat.lt_irrefl _ hk
  have hcont : w'.cont ⟨store.continuations.size⟩ = resumed := Function.update_self _ _ _
  have hn : store.continuations.size ≤ (store.continuations.push captured).size := by simp
  refine ⟨w', rfl, rfl, hcont, h.toGround.of_agrees h.sound hagree hn (fun _ => id) fun _ => id,
    h.stored.length_owners, h.stored.frames.of_agrees hagree hn, fun k captured' hk => ?_,
    fun i suspended hi => ?_⟩
  · rw [Array.getElem?_push] at hk
    split at hk
    · rename_i hkn
      obtain rfl := Option.some.inj hk
      obtain rfl : k = ⟨store.continuations.size⟩ := by cases k; simp_all
      exact hres.of_agrees h.sound hagree hn (fun _ => id) fun ha => by rwa [hcont]
    · have hlt := (Array.getElem?_eq_some_iff.mp hk).1
      exact (h.stored.continuations k captured' hk).of_agrees h.sound hagree hn (fun _ => id)
        fun hk' => by rwa [hagree.cont k hlt]
  · obtain ⟨d, hd, hsusp⟩ := h.stored.suspensions i suspended hi
    exact ⟨d, hd, hsusp.of_agrees h.sound hagree hn (fun _ => id) id⟩

/-- Pinning a frame in use keeps the store and the stack in order. -/
theorem pin (hframe : store.frames.InUse frame) :
    Standing c l owners may w (store.pin frame) stack above ∧
      ∀ x, (store.pin frame).frames.Pinned x ↔ x = frame ∨ store.frames.Pinned x := by
  have hpin (x : FrameId) : (store.frames.pin frame).Pinned x ↔ x = frame ∨ store.frames.Pinned x :=
    Frames.pinned_pin h.sound hframe.1
  exact ⟨h.with_frames (h.stored.frames.pin hframe) (fun x hx => (hpin x).mpr (.inr hx))
    fun x => (Frames.inUse_pin h.sound frame).mpr, hpin⟩

variable (hframe : Usable store.frames stack frame)
include hframe

/-- Evaluating the statements of a block, and then its tail. -/
theorem block {stmts : List Stmt} {tail : Option Expr}
    (hcode : ∀ e ∈ (Form.block stmts tail).children, w.IsCode frame e)
    (hbinders : ∀ t ∈ (Form.block stmts tail).binders, t ∉ (w.fn frame).continuations)
    (ha : ∀ e ∈ (Form.block stmts tail).children, e.performs c l → above)
    (hr : w.reach frame → above) :
    (Setting.block frame tail stack store stmts).Valid c l owners may := by
  -- a statement that evaluates something waits for it in the frame of the block
  have first (target : Option LocalId) {e : Expr} {rest : List Stmt}
      (hsub : (Form.block stmts tail).children = e :: (Form.block rest tail).children)
      (hbind : ∀ t ∈ target.toList ++ (Form.block rest tail).binders,
      t ∉ (w.fn frame).continuations) :
      (Step.of (.eval e frame) (.stmt target rest tail frame :: stack) store).Valid c l
        owners may := by
    rw [hsub] at hcode ha
    exact h.eval_under rfl ⟨rfl, rfl, rfl, rfl⟩ hframe (hcode e mem_cons_self)
      (fun e he => hcode e (mem_cons_of_mem _ he)) hbind ha hr
  match stmts with
  | [] =>
    cases tail with
    | none => exact h.value (.inl rfl)
    | some e =>
      have he : e ∈ (Form.block [] (some e)).children := by simp [Form.children]
      exact h.eval hframe (hcode e he) (Or.elim · (ha e he) hr)
  | .bind target (some e) :: rest =>
    exact first (some target) rfl (by simpa [Form.binders] using hbinders)
  | .expr e :: rest => exact first none rfl (by simpa [Form.binders] using hbinders)
  | .bind target none :: rest =>
    have hrest : ∀ t ∈ (Form.block rest tail).binders, t ∉ (w.fn frame).continuations :=
      fun t ht => hbinders t (mem_cons_of_mem _ ht)
    have hcode' : ∀ e ∈ (Form.block rest tail).children, w.IsCode frame e := hcode
    change (Setting.block frame tail stack store rest).Valid c l owners may
    exact block hcode' hrest ha hr

/-- Starting a round of a loop. -/
theorem round (cond : Option Expr) (body : Expr)
    (hcode : ∀ e ∈ cond.toList ++ [body], w.IsCode frame e)
    (ha : ∀ e ∈ cond.toList ++ [body], e.performs c l → above) (hr : w.reach frame → above) :
    (Setting.round cond body frame stack store).Valid c l owners may := by
  cases cond with
  | some cond =>
    exact h.eval_under rfl ⟨rfl, rfl, rfl, rfl⟩ hframe (hcode cond mem_cons_self) hcode
      (by simp [Pending.binders]) (forall_mem_cons.mpr ⟨ha cond mem_cons_self, ha⟩) hr
  | none =>
    exact h.eval_under rfl ⟨rfl, rfl, rfl, rfl⟩ hframe (hcode body mem_cons_self) hcode
      (by simp [Pending.binders]) (forall_mem_cons.mpr ⟨ha body mem_cons_self, ha⟩) hr

/-- A local of the frame is bound to data. -/
theorem define {t : LocalId} (ht : t ∉ (w.fn frame).continuations) (hv : c.program.Admits v) :
    Standing c l owners may w (store.define frame t v) stack above ∧
      Usable (store.define frame t v).frames stack frame :=
  ⟨h.with_frames (h.stored.frames.define (h.inUse hframe) (by rwa [World.Holds, if_neg ht]))
      (fun _ => (Frames.pinned_define frame t v).mpr) fun _ => (Frames.inUse_define frame t v).mpr,
    hframe.mono fun _ => (Frames.pinned_define frame t v).mpr⟩

/-- Evaluating the first arm that accepts a value. -/
theorem select (hv : c.program.Admits v) {arms : List Arm}
    (hcode : ∀ e ∈ arms.map Arm.body, w.IsCode frame e)
    (hbinders : ∀ t ∈ (Pending.select arms frame).binders, t ∉ (w.fn frame).continuations)
    (ha : ∀ e ∈ arms.map Arm.body, e.performs c l → above) (hr : w.reach frame → above) :
    (Setting.select v frame stack store arms).Valid c l owners may := by
  induction arms with
  | nil => exact ⟨w, h.stored⟩
  | cons arm arms ih =>
    obtain ⟨pattern, body⟩ := arm
    rw [map_cons, forall_mem_cons] at hcode ha
    have hbody : body.performs c l ∨ w.reach frame → above := (Or.elim · ha.1 hr)
    cases pattern with
    | wildcard => exact h.eval hframe hcode.1 hbody
    | binding target =>
      obtain ⟨hdefined, husable⟩ :=
        h.define hframe (hbinders target (by simp [Pending.binders, Form.binders, Arm.pattern])) hv
      exact hdefined.eval husable hcode.1 hbody
    | literal lit =>
      rw [Setting.select]
      split
      · exact h.eval hframe hcode.1 hbody
      · refine ih hcode.2 (fun t ht => hbinders t ?_) ha.2
        simpa [Pending.binders, Form.binders, Arm.pattern] using ht

end Standing

/-- The clause of a guard that answers an operation starts with the rest of the computation as its
continuation. -/
theorem Standing.answer {l : String} {owners : List DefId} {may : Prop} {w : World}
    {stack : List Pending}
    (recycle : Bool)
    (h : Standing c l owners may w store stack
      (w.passes c l (.guard handle clauses frame)
        (w.flow c l rest.reverse (c.program.opLabel op = l))))
    (hbounds : w.Bounds c l may (rest.reverse ++ .guard handle clauses frame :: stack)
      (c.program.opLabel op = l))
    (hfit : (Pending.guard handle clauses frame).Fits c.program w store.continuations.size)
    (hpinned : store.frames.Pinned frame) (hargs : ∀ v ∈ args, c.program.Admits v)
    (hfits : ∀ q ∈ rest, q.Fits c.program w store.continuations.size)
    (hnamed : c.program.callsByName = true → ∀ q ∈ rest, q.isCallee = false)
    (hrest : Detached store.frames rest)
    {cl : Clause} (hcl : cl ∈ clauses) (kind : ResumeKind) {x : FrameId} {store' : Store}
    (hpush : Store.push
      { store with continuations := store.continuations.push { handle, clauses, frame, rest, kind }
        }
      recycle (some frame) (cl.head.continuation :: cl.head.params)
      (.callable (.continuation ⟨store.continuations.size⟩) :: args) = (x, store')) :
    (Step.of (.eval cl.body x) (.clause handle kind (some x) :: stack) store').Valid c l
      owners may := by
  have hfn : w.fn frame ∈ c.program.functions :=
    h.stored.frames.fn_mem frame (hpinned.inUse h.sound)
  obtain ⟨y, hy, -, body, finalizer, hform⟩ := hfit.handler handle clauses frame rfl
  -- the world learns of the continuation
  have hres : Resumable c l w store.continuations.size store.frames
      (.guard handle clauses frame :: rest)
      (w.flow c l (.guard handle clauses frame :: rest).reverse False) := by
    refine ⟨forall_mem_cons.mpr ⟨⟨rfl, ?_⟩, hrest⟩, forall_mem_cons.mpr ⟨hfit, hfits⟩,
      fun hn => forall_mem_cons.mpr ⟨rfl, hnamed hn⟩, ?_⟩
    · exact forall_of_eq_some rfl hpinned
    · rw [← singleton_append, ← append_assoc, ← reverse_cons] at hbounds
      exact (World.bounds_append_iff.mp (hbounds.mono False.elim)).1
  obtain ⟨w₁, hfn₁, hreach₁, hcont₁, h₁⟩ := h.capture { handle, clauses, frame, rest, kind } hres
  rw [reverse_cons, World.flow_append] at hcont₁
  -- the world learns of the frame, which reaches the continuation
  have hvs : ∀ tv ∈ (cl.head.continuation :: cl.head.params).zip
      (Value.callable (.continuation ⟨store.continuations.size⟩) :: args),
      if tv.1 ∈ (w.fn frame).continuations then
        ∃ k, tv.2 = .callable (.continuation k) ∧
          k.index < (store.continuations.push { handle, clauses, frame, rest, kind }).size ∧
          (w₁.cont k → w.reach frame ∨ w₁.cont ⟨store.continuations.size⟩)
      else c.program.Admits tv.2 := by
    rw [zip_cons_cons, forall_mem_cons]
    refine ⟨?_, fun tv htv => ?_⟩
    · rw [if_pos (FnDecl.mem_continuations hy hform hcl)]
      exact ⟨_, rfl, by simp, .inr⟩
    · obtain ⟨ht, hv⟩ := of_mem_zip htv
      rw [if_neg (hfit.binders frame rfl tv.1 (mem_flatMap.mpr ⟨cl, hcl, ht⟩))]
      exact hargs _ hv
  obtain ⟨w₂, hfn₂, hreach₂, hclause⟩ :=
    h₁.enter recycle hfn (w.reach frame ∨ w₁.cont ⟨store.continuations.size⟩)
      (forall_of_eq_some rfl ⟨hpinned, by rw [hfn₁], by rw [hreach₁]; exact .inl⟩)
      (by simp) hvs hpush
      (q := .clause handle kind (some x)) ⟨rfl, rfl, rfl⟩ rfl
  have hbody : cl.body ∈ (Pending.guard handle clauses frame).code := mem_map_of_mem hcl
  refine hclause.eval (.inr rfl) ?_ ?_
  · rw [World.IsCode, hfn₂]
    exact hfit.code frame rfl _ hbody
  · rw [hreach₂, hcont₁]
    rintro (hp | hr | hc)
    · exact .inr (.inl ⟨cl.body, hbody, hp⟩)
    · exact .inr (.inr (.inl ⟨frame, rfl, hr⟩))
    · exact World.passes_mono (World.flow_mono False.elim) hc

/-- A program whose analysis is in order and that the interpreter runs with that analysis. -/
structure Setting.Analyzed (s : Setting) (c : InferenceContext) : Prop where
  program : s.program = c.program
  analysis : s.analysis = c.program.analyze c.exhaustive
  context : c = c.program.finalContext c.exhaustive
  noErrors : (c.program.analyze c.exhaustive).hasErrors = false
  functions : c.program.DistinctFunctions
  nodes : c.program.DistinctNodes
  labels : c.program.DistinctLabels
  firstOrder : c.program.isFirstOrder = true

/-- The same, where labels may be shared by overloads that handlers answer together. -/
structure Setting.Covered (s : Setting) (c : InferenceContext) : Prop where
  program : s.program = c.program
  analysis : s.analysis = c.program.analyze c.exhaustive
  context : c = c.program.finalContext c.exhaustive
  noErrors : (c.program.analyze c.exhaustive).hasErrors = false
  functions : c.program.DistinctFunctions
  nodes : c.program.DistinctNodes
  overloads : c.program.CoversOverloads
  firstOrder : c.program.isFirstOrder = true

theorem Setting.Analyzed.covered (hs : s.Analyzed c) : s.Covered c :=
  ⟨hs.program, hs.analysis, hs.context, hs.noErrors, hs.functions, hs.nodes,
    hs.labels.coversOverloads, hs.firstOrder⟩

section Steps

variable (hs : s.Covered c) {l : String} {owners : List DefId} {may : Prop} {w : World}
  {stack : List Pending} {above : Prop}
include hs

theorem Setting.Covered.isFirstOrder_fn (hf : f ∈ c.program.functions) : f.isFirstOrder = true := by
  have := hs.firstOrder
  rw [Program.isFirstOrder, all_eq_true] at this
  exact this f hf

theorem Setting.Covered.rowHas_of_performs (hf : f ∈ c.program.functions)
    (h : f.body.performs c l) :
    c.rowHas l f.id := by
  rw [hs.context] at h ⊢
  exact Program.labels_functionRow_of_performs hs.functions hf h

/-- A call adds no more to a ground stack than the row of the function has. -/
theorem Standing.callFn (h : Standing c l owners may w store stack above) {target : DefId}
    (hargs : ∀ v ∈ args, c.program.Admits v) (ha : c.rowHas l target → above) :
    (s.callFn target args stack store).Valid c l owners may := by
  rw [Setting.callFn, hs.program]
  split
  · exact ⟨w, h.stored⟩
  rename_i f hf
  have hmem : f ∈ c.program.functions := mem_of_find?_eq_some hf
  have hid : f.id = target := by simpa using find?_some hf
  split
  · exact ⟨w, h.stored⟩
  generalize hpush : store.push s.recycle none f.params args = pushed
  obtain ⟨x, store'⟩ := pushed
  have hvs : ∀ tv ∈ f.params.zip args,
      if tv.1 ∈ f.continuations then
        ∃ k, tv.2 = .callable (.continuation k) ∧ k.index < store.continuations.size ∧
          (w.cont k → False)
      else c.program.Admits tv.2 := by
    intro tv htv
    obtain ⟨ht, hv⟩ := of_mem_zip htv
    rw [if_neg (FnDecl.not_mem_continuations_of_mem_params (hs.isFirstOrder_fn hmem) ht)]
    exact hargs _ hv
  obtain ⟨w', hfn, hreach, hcall⟩ :=
    h.enter s.recycle hmem False (by simp) (fun _ => id) hvs hpush (q := .call (some x))
      ⟨rfl, rfl, rfl⟩ rfl
  refine hcall.eval (.inr rfl) ?_ ?_
  · rw [World.IsCode, hfn]
    exact ⟨f.body.self_mem_walk, FnDecl.isName_body (hs.isFirstOrder_fn hmem)⟩
  · rw [hreach, or_false]
    intro hp
    exact ha (hid ▸ hs.rowHas_of_performs hmem hp)

/-- Calling a value adds no more to a ground stack than is known of the value. -/
theorem Standing.apply (h : Standing c l owners may w store stack above) {callee : Value}
    (hcallee : callee.isFirstOrder = true ∨ callee.IsNamed store.continuations.size)
    (hargs : ∀ v ∈ args, c.program.Admits v) (ha : w.calling c l callee → above) :
    (s.apply callee args stack store).Valid c l owners may := by
  cases callee with
  | callable target =>
    cases target with
    | fn target => exact h.callFn hs hargs ha
    | continuation k =>
      refine h.resumeContinuation ?_ ha
      cases args with
      | nil => exact .inl rfl
      | cons v args => exact hargs v mem_cons_self
    | intrinsic which => exact h.result fun v => isFirstOrder_of_intrinsic
    | lambda | op => simp [Value.isFirstOrder, Value.IsNamed] at hcallee
  | _ => exact ⟨w, h.stored⟩

/-- Evaluating operands and using them. -/
theorem Standing.operands (h : Standing c l owners may w store stack above) {done : List Value}
    {rest : List Expr} {use : OperandUse} (hdone : ∀ v ∈ done, c.program.Admits v)
    (hrest : ∀ e ∈ rest, w.IsCode frame e) (huse : use.Fits c.program store.continuations.size)
    (hframe : Usable store.frames stack frame) (ha : ∀ e ∈ rest, e.performs c l → above)
    (hr : w.reach frame → above) (ho : w.operating c l use → above) :
    (s.operands done rest frame use stack store).Valid c l owners may := by
  cases rest with
  | cons e rest =>
    rw [forall_mem_cons] at ha hrest
    have hpush : Standing c l owners may w store (.operands done rest frame use :: stack)
        (e.performs c l ∨ w.reach frame) := by
      refine h.push (q := .operands done rest frame use) ⟨forall_of_eq_some rfl hrest.2,
        by simp [Pending.binders], hdone, ?_, by simp⟩ (forall_of_eq_some rfl hframe)
        (by simp [Pending.owned?]) rfl (fun _ => trivial) ?_
      · rintro u hu
        obtain rfl : use = u := Option.some.inj hu
        exact huse
      · rintro (⟨hp | hr', -⟩ | ⟨e', he', hp⟩ | ⟨frame', hf, hr'⟩ | ⟨u, hu, ho'⟩)
        · exact ha.1 hp
        · exact hr hr'
        · exact ha.2 e' he' hp
        · obtain rfl : frame = frame' := Option.some.inj hf
          exact hr hr'
        · obtain rfl : use = u := Option.some.inj hu
          exact ho ho'
    exact hpush.eval (hframe.imp_right id) hrest.1 id
  | nil =>
    have hargs : ∀ v ∈ done.reverse, c.program.Admits v := fun v hv => hdone v (mem_reverse.mp hv)
    cases use with
    | apply callee => exact h.apply hs huse hargs ho
    | perform op =>
      exact ⟨w, h.stored, h.anchored, h.fits, h.named_tail,
        ⟨huse, hargs, by simp, by simpa using h.named, by simp, by simp⟩, h.flow.mono ho⟩
    | tuple =>
      refine h.value ?_
      by_cases hn : c.program.callsByName = true
      · exact .inr hn
      · refine .inl ?_
        rw [Value.isFirstOrder, Value.allFirstOrder_eq_all, all_eq_true]
        exact fun v hv => (hargs v hv).resolve_right hn

/-! ### Steps -/

/-- The parts of code that are evaluated for their values are code. -/
theorem Setting.Covered.isCode (hfn : w.fn frame ∈ c.program.functions)
    (he : e ∈ (w.fn frame).body.walk) (hx : x ∈ e.form.dataParts) : w.IsCode frame x :=
  ⟨Expr.mem_walk_of_mem_children_of_mem_walk he (e.form.dataParts_subset hx),
    FnDecl.isName_of_mem_dataParts (hs.isFirstOrder_fn hfn) he hx⟩

/-- Evaluating the body of a handler under its guard. -/
theorem Standing.guard (h : Standing c l owners may w store stack above)
    (hframe : Usable store.frames stack frame) (hfn : w.fn frame ∈ c.program.functions)
    {body : Expr} {finalizer : Option Expr} (hx : x ∈ (w.fn frame).body.walk)
    (hform : x.form = .handle body clauses finalizer)
    (ha : (body.performs c l ∧ l ∉ clauses.filterMap (·.head.label? c.program)) ∨
      (∃ cl ∈ clauses, cl.body.performs c l) ∨ w.reach frame → above) :
    (Step.of (.eval body frame) (.guard x.id clauses frame :: stack) store).Valid c l
      owners may := by
  have hcode (y : Expr) (hy : y ∈ (Form.handle body clauses finalizer).dataParts) :
      w.IsCode frame y :=
    hs.isCode hfn hx (by rwa [hform])
  have hbind (t : LocalId) (ht : t ∈ (Form.handle body clauses finalizer).binders) :
      t ∉ (w.fn frame).continuations :=
    FnDecl.not_mem_continuations_of_mem_binders (hs.isFirstOrder_fn hfn) hx (by rwa [hform])
  have hpush : Standing c l owners may w store (.guard x.id clauses frame :: stack)
      (body.performs c l ∨ w.reach frame) := by
    refine h.push (q := .guard x.id clauses frame) ⟨forall_of_eq_some rfl fun y hy => ?_,
      forall_of_eq_some rfl hbind, by simp [Pending.held], by simp [Pending.use?], ?_⟩
      (forall_of_eq_some rfl hframe) (by simp [Pending.owned?]) rfl ?_ ?_
    · exact hcode y (mem_cons_of_mem _ (mem_append_left _ hy))
    · rintro handle clauses' frame' heq
      obtain ⟨rfl, rfl, rfl⟩ := Pending.guard.inj heq
      exact ⟨x, hx, rfl, body, finalizer, hform⟩
    · rintro (hp | hr)
      · exact .inr ⟨x, hx, rfl, body, finalizer, hform, hp⟩
      · exact .inl hr
    · rintro (⟨hp | hr, hl⟩ | ⟨y, hy, hp⟩ | ⟨frame', hf, hr⟩ | ⟨u, hu, -⟩)
      · exact ha (.inl ⟨hp, hl⟩)
      · exact ha (.inr (.inr hr))
      · obtain ⟨cl, hcl, rfl⟩ := mem_map.mp hy
        exact ha (.inr (.inl ⟨cl, hcl, hp⟩))
      · obtain rfl : frame = frame' := Option.some.inj hf
        exact ha (.inr (.inr hr))
      · simp [Pending.use?] at hu
  exact hpush.eval (.inr rfl) (hcode body mem_cons_self) id

/-! ### Expressions -/

section Eval

variable (h : State.Valid c l owners may w ⟨.eval e frame, stack, store⟩)
include h

omit hs in
theorem State.Valid.usable : Usable store.frames stack frame := h.control.1

omit hs in
theorem State.Valid.mem_walk : e ∈ (w.fn frame).body.walk := h.control.2.1

omit hs in
theorem State.Valid.inUse : store.frames.InUse frame :=
  h.usable.inUse h.store.frames.sound h.anchored

omit hs in
theorem State.Valid.fn_mem : w.fn frame ∈ c.program.functions := h.store.frames.fn_mem frame h.inUse

omit hs in
/-- What is neither a name nor built in stands where data is expected. -/
theorem State.Valid.standing (hn : e.form.isName (w.fn frame).continuations = false)
    (hi : e.form.isIntrinsic = false) :
    Standing c l owners may w store stack (e.performs c l ∨ w.reach frame) := by
  have hbounds : w.Bounds c l may stack _ := h.flow
  refine ⟨⟨h.anchored, h.fits, fun hb q hq => ?_, hbounds.mono fun hp => hp.imp_right .inl⟩,
    h.store⟩
  cases stack with
  | nil => simp at hq
  | cons q' stack =>
    obtain rfl | hq := mem_cons.mp hq
    · by_contra hc
      have hat : AtCallee (q :: stack) := ⟨q, rfl, by simpa using hc⟩
      simpa [hn, hi] using h.control.2.2.1 hat hb
    · exact h.named hb q hq

omit hs in
/-- The expression has a value, which may be called if a call waits for it. -/
theorem State.Valid.give (hv : AtCallee stack → v.isFirstOrder = true ∨
      v.IsNamed store.continuations.size)
    (hdata : ¬ AtCallee stack → c.program.Admits v)
    (hp : w.calling c l v → w.control c l stack (.eval e frame)) :
    (Step.of (.value v) stack store).Valid c l owners may :=
  have hbounds : w.Bounds c l may stack _ := h.flow
  ⟨w, h.store, h.anchored, h.fits, h.named, ⟨hv, hdata⟩, hbounds.mono fun hc => hp hc.2⟩

theorem State.Valid.isCode (hx : x ∈ e.form.dataParts) : w.IsCode frame x :=
  hs.isCode h.fn_mem h.mem_walk hx

theorem State.Valid.not_mem_continuations {t : LocalId} (ht : t ∈ e.form.binders) :
    t ∉ (w.fn frame).continuations :=
  FnDecl.not_mem_continuations_of_mem_binders (hs.isFirstOrder_fn h.fn_mem) h.mem_walk ht

/-- A part is evaluated under a construct that holds other parts, or none. -/
theorem State.Valid.eval_under
    (hform : e.form.isHandle = false ∧ e.form.isName (w.fn frame).continuations = false ∧
      e.form.isIntrinsic = false)
    (hq : q.frame? = some frame)
    (hplain : q.held = [] ∧ q.use? = none ∧ q.isCallee = false ∧ q.base? = none)
    (hparts : ∀ y ∈ x :: q.code, y ∈ e.form.dataParts)
    (hbinders : ∀ t ∈ q.binders, t ∈ e.form.binders) :
    (Step.of (.eval x frame) (q :: stack) store).Valid c l owners may := by
  obtain ⟨hhandle, hname, hintrinsic⟩ := hform
  have hcode (y : Expr) (hy : y ∈ x :: q.code) : w.IsCode frame y := h.isCode hs (hparts y hy)
  refine (h.standing hname hintrinsic).eval_under hq hplain h.usable (hcode x mem_cons_self)
    (fun y hy => hcode y (mem_cons_of_mem _ hy))
    (fun t ht => h.not_mem_continuations hs (hbinders t ht)) (fun y hy hp => .inl ?_) .inr
  exact Expr.performs_of_mem_dataParts hhandle (hparts y hy) hp

/-- The only part is evaluated under a construct that holds nothing. -/
theorem State.Valid.eval_only
    (hform : e.form.isHandle = false ∧ e.form.isName (w.fn frame).continuations = false ∧
      e.form.isIntrinsic = false)
    (hq : q.frame? = none ∧ q.use? = none ∧ q.isCallee = false) (hbase : q.base? = none)
    (hheld : q.held = []) (hx : x ∈ e.form.dataParts) :
    (Step.of (.eval x frame) (q :: stack) store).Valid c l owners may := by
  obtain ⟨hhandle, hname, hintrinsic⟩ := hform
  have howned : q.owned? = none := by cases q <;> first | rfl | simp [Pending.base?] at hbase
  refine ((h.standing hname hintrinsic).push_plain hq (by simp [howned]) (by simp [hheld])).eval
    (h.usable.imp_right fun hb => by rw [base?, hbase]; exact hb) (h.isCode hs hx) ?_
  exact Or.imp_left (Expr.performs_of_mem_dataParts hhandle hx)

omit hs in
/-- A local has its value from a frame of the same function; a continuation is found under its name
only. -/
theorem State.Valid.eval_var {source : LocalId} (hform : e.form = .var source)
    (hread : store.frames.read? frame source = some v) :
    (Step.of (.value v) stack store).Valid c l owners may := by
  obtain ⟨⟨y, v'⟩, howner, rfl⟩ := Option.map_eq_some_iff.mp hread
  obtain ⟨hy, hfny, hreach, hholds⟩ := h.store.frames.owner? h.inUse howner
  rw [World.Holds, hfny] at hholds
  split at hholds
  · rename_i hk
    obtain ⟨k, rfl, hlt, hcont⟩ := hholds
    refine h.give (fun _ => .inr hlt) (fun hat => ?_) fun hc => .inr (.inl (hreach (hcont hc)))
    simpa [hform, Form.isName, hk] using h.control.2.2.2 hat
  · rename_i hk
    exact (h.standing (by simpa [hform, Form.isName] using hk) (by rw [hform]; rfl)).value hholds

/-- The callee of a call is evaluated where it may be a name. -/
theorem State.Valid.eval_callee {callee : Expr} {args : List Expr}
    (hform : e.form = .call callee args) :
    (Step.of (.eval callee frame) (.callee args frame :: stack) store).Valid c l owners may := by
  have hhandle : e.form.isHandle = false := by rw [hform]; rfl
  have hground := h.standing (by rw [hform]; rfl) (by rw [hform]; rfl)
  have hmem : callee ∈ (w.fn frame).body.walk :=
    Expr.mem_walk_of_mem_children_of_mem_walk h.mem_walk (by rw [hform]; exact mem_cons_self)
  have hat : AtCallee (.callee args frame :: stack) := ⟨_, rfl, rfl⟩
  have hparts (y : Expr) (hy : y ∈ args) : y ∈ e.form.dataParts := by rw [hform]; exact hy
  refine ⟨w, h.store, ⟨forall_of_eq_some rfl h.usable, by simp [Pending.owned?], h.anchored⟩,
    forall_mem_cons.mpr ⟨?_, h.fits⟩, hground.named,
    ⟨h.usable.imp_right id, hmem, fun _ hb => ?_, fun hn => absurd hat hn⟩, fun _ => trivial,
    hground.flow.mono ?_⟩
  · exact ⟨forall_of_eq_some rfl fun y hy => h.isCode hs (hparts y hy), by simp [Pending.binders],
      by simp [Pending.held], by simp [Pending.use?], by simp⟩
  · exact FnDecl.isName_or_isIntrinsic_of_call (all_eq_true.mp hb _ h.fn_mem) h.mem_walk hform
  · rintro (⟨hp | hr | ⟨d, hd, hrow⟩, -⟩ | ⟨y, hy, hp⟩ | ⟨frame', hf, hr⟩ | ⟨u, hu, -⟩)
    · exact .inl ((Expr.performs_iff hhandle).mpr
        (.inl ⟨callee, by rw [hform]; exact mem_cons_self, hp⟩))
    · exact .inr hr
    · exact .inl ((Expr.performs_iff hhandle).mpr (.inr (by rw [hform]; exact ⟨d, hd, hrow⟩)))
    · exact .inl (Expr.performs_of_mem_dataParts hhandle (hparts y hy) hp)
    · obtain rfl : frame = frame' := Option.some.inj hf
      exact .inr hr
    · simp [Pending.use?] at hu

/-- The body of a handler is evaluated under its guard, and that above the finalizer. -/
theorem State.Valid.eval_handle {body : Expr} {finalizer : Option Expr}
    (hform : e.form = .handle body clauses finalizer) :
    (Step.of (.eval body frame)
      (.guard e.id clauses frame :: ((finalizer.map (.finalizer · frame)).toList ++ stack))
      store).Valid c l owners may := by
  have hground := h.standing (by rw [hform]; rfl) (by rw [hform]; rfl)
  have hrow (hp : (body.performs c l ∧ l ∉ clauses.filterMap (·.head.label? c.program)) ∨
      (∃ cl ∈ clauses, cl.body.performs c l) ∨ w.reach frame) : e.performs c l ∨ w.reach frame := by
    obtain hp | hp | hr := hp
    · exact .inl ((Expr.performs_iff_of_handle hform).mpr (.inl hp))
    · exact .inl ((Expr.performs_iff_of_handle hform).mpr (.inr (.inl hp)))
    · exact .inr hr
  cases finalizer with
  | none => exact hground.guard hs h.usable h.fn_mem h.mem_walk hform hrow
  | some f =>
    obtain ⟨hpush, husable⟩ := hground.push_code (q := .finalizer f frame)
      rfl ⟨rfl, rfl, rfl, rfl⟩ h.usable
        (forall_mem_singleton.mpr (h.isCode hs (by simp [hform, Form.dataParts, Form.children])))
      (by simp [Pending.binders])
      ((body.performs c l ∧ l ∉ clauses.filterMap (·.head.label? c.program)) ∨
        (∃ cl ∈ clauses, cl.body.performs c l) ∨ w.reach frame) (by
      rintro (hp | ⟨x, hx, hp⟩ | hr)
      · exact hrow hp
      · obtain rfl := mem_singleton.mp hx
        exact .inl ((Expr.performs_iff_of_handle hform).mpr (.inr (.inr ⟨x, rfl, hp⟩)))
      · exact .inr hr)
    exact hpush.guard hs husable h.fn_mem h.mem_walk hform id

/-- The step of an expression. -/
theorem Setting.eval_valid : (s.eval e frame stack store).Valid c l owners may := by
  have hcode (x : Expr) : x ∈ e.form.dataParts → w.IsCode frame x := h.isCode hs
  have hpart (hh : e.form.isHandle = false) (x : Expr) (hx : x ∈ e.form.dataParts)
      (hp : x.performs c l) :
      e.performs c l ∨ w.reach frame := .inl (Expr.performs_of_mem_dataParts hh hx hp)
  cases e with | node n form ty span =>
  cases form with
  | literal lit => exact (h.standing rfl rfl).value (.inl (Value.isFirstOrder_ofLiteral ty lit))
  | var source =>
    rw [Setting.eval]
    simp only [Expr.form]
    split
    · rename_i v hread
      exact h.eval_var rfl hread
    · exact ⟨w, h.store⟩
  | fn target =>
    refine h.give (fun _ => .inr trivial) (fun hat => ?_) fun hc => .inr (.inr ⟨target, rfl, hc⟩)
    -- only the callee of a call names a function
    exact Bool.noConfusion (h.control.2.2.2 hat)
  | intrinsic which => exact h.give (fun _ => .inl rfl) (fun _ => .inl rfl) False.elim
  | op | closure =>
    exact Bool.noConfusion (FnDecl.isHigherOrder_node (hs.isFirstOrder_fn h.fn_mem) h.mem_walk)
  | binary | branch =>
    exact h.eval_under hs ⟨rfl, rfl, rfl⟩ rfl ⟨rfl, rfl, rfl, rfl⟩ (fun _ => id)
      (by simp [Pending.binders])
  | assign | select =>
    exact h.eval_under hs ⟨rfl, rfl, rfl⟩ rfl ⟨rfl, rfl, rfl, rfl⟩ (fun _ => id) fun _ => id
  | unary | field => exact h.eval_only hs ⟨rfl, rfl, rfl⟩ ⟨rfl, rfl, rfl⟩ rfl rfl mem_cons_self
  | call callee args => exact h.eval_callee hs rfl
  | perform operation args typeArgs =>
    have hop : (c.program.op? operation).isSome :=
      Program.isSome_op?_of_perform hs.noErrors (Program.mem_nodes h.fn_mem h.mem_walk) rfl
    exact (h.standing rfl rfl).operands hs (by simp) hcode hop h.usable (hpart rfl) .inr
      fun ho => .inl ((Expr.performs_iff rfl).mpr (.inr ⟨hop, ho⟩))
  | tuple items =>
    exact (h.standing rfl rfl).operands hs (by simp) hcode trivial h.usable (hpart rfl)
      .inr False.elim
  | block stmts tail =>
    exact (h.standing rfl rfl).block h.usable hcode (fun _ => h.not_mem_continuations hs)
      (hpart rfl) .inr
  | loop body => exact (h.standing rfl rfl).round h.usable none body hcode (hpart rfl) .inr
  | whileLoop cond body =>
    exact (h.standing rfl rfl).round h.usable (some cond) body hcode (hpart rfl) .inr
  | breakLoop | continueLoop => exact (h.standing rfl rfl).exit (by simp [Exit.value?])
  | ret value =>
    cases value with
    | none => exact (h.standing rfl rfl).exit (by simpa [Exit.value?] using .inl rfl)
    | some x => exact h.eval_only hs ⟨rfl, rfl, rfl⟩ ⟨rfl, rfl, rfl⟩ rfl rfl mem_cons_self
  | handle body clauses finalizer =>
    have hstep := h.eval_handle hs rfl
    cases finalizer <;> exact hstep

end Eval

/-! ### Values, exits and requests -/

section Below

omit hs

/-- What stands below the construct that gets a value or an exit. -/
theorem State.Valid.below {control : Control} (hrest : control.rest = [])
    (h : State.Valid c l owners may w ⟨control, q :: stack, store⟩) :
    Standing c l owners may w store stack
      (w.passes c l q (w.control c l (q :: stack) control)) := by
  have hbounds := h.flow
  rw [hrest] at hbounds
  exact ⟨⟨h.anchored.2.2, fun q' hq => h.fits q' (mem_cons_of_mem _ hq), h.named, hbounds.2⟩,
    h.store⟩

theorem State.Valid.fit {control : Control}
    (h : State.Valid c l owners may w ⟨control, q :: stack, store⟩) :
    q.Fits c.program w store.continuations.size := h.fits q mem_cons_self

variable (h : State.Valid c l owners may w ⟨.value v, q :: stack, store⟩)
include h

/-- What a construct gets is data, if it is not the callee of a call. -/
theorem State.Valid.data (hq : q.isCallee = false) : c.program.Admits v := by
  refine h.control.2 ?_
  rintro ⟨q', hq', hc⟩
  obtain rfl := Option.some.inj hq'
  rw [hq] at hc
  exact Bool.noConfusion hc

/-- Code of the construct, in its frame. -/
theorem State.Valid.eval_code (hf : q.frame? = some frame) (he : e ∈ q.code) :
    (Step.of (.eval e frame) stack store).Valid c l owners may :=
  (h.below rfl).eval (h.anchored.1 frame hf) (h.fit.code frame hf e he)
    (Or.elim · (w.passes_of_code he) (w.passes_of_reach hf))

/-- Code of the construct, above another one that keeps the value. -/
theorem State.Valid.eval_keeping {q' : Pending} (hq : q.isCallee = false)
    (hplain : q'.frame? = none ∧ q'.use? = none ∧ q'.isCallee = false)
    (hkeeps : q'.held = [v] ∧ q'.base? = none) (hf : q.frame? = some frame) (he : e ∈ q.code) :
    (Step.of (.eval e frame) (q' :: stack) store).Valid c l owners may := by
  obtain ⟨hheld, hbase⟩ := hkeeps
  have howned : q'.owned? = none := by cases q' <;> first | rfl | simp [Pending.base?] at hbase
  refine ((h.below rfl).push_plain hplain (by simp [howned]) ?_).eval ?_ (h.fit.code frame hf e he)
    (Or.elim · (w.passes_of_code he) (w.passes_of_reach hf))
  · rw [hheld]
    exact forall_mem_singleton.mpr (h.data hq)
  · exact (h.anchored.1 frame hf).imp_right fun hb => by rw [base?, hbase]; exact hb

end Below

/-- The step that gives a value to a construct. -/
theorem Setting.give_valid (h : State.Valid c l owners may w ⟨.value v, q :: stack, store⟩) :
    (s.give v stack store q).Valid c l owners may := by
  have hground := h.below rfl
  have hframe (frame : FrameId) (hf : q.frame? = some frame) : Usable store.frames stack frame :=
    h.anchored.1 frame hf
  have hcode {frame : FrameId} (hf : q.frame? = some frame) (e : Expr) (he : e ∈ q.code) :
      w.IsCode frame e :=
    h.fit.code frame hf e he
  -- the row of the stack counts the code that `q` still has to run
  have hperf : ∀ e ∈ q.code, e.performs c l → w.passes c l q
      (w.control c l (q :: stack) (.value v)) :=
    fun _ => w.passes_of_code
  cases q with
  | binaryLeft op rhs frame => exact h.eval_keeping rfl ⟨rfl, rfl, rfl⟩ ⟨rfl, rfl⟩ rfl mem_cons_self
  | binaryRight op lhs => exact hground.result fun _ => isFirstOrder_of_binary
  | unary op => exact hground.result fun _ => isFirstOrder_of_unary
  | callee args frame =>
    have hat : AtCallee (.callee args frame :: stack) := ⟨_, rfl, rfl⟩
    exact hground.operands hs (by simp) (hcode rfl) (h.control.1 hat) (hframe frame rfl)
      hperf (w.passes_of_reach rfl) fun ho => .inl ⟨⟨hat, ho⟩, id⟩
  | operands done rest frame use =>
    exact hground.operands hs (forall_mem_cons.mpr ⟨h.data rfl, h.fit.held⟩) (hcode rfl)
      (h.fit.use use rfl) (hframe frame rfl) hperf (w.passes_of_reach rfl)
      fun ho => .inr (.inr (.inr ⟨use, rfl, ho⟩))
  | stmt target rest tail frame =>
    have hbind := h.fit.binders frame rfl
    have hrest : ∀ t ∈ (Form.block rest tail).binders, t ∉ (w.fn frame).continuations :=
      fun t ht => hbind t (mem_append_right _ ht)
    cases target with
    | none =>
      exact hground.block (hframe frame rfl) (hcode rfl) hrest hperf (w.passes_of_reach rfl)
    | some t =>
      obtain ⟨hdefined, husable⟩ := hground.define (hframe frame rfl) (hbind t mem_cons_self)
        (h.data rfl)
      exact hdefined.block husable (hcode rfl) hrest hperf (w.passes_of_reach rfl)
  | assign target frame =>
    have ht : target ∉ (w.fn frame).continuations := h.fit.binders frame rfl target mem_cons_self
    exact (hground.with_frames (h.store.frames.assign (hground.inUse (hframe frame rfl)) ht
      (h.data rfl)) (fun _ => (Frames.pinned_define _ target v).mpr)
      fun _ => (Frames.inUse_define _ target v).mpr).value (.inl rfl)
  | branch onTrue onFalse frame =>
    unfold Setting.give
    dsimp only
    split
    · exact h.eval_code rfl mem_cons_self
    · cases onFalse with
      | some e => exact h.eval_code rfl (by simp [Pending.code])
      | none => exact hground.value (.inl rfl)
    · exact ⟨w, h.store⟩
  | select arms frame =>
    exact hground.select (hframe frame rfl) (h.data rfl) (hcode rfl) (h.fit.binders frame rfl)
      hperf (w.passes_of_reach rfl)
  | loopCond cond body frame =>
    rw [Setting.give]
    split
    · have hbody : body ∈ (Pending.loopCond cond body frame).code := by simp [Pending.code]
      exact hground.eval_under (q := .loopBody (some cond) body frame) rfl ⟨rfl, rfl, rfl, rfl⟩
        (hframe frame rfl) (hcode rfl body hbody) (hcode rfl) (by simp [Pending.binders])
        (forall_mem_cons.mpr ⟨hperf body hbody, hperf⟩) (w.passes_of_reach rfl)
    · exact hground.value (.inl rfl)
    · exact ⟨w, h.store⟩
  | loopBody cond body frame =>
    exact hground.round (hframe frame rfl) cond body (hcode rfl) hperf (w.passes_of_reach rfl)
  | ret | transfer => exact hground.exit (by simpa [Exit.value?] using h.data rfl)
  | guard handle clauses frame => exact hground.value (h.data rfl)
  | finalizer e frame => exact h.eval_keeping rfl ⟨rfl, rfl, rfl⟩ ⟨rfl, rfl⟩ rfl mem_cons_self
  | finalized result => exact hground.value (h.fit.held result (by simp [Pending.held]))
  | field index =>
    cases v with
    | tuple items =>
      unfold Setting.give
      dsimp only
      split
      · rename_i item hitem
        refine hground.value ((h.data rfl).imp_left fun hfirst => ?_)
        rw [Value.isFirstOrder, Value.allFirstOrder_eq_all, all_eq_true] at hfirst
        exact hfirst item (mem_of_getElem? hitem)
      · exact ⟨w, h.store⟩
    | _ => exact ⟨w, h.store⟩
  | call owned => exact (hground.release h.anchored).value (h.data rfl)
  | clause handle kind owned => exact (hground.release h.anchored).endClause (h.data rfl)

omit hs in
/-- The step that takes an exit out of a construct. -/
theorem Setting.leave_valid {x : Exit}
    (h : State.Valid c l owners may w ⟨.exit x, q :: stack, store⟩) :
    (Setting.leave x stack store q).Valid c l owners may := by
  have hground := h.below rfl
  have hground' := hground.release h.anchored
  have hvalue : ∀ v ∈ x.value?, c.program.Admits v := h.control
  cases q with
  | loopBody cond body frame =>
    cases x with
    | continueLoop =>
      exact hground.round (h.anchored.1 frame rfl) cond body (h.fit.code frame rfl)
        (fun _ => w.passes_of_code (p := .loopBody cond body frame)) (w.passes_of_reach rfl)
    | breakLoop => exact hground.value (.inl rfl)
    | ret v | transfer handle v => exact hground.exit hvalue
  | call owned =>
    cases x with
    | ret v => exact hground'.value (hvalue v rfl)
    | transfer handle v => exact hground'.exit hvalue
    | breakLoop | continueLoop => exact ⟨w, hground'.stored⟩
  | clause handle kind owned =>
    cases x with
    | ret v => exact hground'.endClause (hvalue v rfl)
    | transfer target v =>
      rw [Setting.leave]
      split
      · exact hground'.value (hvalue v rfl)
      · exact hground'.exit hvalue
    | breakLoop | continueLoop => exact ⟨w, hground'.stored⟩
  | _ => exact hground.exit hvalue

/-- A guard that has no clause for a declared operation does not handle its label. -/
theorem Setting.Covered.not_handles (hop : (c.program.op? op).isSome)
    (hfn : w.fn frame ∈ c.program.functions)
    (hfit : (Pending.guard handle clauses frame).Fits c.program w n)
    (hnone : s.clauseFor? handle clauses op = none) :
    ¬ World.handles c (c.program.opLabel op) (.guard handle clauses frame) := by
  obtain ⟨x, hx, rfl, body, finalizer, hform⟩ := hfit.handler handle clauses frame rfl
  have hnode := Program.mem_nodes hfn hx
  intro hhandles
  -- some clause answers an operation with this label, and so another one answers this operation
  obtain ⟨cl₀, hcl₀, hlabel⟩ := mem_filterMap.mp hhandles
  obtain ⟨op₀, hop₀, hsame⟩ := Program.exists_answers_of_label? hs.noErrors hnode hform hcl₀ hlabel
  obtain ⟨cl, hcl, hanswers⟩ := hs.overloads x hnode cl₀ (by rwa [hform]) op₀ hop₀ op
    (Program.mem_operations.mpr hop) hsame.symm
  rw [hform] at hcl
  obtain ⟨i, hi, rfl⟩ := getElem_of_mem hcl
  have hget : clauses[i]? = some clauses[i] := getElem?_eq_getElem hi
  obtain ⟨plan, hplan, hplanOp⟩ := Program.clause?_of_answers hs.noErrors hnode hform hget hanswers
  rw [Setting.clauseFor?, hs.analysis, Program.handler?_analyze hs.nodes hnode hform] at hnone
  simp only [findSome?_eq_none_iff, Option.map_eq_none_iff] at hnone
  have := hnone (clauses[i], i) (mk_mem_zipIdx_iff_getElem?.mpr hget)
  rw [hplan] at this
  simp [Option.filter, hplanOp] at this

omit hs in
theorem Setting.mem_of_clauseFor? {cl : Clause} {kind : ResumeKind}
    (h : s.clauseFor? handle clauses op = some (cl, kind)) : cl ∈ clauses := by
  unfold Setting.clauseFor? at h
  split at h
  · obtain ⟨⟨cl', i⟩, hmem, hsome⟩ := exists_of_findSome?_eq_some h
    obtain ⟨_, -, heq⟩ := Option.map_eq_some_iff.mp hsome
    obtain ⟨rfl, -⟩ := Prod.mk.inj heq
    exact mem_of_getElem? (mk_mem_zipIdx_iff_getElem?.mp hmem)
  · obtain ⟨decl, -, hfind⟩ := Option.bind_eq_some_iff.mp h
    obtain ⟨cl', hcl', heq⟩ := Option.map_eq_some_iff.mp hfind
    obtain ⟨rfl, -⟩ := Prod.mk.inj heq
    exact mem_of_find?_eq_some hcl'

section Raise

variable (h : State.Valid c l owners may w ⟨.request op args rest, q :: stack, store⟩)
include h

omit hs in
/-- What stands below the construct that gets a request. -/
theorem State.Valid.below_request :
    w.Bounds c l may (rest.reverse ++ q :: stack) (c.program.opLabel op = l) ∧
      Standing c l owners may w store stack
        (w.passes c l q (w.flow c l rest.reverse (c.program.opLabel op = l))) :=
  ⟨h.flow, ⟨h.anchored.2.2, fun q' hq => h.fits q' (mem_cons_of_mem _ hq), h.named,
    (World.bounds_append_iff.mp h.flow).2.2⟩, h.store⟩

omit hs in
theorem State.Valid.isCallee_request (hn : c.program.callsByName = true) : q.isCallee = false :=
  h.control.2.2.2.1 hn q (mem_append_right _ mem_cons_self)

omit hs in
/-- The request fits the stack below, in frames where what the rest uses can be used there. -/
theorem State.Valid.fits_request {fs : Frames}
    (hdown : ∀ frame, Usable store.frames (q :: stack) frame → Usable fs stack frame) :
    (Control.request op args rest).Fits c w store.continuations.size fs stack := by
  obtain ⟨hop, hargs, hfits, hnamed, hrest, hnot⟩ := h.control
  refine ⟨hop, hargs, hfits, fun hn q' hq => hnamed hn q' ?_,
    fun q' hq => ⟨(hrest q' hq).1, fun frame hf => hdown frame ((hrest q' hq).2 frame hf)⟩, hnot⟩
  obtain hq | hq := mem_append.mp hq
  · exact mem_append_left _ hq
  · exact mem_append_right _ (mem_cons_of_mem _ hq)

omit hs in
/-- The request goes past a construct that owns no frame. -/
theorem State.Valid.pass (hbase : q.base? = none ∨ q.base? = some none) (howned : q.owned? = none)
    (hhandles : ¬ World.handles c (c.program.opLabel op) q) :
    (Step.of (.request op args (q :: rest)) stack store).Valid c l owners may := by
  obtain ⟨hflow, hground⟩ := h.below_request
  refine hground.pass hflow (h.fits_request fun frame hf => hf.imp_right fun hb => ?_) h.fit howned
    h.anchored.1 h.isCallee_request hhandles
  obtain hbase | hbase := hbase <;> rw [base?, hbase] at hb
  · exact hb
  · cases hb

omit hs in
/-- The request goes past a call or clause, which is replaced by one that does not own the frame;
the frame is pinned. -/
theorem State.Valid.pass_owner {x : FrameId} (q' : Pending) (hbase : q.base? = some (some x))
    (howned : q.owned? = some x) (hempty : q'.frame? = none ∧ q'.held = [] ∧ q'.use? = none)
    (hplain : q'.owned? = none ∧ q'.isCallee = false)
    (hhandles : ¬ World.handles c (c.program.opLabel op) q') (hadmits : w.admits c l q')
    (hpass : ∀ above, w.passes c l q' above → w.passes c l q above) :
    (Step.of (.request op args (q' :: rest)) stack (store.pin x)).Valid c l owners may := by
  obtain ⟨hflow, hground⟩ := h.below_request
  obtain ⟨hrestBounds, -, hbelow⟩ := World.bounds_append_iff.mp hflow
  obtain ⟨hpinned, hpin⟩ := hground.pin (h.anchored.2.1 x howned).1
  have hfit : q'.Fits c.program w store.continuations.size := by
    refine ⟨by simp [hempty], by simp [hempty], by simp [hempty], by simp [hempty], ?_⟩
    rintro handle clauses frame rfl
    cases hempty.1
  have hflow' : w.Bounds c l may (rest.reverse ++ q' :: stack) (c.program.opLabel op = l) :=
    World.bounds_append_iff.mpr ⟨hrestBounds, fun _ => hadmits, hbelow.mono (hpass _)⟩
  refine hpinned.pass hflow' (h.fits_request fun frame hf => .inl ((hpin frame).mpr ?_))
    hfit hplain.1 (by simp [hempty]) (fun _ => hplain.2) hhandles
  obtain hp | hb := hf
  · exact .inr hp
  · rw [base?, hbase] at hb
    exact .inl (Option.some.inj hb).symm

/-- The step that takes a request past a construct, or answers it there. -/
theorem Setting.raise_valid : (s.raise op args rest stack store q).Valid c l owners may := by
  cases q with
  | call owned =>
    cases owned with
    | none => exact h.pass (.inr rfl) rfl id
    | some x =>
      exact h.pass_owner (.call none) rfl rfl ⟨rfl, rfl, rfl⟩ ⟨rfl, rfl⟩ id trivial fun _ h => h
  | clause handle kind owned =>
    cases owned with
    | none => exact h.pass (.inr rfl) rfl id
    | some x =>
      exact h.pass_owner (.clause handle kind none) rfl rfl ⟨rfl, rfl, rfl⟩ ⟨rfl, rfl⟩ id trivial
        fun _ h => h
  | guard handle clauses frame =>
    obtain ⟨hflow, hground⟩ := h.below_request
    obtain ⟨hop, hargs, hrestFits, hrestNamed, hrest, -⟩ := h.control
    have hframe := h.anchored.1 frame rfl
    have hinUse := hground.inUse hframe
    rw [Setting.raise]
    split
    · -- no clause answers: the guard joins the rest of the computation
      rename_i hnone
      refine hground.pass hflow (h.fits_request fun frame' hf => ?_) h.fit rfl h.anchored.1
        h.isCallee_request
        (hs.not_handles hop (h.store.frames.fn_mem frame hinUse) h.fit hnone)
      obtain hpin | hb := hf
      · exact .inl hpin
      · exact Option.some.inj hb ▸ hframe
    · rename_i cl kind hclause
      obtain ⟨hpinned, hpin⟩ := hground.pin hinUse
      refine hpinned.answer s.recycle hflow h.fit ((hpin frame).mpr (.inl rfl)) hargs hrestFits
        (fun hn q hq => hrestNamed hn q (mem_append_left _ hq)) (fun q hq => ?_)
        (Setting.mem_of_clauseFor? hclause) kind rfl
      refine ⟨(hrest q hq).1, fun frame' hf => (hpin frame').mpr ?_⟩
      obtain hp | hb := (hrest q hq).2 frame' hf
      · exact .inr hp
      · exact .inl (Option.some.inj hb).symm
  | _ => exact h.pass (.inl rfl) rfl id

end Raise

/-- **Every step keeps the state valid.** -/
theorem Setting.step_valid {st : State} (h : st.Valid c l owners may w) :
    (s.step st).Valid c l owners may := by
  obtain ⟨control, stack, store⟩ := st
  cases control with
  | eval e frame => exact Setting.eval_valid hs h
  | value v =>
    cases stack with
    | nil => exact ⟨w, h.store, h.control, h.flow⟩
    | cons q stack => exact Setting.give_valid hs h
  | exit x =>
    cases stack with
    | nil => exact ⟨w, h.store, h.control, h.flow⟩
    | cons q stack => exact Setting.leave_valid h
  | request op args rest =>
    cases stack with
    | nil => exact ⟨w, h.store, h.control, by simpa using h.flow⟩
    | cons q stack => exact Setting.raise_valid hs h

/-! ### Calls and resumptions -/

/-- The requests, with the function to whose call they belong, that a result adds to those
before. -/
def requested (d : DefId) : Except EvalError Outcome → List (DefId × Request)
  | .ok (.request r) => [(d, r)]
  | _ => []

/-- What the host gets of a computation that belongs to a call of `d`: a request is in the row of
`d`, and so is whatever resuming it may lead to. -/
structure After.Reports (c : InferenceContext) (l : String) (owners : List DefId) (d : DefId)
    (after : After Outcome) : Prop where
  store : ∃ w, after.store.Fits c l w (owners ++ (requested d after.result).map (·.1))
  suspension : ∀ r, after.result = .ok (.request r) → r.suspension = ⟨owners.length⟩
  label : ∀ r, after.result = .ok (.request r) → r.label = c.program.opLabel r.op ∧
    (r.label = l → c.rowHas l d)

omit hs in
/-- A result without a request leaves the store to those before. -/
theorem Store.Fits.reports (hstore : store.Fits c l w owners) {result : Except EvalError Outcome}
    (hr : ∀ r, result ≠ .ok (.request r)) : After.Reports c l owners d ⟨result, store⟩ := by
  have hnone : requested d result = [] := by
    unfold requested
    split
    · rename_i r
      exact absurd rfl (hr r)
    · rfl
  refine ⟨⟨w, ?_⟩, fun r h => absurd h (hr r), fun r h => absurd h (hr r)⟩
  simpa [hnone] using hstore

theorem Setting.outcome_reports {control : Control}
    (h : (Step.done control store).Valid c l owners (c.rowHas l d)) :
    (s.outcome control store).Reports c l owners d := by
  obtain ⟨w, hstore, hcontrol, hflow⟩ := h
  cases control with
  | eval e frame => exact hstore.reports (by simp)
  | value v => exact hstore.reports (by simp)
  | exit x => cases x <;> exact hstore.reports (by simp)
  | request op args rest =>
    obtain ⟨hop, hargs, hfits, hnamed, hrest, hnot⟩ := hcontrol
    rw [Setting.outcome, hs.program]
    split
    · exact hstore.reports (by simp)
    · exact hstore.reports (by simp)
    have hres : Resumable c l w store.continuations.size store.frames rest (c.rowHas l d) := by
      refine ⟨fun q hq => ⟨(hrest q hq).1, fun frame hf => ?_⟩, hfits,
        fun hn q hq => hnamed hn q (mem_append_left _ hq), hflow.mono False.elim⟩
      obtain hpin | hbase := (hrest q hq).2 frame hf
      · exact hpin
      · cases hbase
    refine ⟨⟨w, ?_, hstore.frames, hstore.continuations, fun i suspended hi => ?_⟩, fun r hr => ?_,
      fun r hr => ?_⟩
    · simp [requested, hstore.length_owners]
    · rw [Array.getElem?_push] at hi
      split at hi
      · rename_i hin
        obtain rfl := Option.some.inj hi
        refine ⟨d, ?_, hres⟩
        rw [hin, ← hstore.length_owners]
        simp [requested]
      · obtain ⟨d', hd', hres'⟩ := hstore.suspensions i suspended hi
        exact ⟨d', by rw [getElem?_append_left (List.getElem?_eq_some_iff.mp hd').1, hd'], hres'⟩
    · obtain rfl : _ = r := by injection hr with hr; injection hr
      rw [hstore.length_owners]
    · obtain rfl : _ = r := by injection hr with hr; injection hr
      refine ⟨rfl, ?_⟩
      rintro rfl
      exact hflow.flow (World.flow_of_not_handles (fun q hq => hnot q (mem_reverse.mp hq)) rfl)

/-- A computation that starts with a valid step ends with a report, if it ends. -/
theorem Setting.settle_reports {fuel : Nat} {step : Step} {after : After Outcome}
    (h : step.Valid c l owners (c.rowHas l d)) (hafter : s.settle fuel step = some after) :
    after.Reports c l owners d := by
  induction fuel generalizing step with
  | zero => simp [Setting.settle] at hafter
  | succ fuel ih =>
    cases step with
    | next st =>
      obtain ⟨w, hst⟩ := h
      exact ih (Setting.step_valid hs hst) hafter
    | fail e store =>
      obtain ⟨w, hstore⟩ := h
      rw [Setting.settle, Option.some.injEq] at hafter
      · exact hafter ▸ hstore.reports (by simp)
      · simp
    | done control store =>
      rw [Setting.settle, Option.some.injEq] at hafter
      · exact hafter ▸ Setting.outcome_reports hs h
      · simp

omit hs in
theorem Standing.nil (hstore : store.Fits c l w owners) (hmay : above → may) :
    Standing c l owners may w store [] above :=
  ⟨⟨trivial, by simp, by simp, hmay⟩, hstore⟩

theorem Setting.startCall_valid (hstore : store.Fits c l w owners) {name : String}
    (hf : c.program.functionNamed? name = some f) (hargs : ∀ v ∈ args, c.program.Admits v) :
    (s.startCall store name args).Valid c l owners (c.rowHas l f.id) := by
  rw [Setting.startCall, hs.program, hf]
  exact (Standing.nil hstore id).callFn hs hargs id

omit hs in
theorem Setting.startResume_valid (hstore : store.Fits c l w owners) {id : SuspensionId}
    (hd : owners[id.index]? = some d) (hv : c.program.Admits v) :
    (Setting.startResume store id v).Valid c l owners (c.rowHas l d) := by
  rw [Setting.startResume]
  split
  · exact ⟨w, hstore⟩
  rename_i suspended hsuspended
  split
  · exact ⟨w, hstore⟩
  obtain ⟨d', hd', hres⟩ := hstore.suspensions id.index suspended hsuspended
  obtain rfl : d = d' := Option.some.inj (hd.symm.trans hd')
  have hstore' : Store.Fits c l w owners { store with
      suspensions := store.suspensions.setIfInBounds id.index
        { suspended with resumed := suspended.resumed + 1 } } := by
    refine ⟨?_, hstore.frames, hstore.continuations, fun i suspended' hi => ?_⟩
    · simpa using hstore.length_owners
    · simp only [Array.getElem?_setIfInBounds] at hi
      split at hi
      · rename_i hin
        split at hi
        · obtain rfl := Option.some.inj hi
          exact ⟨d, hin ▸ hd, hres⟩
        · cases hi
      · exact hstore.suspensions i suspended' hi
  have hground := (Standing.nil hstore' fun h : c.rowHas l d => h).resume hres fun h => h
  rw [← reverseAux_eq] at hground
  exact hground.value hv

end Steps

/-! ### Histories -/

/-- What a host can do with a program: call functions and resume suspended calls, in any order and
with any values that the program admits.  The log has the requests so far, each with the function to
whose call it belongs. -/
inductive History (s : Setting) : List (DefId × Request) → Store → Prop
  | start : History s [] {}
  | call {log : List (DefId × Request)} {store : Store} (h : History s log store) {name : String}
      {f : FnDecl} (hf : s.program.functionNamed? name = some f) {args : List Value}
      (hargs : ∀ v ∈ args, s.program.Admits v) {fuel : Nat} {after : After Outcome}
      (hafter : s.call fuel store name args = some after) :
      History s (log ++ requested f.id after.result) after.store
  | resume {log : List (DefId × Request)} {store : Store} (h : History s log store) {d : DefId}
      {r : Request} (hr : (d, r) ∈ log) {v : Value} (hv : s.program.Admits v) {fuel : Nat}
      {after : After Outcome} (hafter : s.resume fuel store r.suspension v = some after) :
      History s (log ++ requested d after.result) after.store

/-- The invariant of a history: its store fits, requests are numbered, and their labels are in the
rows. -/
structure LogFits (c : InferenceContext) (l : String) (log : List (DefId × Request))
    (store : Store) : Prop where
  store : ∃ w, store.Fits c l w (log.map (·.1))
  suspension : ∀ (i : Nat) (d : DefId) (r : Request), log[i]? = some (d, r) → r.suspension = ⟨i⟩
  label : ∀ (d : DefId) (r : Request), (d, r) ∈ log → r.label = c.program.opLabel r.op ∧
    (r.label = l → c.rowHas l d)

/-- The call to which a request belongs. -/
theorem LogFits.owner {l : String} (h : LogFits c l log store) {r : Request} (hr : (d, r) ∈ log) :
    (log.map (·.1))[r.suspension.index]? = some d := by
  obtain ⟨i, hi⟩ := mem_iff_getElem?.mp hr
  rw [h.suspension i d r hi, getElem?_map, hi]
  rfl

/-- One more call or resumption keeps the invariant. -/
theorem LogFits.append {l : String} (h : LogFits c l log store) {after : After Outcome}
    (hafter : after.Reports c l (log.map (·.1)) d) :
    LogFits c l (log ++ requested d after.result) after.store := by
  have hnew {d' : DefId} {r : Request} (hr : (d', r) ∈ requested d after.result) :
      d' = d ∧ after.result = .ok (.request r) := by
    unfold requested at hr
    split at hr
    · rename_i r' hresult
      obtain ⟨rfl, rfl⟩ := Prod.mk.inj (mem_singleton.mp hr)
      exact ⟨rfl, hresult⟩
    · simp at hr
  have hlength : (requested d after.result).length ≤ 1 := by
    unfold requested
    split <;> simp
  refine ⟨by simpa using hafter.store, fun i d' r hi => ?_, fun d' r hr => ?_⟩
  · by_cases hlt : i < log.length
    · rw [getElem?_append_left hlt] at hi
      exact h.suspension i d' r hi
    · rw [getElem?_append_right (by omega)] at hi
      have hbound := (List.getElem?_eq_some_iff.mp hi).1
      rw [hafter.suspension r (hnew (mem_of_getElem? hi)).2, length_map]
      congr 1
      omega
  · obtain hr | hr := mem_append.mp hr
    · exact h.label d' r hr
    · obtain ⟨rfl, hresult⟩ := hnew hr
      exact hafter.label r hresult

theorem History.fits_of_covered (hs : s.Covered c) (l : String) (h : History s log store) :
    LogFits c l log store := by
  induction h with
  | start =>
    refine ⟨⟨⟨fun _ => default, fun _ => False, fun _ => False⟩, rfl,
      ?_, by simp, by simp⟩, by simp, by simp⟩
    refine ⟨Frames.sound_empty, ?_, ?_, ?_, ?_⟩ <;> simp [Frames.InUse]
  | call h hf hargs hafter ih =>
    obtain ⟨w, hstore⟩ := ih.store
    rw [hs.program] at hf hargs
    exact ih.append (Setting.settle_reports hs (Setting.startCall_valid hs hstore hf hargs) hafter)
  | resume h hr hv hafter ih =>
    obtain ⟨w, hstore⟩ := ih.store
    rw [hs.program] at hv
    exact ih.append (Setting.settle_reports hs (Setting.startResume_valid hstore (ih.owner hr) hv)
      hafter)

theorem History.fits (hs : s.Analyzed c) (l : String) (h : History s log store) :
    LogFits c l log store :=
  h.fits_of_covered hs.covered l

/-- **Effect rows are sound.** In a first-order program about which the analysis has no complaint,
the row of a function has the label of every operation on which a call of the function is suspended,
at the first request and after any resumptions; and a function that is not effectful is never
suspended. -/
theorem History.label_mem_functionRow (p : Program) (exhaustive recycle : Bool)
    (hfunctions : p.DistinctFunctions) (hnodes : p.DistinctNodes) (hlabels : p.DistinctLabels)
    (hfirst : p.isFirstOrder = true) (herrors : (p.analyze exhaustive).hasErrors = false)
    {log : List (DefId × Request)} {store : Store}
    (h : History { program := p, analysis := p.analyze exhaustive, recycle } log store) :
    (∀ d r, (d, r) ∈ log → r.label = p.opLabel r.op ∧
      r.label ∈ ((p.analyze exhaustive).functionRow d).labels) ∧
      ∀ d, (p.analyze exhaustive).isEffectful d = false → ∀ r, (d, r) ∉ log := by
  have hs : Setting.Analyzed { program := p, analysis := p.analyze exhaustive, recycle }
      (p.finalContext exhaustive) :=
    ⟨rfl, rfl, rfl, herrors, hfunctions, hnodes, hlabels, hfirst⟩
  have hrow (d : DefId) (r : Request) (hr : (d, r) ∈ log) :
      r.label = p.opLabel r.op ∧ r.label ∈ ((p.analyze exhaustive).functionRow d).labels := by
    obtain ⟨hlabel, hmem⟩ := (h.fits hs r.label).label d r hr
    exact ⟨hlabel, hmem rfl⟩
  refine ⟨hrow, fun d hd r hr => ?_⟩
  have hempty : ((p.analyze exhaustive).functionRow d).labels = [] := by
    rw [← Row.isEmpty_iff_labels]
    simpa [EffectAnalysis.isEffectful] using hd
  have hmem := (hrow d r hr).2
  rw [hempty] at hmem
  simp at hmem

/-- A function that performs `tell` twice and answers the `ask` in between by itself. -/
def askBetweenTells : Program where
  effects := [{ id := ⟨0⟩, name := "Talk",
                ops := [⟨"ask", 0, [], .i32, .tail⟩, ⟨"tell", 0, [], .i32, .resume⟩] }]
  functions := [{
    id := ⟨1⟩, name := "talk", params := [], ret := .i32, locals :=
      [⟨"k", .continuation .i32 .i32⟩],
    body := .i32 0 (.handle
      (.i32 1 (.binary .add (.i32 2 (.perform ⟨⟨0⟩, 1⟩ [] []))
        (.i32 3 (.binary .add (.i32 4 (.perform ⟨⟨0⟩, 0⟩ [] []))
          (.i32 5 (.perform ⟨⟨0⟩, 1⟩ [] []))))))
      [.mk ⟨⟨0⟩, "ask", none, [], ⟨0⟩, {}⟩
        (.i32 6 (.call (.node ⟨7⟩ (.var ⟨0⟩) (.continuation .i32 .i32) {})
          [.i32 8 (.literal (.int 1))]))]
      none) }]

theorem History.label_mem_functionRow_askBetweenTells :
    ∃ log store, History { program := askBetweenTells, analysis := askBetweenTells.analyze false }
      log store ∧ log.map (·.2.label) = ["Talk.tell", "Talk.tell"] ∧
      ∀ d r, (d, r) ∈ log → r.label ∈ ((askBetweenTells.analyze false).functionRow d).labels := by
  let s : Setting := { program := askBetweenTells, analysis := askBetweenTells.analyze false }
  let r₁ : Request := ⟨"Talk", ⟨⟨0⟩, 1⟩, "Talk.tell", .resume, [], ⟨0⟩⟩
  let r₂ : Request := ⟨"Talk", ⟨⟨0⟩, 1⟩, "Talk.tell", .resume, [], ⟨1⟩⟩
  have hrun : (do
      let first ← s.call 100 {} "talk" []
      let second ← s.resume 100 first.store ⟨0⟩ (.i32 5)
      return (requested ⟨1⟩ first.result, requested ⟨1⟩ second.result)) =
      some ([(⟨1⟩, r₁)], [(⟨1⟩, r₂)]) := by rfl
  obtain ⟨first, hfirst, hrun⟩ := Option.bind_eq_some_iff.mp hrun
  obtain ⟨second, hsecond, hrun⟩ := Option.bind_eq_some_iff.mp hrun
  obtain ⟨hr₁, hr₂⟩ := Prod.mk.inj (Option.some.inj hrun)
  have hcall : History s ([] ++ requested ⟨1⟩ first.result) first.store :=
    .call .start rfl (by simp) hfirst
  have hresume := hcall.resume (d := ⟨1⟩) (r := r₁) (by simp [hr₁]) (v := .i32 5) (.inl rfl) hsecond
  refine ⟨_, _, hresume, by simp [hr₁, hr₂, r₁, r₂], fun d r hr => ?_⟩
  exact ((History.label_mem_functionRow askBetweenTells false true (by decide) (by decide)
    (by decide) (by decide) (by decide +kernel) hresume).1 d r hr).2

/-- A function that calls what the host answers it. -/
def callTheAnswer : Program where
  effects := [{ id := ⟨0⟩, name := "E",
                ops := [⟨"get", 0, [], .fn [] .i32, .tail⟩, ⟨"tick", 0, [], .i32, .tail⟩] }]
  functions := [{
    id := ⟨1⟩, name := "main", params := [], ret := .i32, locals := []
    body := .i32 0 (.call (.node ⟨1⟩ (.perform ⟨⟨0⟩, 0⟩ [] []) (.fn [] .i32) {}) []) }]

/-- Its row is right for all answers but callables: answered with the operation `tick`, the call
asks for `tick`, which the row does not have. -/
theorem requested_callTheAnswer :
    let s : Setting := { program := callTheAnswer, analysis := callTheAnswer.analyze false }
    (callTheAnswer.DistinctFunctions ∧ callTheAnswer.DistinctNodes ∧ callTheAnswer.DistinctLabels ∧
      callTheAnswer.isFirstOrder = true ∧ (callTheAnswer.analyze false).hasErrors = false) ∧
    (do let first ← s.call 100 {} "main" []
        let second ← s.resume 100 first.store ⟨0⟩ (.callable (.op ⟨⟨0⟩, 1⟩))
        return (requested ⟨1⟩ first.result ++ requested ⟨1⟩ second.result).map (·.2.label)) =
      some ["E.get", "E.tick"] ∧
    ((callTheAnswer.analyze false).functionRow ⟨1⟩).labels = ["E.get"] := by
  refine ⟨⟨by decide, by decide, by decide, by decide, by decide +kernel⟩, rfl, by decide +kernel⟩

end Effectful.Interp
