import Effectful.Proofs.FirstOrder
import Effectful.Proofs.FrameStore
import Effectful.Proofs.RowInference
import Effectful.Proofs.StepShape
/-!
# Where a label may come from

Row soundness is proved for one label `l` at a time, by an invariant of the interpreter's states.
The invariant goes through a proposition, "this part of the state may perform an operation labelled
`l` from here on":

* an expression may, if its row has the label or if its frame can reach a continuation that may;
* a pending construct passes on what the computation above it may perform, unless it is a guard that
  handles the label, and adds the code that it holds (`World.passes`);
* a stack passes the constructs one after the other (`World.flow`).

`World.Bounds` limits this on both sides: what gets past a stack, and what gets to each guard in it.

What frames and continuations may perform is not read off the store but kept in a `World` beside it:
for every frame the function whose code runs in it and whether a continuation in reach may perform
`l`, and for every continuation whether resuming it may.

The frames of pending constructs must not be given back while they are needed.  `Anchored` says so:
the frame of a construct is pinned, or is the frame of the call, clause or guard right below it.
-/

/-- What a part performs is performed by the whole, unless that is a handler. -/
theorem Effectful.Expr.performs_of_mem_dataParts {c : InferenceContext} {l : String} {e x : Expr}
    (hh : e.form.isHandle = false) (hx : x ∈ e.form.dataParts) (hp : x.performs c l) :
    e.performs c l :=
  (performs_iff hh).mpr (.inl ⟨x, e.form.dataParts_subset hx, hp⟩)

namespace Effectful.Interp

open List

variable {frame x : FrameId} {stack below : List Pending} {v : Value}

/-! ### What a pending construct holds -/

namespace Pending

/-- The code that the construct may still run. -/
def code : Pending → List Expr
  | .binaryLeft _ rhs _ => [rhs]
  | .callee args _ => args
  | .operands _ rest _ _ => rest
  | .stmt _ rest tail _ => rest.filterMap Stmt.expr? ++ tail.toList
  | .branch onTrue onFalse _ => onTrue :: onFalse.toList
  | .select arms _ => arms.map Arm.body
  | .loopCond cond body _ => [cond, body]
  | .loopBody cond body _ => cond.toList ++ [body]
  | .guard _ clauses _ => clauses.map Clause.body
  | .finalizer e _ => [e]
  | _ => []

/-- The frame in which the construct runs its code or binds. -/
def frame? : Pending → Option FrameId
  | .binaryLeft _ _ frame | .callee _ frame | .operands _ _ frame _ | .stmt _ _ _ frame
  | .assign _ frame | .branch _ _ frame | .select _ frame | .loopCond _ _
      frame | .loopBody _ _ frame
  | .guard _ _ frame | .finalizer _ frame => some frame
  | _ => none

/-- The locals that the construct may bind or assign. -/
def binders : Pending → List LocalId
  | .stmt target rest tail _ => target.toList ++ (Form.block rest tail).binders
  | .assign target _ => [target]
  | .select arms _ => (Form.select default arms).binders
  | .guard _ clauses _ => clauses.flatMap (·.head.params)
  | _ => []

/-- The values that the construct holds as data. -/
def held : Pending → List Value
  | .binaryRight _ lhs => [lhs]
  | .operands done _ _ _ => done
  | .finalized result => [result]
  | _ => []

/-- What the operands are for, if the construct collects operands. -/
def use? : Pending → Option OperandUse
  | .operands _ _ _ use => some use
  | _ => none

/-- Whether the construct is the start of a frame's code: the frame above it, unless that one is
pinned. -/
def base? : Pending → Option (Option FrameId)
  | .call owned | .clause _ _ owned => some owned
  | .guard _ _ frame => some (some frame)
  | _ => none

def isCallee : Pending → Bool
  | .callee _ _ => true
  | _ => false

end Pending

/-- The frames that a stack gives back. -/
def ownedFrames (stack : List Pending) : List FrameId := stack.filterMap Pending.owned?

/-- The frame in which a stack goes on. -/
def base? : List Pending → Option FrameId
  | [] => none
  | p :: stack => p.base?.getD (base? stack)

/-- The value above the stack is called, it is not data. -/
def AtCallee (stack : List Pending) : Prop := ∃ p, stack.head? = some p ∧ p.isCallee = true

/-- A frame that code above the stack may use: one that is kept for good, or the one in which the
stack goes on. -/
def Usable (fs : Frames) (stack : List Pending) (frame : FrameId) : Prop :=
  fs.Pinned frame ∨ base? stack = some frame

/-- Every construct of the stack uses a frame that will not be given back before the construct is
over. -/
def Anchored (fs : Frames) : List Pending → Prop
  | [] => True
  | p :: stack =>
    (∀ frame ∈ p.frame?, Usable fs stack frame) ∧
      (∀ frame ∈ p.owned?, fs.InUse frame ∧ frame ∉ ownedFrames stack) ∧ Anchored fs stack

/-- Constructs that outlive the run that made them: they give nothing back, and their frames are
kept. -/
def Detached (fs : Frames) (rest : List Pending) : Prop :=
  ∀ p ∈ rest, p.owned? = none ∧ ∀ frame ∈ p.frame?, fs.Pinned frame

/-! ### Anchored stacks -/

section Anchored

variable {fs fs' : Frames}

theorem ownedFrames_cons (p : Pending) (stack : List Pending) :
    ownedFrames (p :: stack) = p.owned?.toList ++ ownedFrames stack := by
  cases h : p.owned? <;> simp [ownedFrames, h]

/-- A frame in which an anchored stack goes on is pinned or given back by the stack. -/
theorem Anchored.pinned_or_owned (h : Anchored fs stack) (hb : base? stack = some frame) :
    fs.Pinned frame ∨ frame ∈ ownedFrames stack := by
  induction stack with
  | nil => simp [base?] at hb
  | cons p stack ih =>
    obtain ⟨hframe, howned, hstack⟩ := h
    have below (hb : base? stack = some frame) : fs.Pinned frame ∨ frame ∈ ownedFrames
        (p :: stack) := by
      refine (ih hstack hb).imp_right fun h => ?_
      rw [ownedFrames_cons]
      exact mem_append_right _ h
    cases p with
    | call owned | clause _ _ owned =>
      obtain rfl : owned = some frame := hb
      exact .inr (by simp [ownedFrames, Pending.owned?])
    | guard handle clauses guarded =>
      obtain rfl : guarded = frame := Option.some.inj hb
      exact (hframe guarded rfl).elim .inl below
    | _ => exact below hb

theorem Anchored.inUse_of_owned (h : Anchored fs stack) (hf : frame ∈ ownedFrames stack) :
    fs.InUse frame := by
  induction stack with
  | nil => simp [ownedFrames] at hf
  | cons p stack ih =>
    rw [ownedFrames_cons] at hf
    obtain hf | hf := mem_append.mp hf
    · exact (h.2.1 frame (Option.mem_toList.mp hf)).1
    · exact ih h.2.2 hf

theorem Usable.inUse (hs : fs.Sound) (h : Anchored fs stack) (hu : Usable fs stack frame) :
    fs.InUse frame := by
  obtain hpin | hb := hu
  · exact hpin.inUse hs
  · exact (h.pinned_or_owned hb).elim (·.inUse hs) h.inUse_of_owned

theorem Anchored.inUse_frame? (hs : fs.Sound) (h : Anchored fs stack) {p : Pending} (hp : p ∈ stack)
    (hf : frame ∈ p.frame?) : fs.InUse frame := by
  induction stack with
  | nil => simp at hp
  | cons q stack ih =>
    obtain rfl | hp := mem_cons.mp hp
    · exact Usable.inUse hs h.2.2 (h.1 frame hf)
    · exact ih h.2.2 hp

/-- A stack stays anchored while pinned frames stay pinned and its own frames stay in use. -/
theorem Anchored.mono (h : Anchored fs stack) (hpin : ∀ x, fs.Pinned x → fs'.Pinned x)
    (huse : ∀ x ∈ ownedFrames stack, fs.InUse x → fs'.InUse x) : Anchored fs' stack := by
  induction stack with
  | nil => trivial
  | cons p stack ih =>
    rw [ownedFrames_cons] at huse
    refine ⟨fun frame hf => (h.1 frame hf).imp_left (hpin frame), fun frame hf => ?_,
      ih h.2.2 fun x hx => huse x (mem_append_right _ hx)⟩
    obtain ⟨hin, hnot⟩ := h.2.1 frame hf
    exact ⟨huse frame (mem_append_left _ (Option.mem_toList.mpr hf)) hin, hnot⟩

theorem Usable.mono (h : Usable fs stack frame) (hpin : ∀ x, fs.Pinned x → fs'.Pinned x) :
    Usable fs' stack frame :=
  h.imp_left (hpin frame)

theorem Detached.mono {rest : List Pending} (h : Detached fs rest)
    (hpin : ∀ x, fs.Pinned x → fs'.Pinned x) : Detached fs' rest :=
  fun p hp => ⟨(h p hp).1, fun frame hf => hpin frame ((h p hp).2 frame hf)⟩

/-- What outlives a run can be put on any anchored stack. -/
theorem Detached.anchored_reverse_append {rest : List Pending} (h : Detached fs rest)
    (hstack : Anchored fs stack) :
    Anchored fs (rest.reverse ++ stack) ∧ ownedFrames (rest.reverse ++ stack) =
      ownedFrames stack := by
  induction rest generalizing stack with
  | nil => exact ⟨hstack, rfl⟩
  | cons p rest ih =>
    obtain ⟨howned, hframe⟩ := h p mem_cons_self
    rw [reverse_cons, append_assoc, singleton_append]
    have hnone : ownedFrames (p :: stack) = ownedFrames stack := by
      rw [ownedFrames_cons, howned]; rfl
    rw [← hnone]
    refine ih (fun q hq => h q (mem_cons_of_mem _ hq)) ⟨fun frame hf => .inl (hframe frame hf),
      ?_, hstack⟩
    simp [howned]

/-- Giving back the frame of the topmost call or clause leaves the stack below anchored. -/
theorem Anchored.release {p : Pending} (h : Anchored fs (p :: stack)) (hf : frame ∈ p.owned?) :
    Anchored (fs.release frame) stack := by
  obtain ⟨hin, hnot⟩ := h.2.1 frame hf
  by_cases hpin : fs.Pinned frame
  · rw [Frames.release_of_pinned hpin]
    exact h.2.2
  · refine h.2.2.mono (fun x hx => hx.release hin) fun x hx huse => ?_
    exact ((Frames.released hin hpin).inUse x).mpr ⟨fun h => hnot (h ▸ hx), huse⟩

end Anchored

/-- The constructs that a request has passed, from the outermost on. -/
def Control.rest : Control → List Pending
  | .request _ _ rest => rest
  | _ => []

/-! ### Worlds -/

/-- What is known of frames and continuations with regard to one label. -/
structure World where
  /-- The function whose code runs in a frame. -/
  fn : FrameId → FnDecl
  /-- Whether a continuation that the frame can reach may perform the label. -/
  reach : FrameId → Prop
  /-- Whether resuming the continuation may perform the label. -/
  cont : ContinuationId → Prop

namespace World

section Flow

variable (c : InferenceContext) (l : String) (w : World)

/-- Calling the value may perform the label. -/
def calling : Value → Prop
  | .callable (.fn d) => c.rowHas l d
  | .callable (.continuation k) => w.cont k
  | _ => False

/-- Using operands may perform the label. -/
def operating : OperandUse → Prop
  | .apply callee => w.calling c l callee
  | .perform op => c.program.opLabel op = l
  | .tuple => False

/-- The construct is a guard that handles the label. -/
def handles : Pending → Prop
  | .guard _ clauses _ => l ∈ clauses.filterMap (·.head.label? c.program)
  | _ => False

/-- What a construct adds to the computation above it. -/
def adds (p : Pending) : Prop :=
  (∃ e ∈ p.code, e.performs c l) ∨ (∃ frame ∈ p.frame?, w.reach frame) ∨
    ∃ u ∈ p.use?, w.operating c l u

/-- The computation may perform the label outside of the construct, if `above` says whether it may
inside. -/
def passes (p : Pending) (above : Prop) : Prop := (above ∧ ¬ handles c l p) ∨ w.adds c l p

/-- The same outside of a stack of constructs. -/
def flow : List Pending → Prop → Prop
  | [], above => above
  | p :: stack, above => flow stack (w.passes c l p above)

/-- What a construct expects from the computation above it: a guard stands around the body of its
handler, so the row of the body has the label, or the frame reaches a continuation that may perform
it. -/
def admits : Pending → Prop
  | .guard handle clauses frame => w.reach frame ∨ ∃ x ∈ (w.fn frame).body.walk, x.id = handle ∧
      ∃ body finalizer, x.form = .handle body clauses finalizer ∧ body.performs c l
  | _ => True

/-- Each construct of a stack gets what it expects, and `may` allows what gets past the stack. -/
def Bounds (may : Prop) : List Pending → Prop → Prop
  | [], above => above → may
  | p :: stack, above => (above → w.admits c l p) ∧ Bounds may stack (w.passes c l p above)

/-- What a control may perform above a stack. -/
def control (stack : List Pending) : Control → Prop
  | .eval e frame => e.performs c l ∨ w.reach frame ∨ ∃ d, e.form = .fn d ∧ c.rowHas l d
  | .value v => AtCallee stack ∧ w.calling c l v
  | .exit _ => False
  | .request op _ _ => c.program.opLabel op = l

end Flow

variable {c : InferenceContext} {l : String} {w w' : World} {may may' above above' : Prop}

theorem passes_mono {p : Pending} (h : above → above') :
    w.passes c l p above → w.passes c l p above' :=
  Or.imp_left (And.imp_left h)

theorem passes_of_code (w : World) {p : Pending} {e : Expr} (he : e ∈ p.code)
    (hp : e.performs c l) :
    w.passes c l p above :=
  .inr (.inl ⟨e, he, hp⟩)

theorem passes_of_reach (w : World) {p : Pending} {frame : FrameId} (hf : p.frame? = some frame)
    (hr : w.reach frame) :
    w.passes c l p above :=
  .inr (.inr (.inl ⟨frame, hf, hr⟩))

theorem flow_mono (h : above → above') : w.flow c l stack above → w.flow c l stack above' := by
  induction stack generalizing above above' with
  | nil => exact h
  | cons p stack ih => exact ih (passes_mono h)

theorem flow_append :
    w.flow c l (stack ++ below) above ↔ w.flow c l below (w.flow c l stack above) := by
  induction stack generalizing above with
  | nil => rfl
  | cons p stack ih => exact ih

/-- What may be performed above a stack that does not handle it may be performed below. -/
theorem flow_of_not_handles (h : ∀ q ∈ stack, ¬ handles c l q) (ha : above) :
    w.flow c l stack above := by
  induction stack generalizing above with
  | nil => exact ha
  | cons q stack ih =>
    exact ih (fun q hq => h q (mem_cons_of_mem _ hq)) (.inl ⟨ha, h q mem_cons_self⟩)

theorem Bounds.mono (h : w.Bounds c l may stack above) (ha : above' → above) :
    w.Bounds c l may stack above' := by
  induction stack generalizing above above' with
  | nil => exact h ∘ ha
  | cons p stack ih => exact ⟨h.1 ∘ ha, ih h.2 (passes_mono ha)⟩

theorem Bounds.weaken (h : w.Bounds c l may stack above) (hm : may → may') :
    w.Bounds c l may' stack above := by
  induction stack generalizing above with
  | nil => exact hm ∘ h
  | cons p stack ih => exact ⟨h.1, ih h.2⟩

theorem Bounds.flow (h : w.Bounds c l may stack above) : w.flow c l stack above → may := by
  induction stack generalizing above with
  | nil => exact h
  | cons p stack ih => exact ih h.2

/-- What gets past a stack is bounded by itself. -/
theorem bounds_append_iff :
    w.Bounds c l may (stack ++ below) above ↔
      w.Bounds c l (w.flow c l stack above) stack above ∧ w.Bounds c l may below
        (w.flow c l stack above) := by
  induction stack generalizing above with
  | nil => exact ⟨fun h => ⟨id, h⟩, fun h => h.2⟩
  | cons p stack ih => rw [cons_append, Bounds, Bounds, ih, and_assoc]; rfl

/-- A stack on top of one that allows what gets past it. -/
theorem Bounds.append (h : w.Bounds c l may' stack above) (ha : may' → above')
    (hbelow : w.Bounds c l may below above') : w.Bounds c l may (stack ++ below) above := by
  induction stack generalizing above with
  | nil => exact hbelow.mono (ha ∘ h)
  | cons p stack ih => exact ⟨h.1, ih h.2⟩

/-- The worlds agree on the frames in use and on the first `n` continuations. -/
structure Agrees (fs : Frames) (n : Nat) (w w' : World) : Prop where
  fn : ∀ x, fs.InUse x → w'.fn x = w.fn x
  reach : ∀ x, fs.InUse x → w'.reach x = w.reach x
  cont : ∀ k : ContinuationId, k.index < n → w'.cont k = w.cont k

end World

/-! ### Well-formed states -/

/-- The value names a function, or one of the first `n` continuations. -/
def Value.IsNamed (n : Nat) : Value → Prop
  | .callable (.fn _) => True
  | .callable (.continuation k) => k.index < n
  | _ => False

section Fits

variable (p : Program) (w : World) (n : Nat)

/-- The operands are for something that the program may call or perform. -/
def OperandUse.Fits : OperandUse → Prop
  | .apply callee => callee.isFirstOrder = true ∨ callee.IsNamed n
  | .perform op => (p.op? op).isSome
  | .tuple => True

/-- The construct holds code of the function whose frame it uses, and keeps data and continuations
apart. -/
structure Pending.Fits (q : Pending) : Prop where
  code : ∀ frame ∈ q.frame?, ∀ e ∈ q.code,
    e ∈ (w.fn frame).body.walk ∧ e.form.isName (w.fn frame).continuations = false
  binders : ∀ frame ∈ q.frame?, ∀ t ∈ q.binders, t ∉ (w.fn frame).continuations
  held : ∀ v ∈ q.held, p.Admits v
  use : ∀ u ∈ q.use?, u.Fits p n
  handler : ∀ handle clauses frame, q = .guard handle clauses frame →
    ∃ x ∈ (w.fn frame).body.walk, x.id = handle ∧ ∃ body finalizer, x.form = .handle body
      clauses finalizer

/-- The value that a frame binds to a local: a continuation that the frame may reach, or data. -/
def World.Holds (frame : FrameId) (t : LocalId) (v : Value) : Prop :=
  if t ∈ (w.fn frame).continuations then
    ∃ k, v = .callable (.continuation k) ∧ k.index < n ∧ (w.cont k → w.reach frame)
  else p.Admits v

/-- The frames bind what they may, and see no less than their parents; a frame without a parent,
which is that of a call, reaches no continuation. -/
structure Frames.Fit (fs : Frames) : Prop where
  sound : fs.Sound
  fn_mem : ∀ x, fs.InUse x → w.fn x ∈ p.functions
  locals : ∀ x f t v, fs.InUse x → fs.cell? x = some f → Assoc.get? f.locals t = some v →
    w.Holds p n x t v
  parent : ∀ x f q, fs.InUse x → fs.cell? x = some f → f.parent = some q →
    w.fn q = w.fn x ∧ (w.reach q → w.reach x)
  root : ∀ x f, fs.InUse x → fs.cell? x = some f → f.parent = none → ¬ w.reach x

end Fits

section Congruence

variable {p : Program} {c : InferenceContext} {l : String} {w w' : World} {n n' : Nat} {fs : Frames}

theorem OperandUse.Fits.mono {u : OperandUse} (h : u.Fits p n) (hn : n ≤ n') : u.Fits p n' := by
  cases u with
  | apply callee =>
    refine Or.imp_right (fun h => ?_) h
    cases callee with
    | callable target =>
      cases target with
      | continuation k => exact Nat.lt_of_lt_of_le h hn
      | _ => exact h
    | _ => exact h
  | _ => exact h

theorem Pending.Fits.of_agrees {q : Pending} (h : q.Fits p w n) (ha : World.Agrees fs n w w')
    (hn : n ≤ n') (hq : ∀ frame ∈ q.frame?, fs.InUse frame) : q.Fits p w' n' where
  code frame hf := by
    rw [ha.fn frame (hq frame hf)]
    exact h.code frame hf
  binders frame hf := by
    rw [ha.fn frame (hq frame hf)]
    exact h.binders frame hf
  held := h.held
  use u hu := (h.use u hu).mono hn
  handler handle clauses frame hguard := by
    rw [ha.fn frame (hq frame (by rw [hguard]; rfl))]
    exact h.handler handle clauses frame hguard

theorem World.calling_of_isFirstOrder (h : v.isFirstOrder = true) : ¬ w.calling c l v := by
  cases v with
  | callable target =>
    cases target with
    | intrinsic which => exact id
    | _ => simp [Value.isFirstOrder] at h
  | _ => exact id

theorem World.calling_congr (h : v.isFirstOrder = true ∨ v.IsNamed n)
    (ha : World.Agrees fs n w w') :
    w'.calling c l v = w.calling c l v := by
  cases v with
  | callable target =>
    cases target with
    | continuation k =>
      obtain h | h := h
      · simp [Value.isFirstOrder] at h
      · exact ha.cont k h
    | _ => rfl
  | _ => rfl

theorem World.adds_congr {q : Pending} (h : q.Fits p w n) (ha : World.Agrees fs n w w')
    (hq : ∀ frame ∈ q.frame?, fs.InUse frame) : w'.adds c l q ↔ w.adds c l q := by
  have hreach : (∃ frame ∈ q.frame?, w'.reach frame) ↔ ∃ frame ∈ q.frame?, w.reach frame :=
    exists_congr fun frame => and_congr_right fun hf => by rw [ha.reach frame (hq frame hf)]
  have huse : (∃ u ∈ q.use?, w'.operating c l u) ↔ ∃ u ∈ q.use?, w.operating c l u := by
    refine exists_congr fun u => and_congr_right fun hu => ?_
    have hfit := h.use u hu
    cases u with
    | apply callee => exact iff_of_eq (World.calling_congr hfit ha)
    | _ => rfl
  rw [World.adds, World.adds, hreach, huse]

theorem World.Bounds.of_agrees {may : Prop} {above : Prop} (hb : w.Bounds c l may stack above)
    (h : ∀ q ∈ stack, q.Fits p w n) (ha : World.Agrees fs n w w')
    (hq : ∀ q ∈ stack, ∀ frame ∈ q.frame?, fs.InUse frame) :
    w'.Bounds c l may stack above := by
  induction stack generalizing above with
  | nil => exact hb
  | cons q stack ih =>
    refine ⟨fun habove => ?_, ?_⟩
    · have hadmits := hb.1 habove
      cases q with
      | guard handle clauses frame =>
        have hin : fs.InUse frame := hq _ mem_cons_self frame rfl
        rwa [World.admits, ha.reach frame hin, ha.fn frame hin]
      | _ => trivial
    · have hpass : w'.passes c l q above = w.passes c l q above := by
        rw [World.passes, World.passes, World.adds_congr (h q mem_cons_self) ha
          (hq q mem_cons_self)]
      rw [hpass]
      exact ih hb.2 (fun q hq => h q (mem_cons_of_mem _ hq))
        fun q hq' => hq q (mem_cons_of_mem _ hq')

theorem World.Holds.of_agrees {t : LocalId} (h : w.Holds p n x t v) (hx : fs.InUse x)
    (ha : World.Agrees fs n w w') (hn : n ≤ n') : w'.Holds p n' x t v := by
  rw [World.Holds] at h ⊢
  rw [ha.fn x hx, ha.reach x hx]
  split at h
  · rename_i ht
    rw [if_pos ht]
    obtain ⟨k, hv, hk, hreach⟩ := h
    exact ⟨k, hv, Nat.lt_of_lt_of_le hk hn, by rwa [ha.cont k hk]⟩
  · rename_i ht
    rwa [if_neg ht]

end Congruence

/-! ### Frames under the operations of the interpreter -/

namespace Frames.Fit

variable {p : Program} {w w' : World} {n n' : Nat} {fs : Frames}

/-- What a frame finds for a local is bound in a frame of the same function that sees no more. -/
theorem owner? (h : fs.Fit p w n) {y : FrameId} {t : LocalId} (hx : fs.InUse x)
    (hy : fs.owner? x t = some (y, v)) :
    fs.InUse y ∧ w.fn y = w.fn x ∧ (w.reach y → w.reach x) ∧ w.Holds p n y t v := by
  obtain ⟨hin, ⟨hfn, hreach⟩, f, hf, hv⟩ :=
    h.sound.owner? hx hy (fun z => w.fn z = w.fn x ∧ (w.reach z → w.reach x))
    ⟨rfl, id⟩ fun z f q hz hf hq hP =>
      ⟨(h.parent z f q hz hf hq).1.trans hP.1, hP.2 ∘ (h.parent z f q hz hf hq).2⟩
  exact ⟨hin, hfn, hreach, h.locals y f t v hin hf hv⟩

/-- Frames that have the parents that they had, and locals that hold what they may. -/
theorem of_cells (h : fs.Fit p w n) {fs' : Frames} (hs : fs'.Sound)
    (hcells : ∀ y f, fs'.InUse y → fs'.cell? y = some f → fs.InUse y ∧ ∃ g, fs.cell? y = some g ∧
      f.parent = g.parent ∧ ∀ t v, Assoc.get? f.locals t = some v → w.Holds p n y t v) :
      fs'.Fit p w n where
  sound := hs
  fn_mem y hy := by
    obtain ⟨f, hf⟩ := hy.exists_cell
    exact h.fn_mem y (hcells y f hy hf).1
  locals y f t v hy hf hv := by
    obtain ⟨-, g, -, -, hlocals⟩ := hcells y f hy hf
    exact hlocals t v hv
  parent y f q hy hf hq := by
    obtain ⟨hy, g, hg, hparent, -⟩ := hcells y f hy hf
    exact h.parent y g q hy hg (hparent ▸ hq)
  root y f hy hf hnone := by
    obtain ⟨hy, g, hg, hparent, -⟩ := hcells y f hy hf
    exact h.root y g hy hg (hparent ▸ hnone)

theorem define (h : fs.Fit p w n) (hx : fs.InUse x) {t : LocalId}
    (hv : w.Holds p n x t v) : (fs.define x t v).Fit p w n := by
  have hu : fs.Updated x _ (fs.define x t v) := Frames.updated_define x t v
  refine h.of_cells (hu.sound h.sound hx) fun y f hy hf => ?_
  rw [hu.inUse_iff] at hy
  obtain ⟨g, hg, hparent, rfl | ⟨hyx, rfl⟩⟩ := hu.exists_before hf
  · exact ⟨hy, f, hg, hparent, fun t' v' hv' => h.locals y f t' v' hy hg hv'⟩
  · refine ⟨hy, g, hg, hparent, fun t' v' hv' => ?_⟩
    simp only [Assoc.get?_set] at hv'
    split at hv'
    · rename_i ht
      rw [hyx, ht, ← Option.some.inj hv']
      exact hv
    · exact h.locals y g t' v' hy hg hv'

theorem assign (h : fs.Fit p w n) {x : FrameId} (hx : fs.InUse x) {t : LocalId} {v : Value}
    (ht : t ∉ (w.fn x).continuations) (hv : p.Admits v) : (fs.assign x t v).Fit p w n := by
  rw [Frames.assign]
  cases ho : fs.owner? x t with
  | none => exact h.define hx (by rwa [World.Holds, if_neg ht])
  | some found =>
    obtain ⟨hy, hfn, -, -⟩ := h.owner? hx ho
    exact h.define hy (by rwa [World.Holds, hfn, if_neg ht])

theorem pin (h : fs.Fit p w n) (hx : fs.InUse x) : (fs.pin x).Fit p w n := by
  have hu := Frames.updated_pin h.sound x
  refine h.of_cells (hu.sound h.sound hx) fun y f hy hf => ?_
  rw [hu.inUse_iff] at hy
  obtain ⟨g, hg, hparent, rfl | ⟨-, rfl⟩⟩ := hu.exists_before hf
  · exact ⟨hy, f, hg, hparent, fun t v hv => h.locals y f t v hy hg hv⟩
  · exact ⟨hy, g, hg, hparent, fun t v hv => h.locals y g t v hy hg hv⟩

theorem release (h : fs.Fit p w n) (hx : fs.InUse x) : (fs.release x).Fit p w n := by
  by_cases hpin : fs.Pinned x
  · rwa [Frames.release_of_pinned hpin]
  have hrel := Frames.released hx hpin
  refine h.of_cells (h.sound.of_released hx hpin hrel) fun y f hy hf => ?_
  obtain ⟨hne, hy⟩ := (hrel.inUse y).mp hy
  rw [hrel.other y hne] at hf
  exact ⟨hy, f, hf, rfl, fun t v hv => h.locals y f t v hy hf hv⟩

theorem of_agrees (h : fs.Fit p w n) (ha : World.Agrees fs n w w') (hn : n ≤ n') :
    fs.Fit p w' n' where
  sound := h.sound
  fn_mem x hx := by
    rw [ha.fn x hx]
    exact h.fn_mem x hx
  locals x f t v hx hf hv := (h.locals x f t v hx hf hv).of_agrees hx ha hn
  parent x f q hx hf hq := by
    have hin := (h.sound.parent x f q hf hq).inUse h.sound
    rw [ha.fn q hin, ha.reach q hin, ha.fn x hx, ha.reach x hx]
    exact h.parent x f q hx hf hq
  root x f hx hf hnone := by
    rw [ha.reach x hx]
    exact h.root x f hx hf hnone

/-- A new frame, in a world that knows it and the continuations made meanwhile. -/
theorem of_pushed (h : fs.Fit p w n) {parent : Option FrameId} {fs' : Frames}
    (hpush : fs.Pushed parent x fs') (ha : World.Agrees fs n w w') (hn : n ≤ n')
    (hfn : w'.fn x ∈ p.functions)
    (hparent : ∀ q ∈ parent, fs.Pinned q ∧ w.fn q = w'.fn x ∧ (w.reach q → w'.reach x))
    (hroot : parent = none → ¬ w'.reach x) : fs'.Fit p w' n' where
  sound := h.sound.of_pushed hpush fun q hq => (hparent q hq).1
  fn_mem y hy := by
    obtain rfl | hy := (hpush.inUse y).mp hy
    · exact hfn
    · rw [ha.fn y hy]
      exact h.fn_mem y hy
  locals y f t v hy hf hv := by
    obtain rfl | hy := (hpush.inUse y).mp hy
    · rw [hpush.cell, Option.some.injEq] at hf
      subst hf
      simp at hv
    · rw [hpush.other y fun hyx => hpush.fresh (hyx ▸ hy)] at hf
      exact (h.locals y f t v hy hf hv).of_agrees hy ha hn
  parent y f q hy hf hq := by
    obtain rfl | hy := (hpush.inUse y).mp hy
    · rw [hpush.cell, Option.some.injEq] at hf
      subst hf
      obtain ⟨hpin, hfn', hreach⟩ := hparent q hq
      rw [ha.fn q (hpin.inUse h.sound), ha.reach q (hpin.inUse h.sound)]
      exact ⟨hfn', hreach⟩
    · rw [hpush.other y fun hyx => hpush.fresh (hyx ▸ hy)] at hf
      have hpin := (h.sound.parent y f q hf hq).inUse h.sound
      rw [ha.fn q hpin, ha.reach q hpin, ha.fn y hy, ha.reach y hy]
      exact h.parent y f q hy hf hq
  root y f hy hf hnone := by
    obtain rfl | hy := (hpush.inUse y).mp hy
    · rw [hpush.cell, Option.some.injEq] at hf
      subst hf
      exact hroot hnone
    · rw [hpush.other y fun hyx => hpush.fresh (hyx ▸ hy)] at hf
      rw [ha.reach y hy]
      exact h.root y f hy hf hnone

theorem defineAll (h : fs.Fit p w n) (hx : fs.InUse x) (ts : List LocalId) (vs : List Value)
    (hv : ∀ tv ∈ ts.zip vs, w.Holds p n x tv.1 tv.2) :
    (fs.defineAll x ts vs).Fit p w n ∧ (∀ y, (fs.defineAll x ts vs).InUse y ↔ fs.InUse y) ∧
      ∀ y, (fs.defineAll x ts vs).Pinned y ↔ fs.Pinned y := by
  rw [Frames.defineAll]
  generalize ts.zip vs = tvs at hv
  induction tvs generalizing fs with
  | nil => exact ⟨h, fun _ => Iff.rfl, fun _ => Iff.rfl⟩
  | cons tv tvs ih =>
    obtain ⟨t, v⟩ := tv
    have hdef := h.define hx (hv (t, v) mem_cons_self)
    obtain ⟨hfit, huse, hpin⟩ := ih hdef ((Frames.inUse_define x t v).mpr hx)
      fun tv htv => hv tv (mem_cons_of_mem _ htv)
    exact ⟨hfit, fun y => (huse y).trans (Frames.inUse_define x t v),
      fun y => (hpin y).trans (Frames.pinned_define x t v)⟩

end Frames.Fit

end Effectful.Interp
