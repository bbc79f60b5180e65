import Effectful.Proofs.HandledRun
/-!
# Using frames again

A host may call functions and resume suspended calls in any order, any number of times, and it may
hand callables back that it was given.  `performAll_recycle_eq`: in every such session it is told
the same whether or not frames are used again, and all the while the free list is in order.

The two sessions are run in lockstep.  Between commands they are `Alike`: what the session keeps,
the callables handed out and the constructs of the suspended calls, refers to pinned frames and
differs in numbers only.  In the middle of a command (`Beside`) the same constructs stand below the
stack, where no step gets, so that `Ground.step` carries them along.  A command can end with an
error at any step, and the session goes on from the store that is left then (`Step.Leaves`).
-/

namespace Effectful.Interp

open List

variable {control : Control} {stack : List Pending} {fs : Frames} {step' : Step}

@[simp]
theorem Store.suspensions_release (store : Store) (owned : Option FrameId) :
    (store.release owned).suspensions = store.suspensions := by
  cases owned <;> rfl

/-! ### Sessions -/

/-- What a host asks for.  In its values a continuation is the handle of a callable that it was
given. -/
inductive Command where
  | call (name : String) (args : List Value)
  | resume (id : SuspensionId) (answer : Value)

/-- What the host is told, without the numbers of frames and continuations. -/
inductive Reply where
  | value (v : Value)
  | request (r : Request)
  | error (e : EvalError)

/-- An interpreter between two commands, and the callables that the host was given. -/
structure Session where
  store : Store := {}
  handles : List Callable := []

namespace Session

def start (s : Setting) (session : Session) : Command → Step
  | .call name args =>
    match linkAll? session.handles args with
    | some vs => s.startCall session.store name vs
    | none => .fail (.trap .unreachable) session.store
  | .resume id answer =>
    match answer.link? session.handles with
    | some v => Setting.startResume session.store id v
    | none => .fail (.trap .unreachable) session.store

/-- What the host is told at the end of a command, and the session after it. -/
def conclude (handles : List Callable) : After Outcome → Reply × Session
  | ⟨.error e, store⟩ => (.error e, ⟨store, handles⟩)
  | ⟨.ok (.value v), store⟩ => (.value (v.rename .forget), ⟨store, handles ++ v.callables⟩)
  | ⟨.ok (.request r), store⟩ =>
    (.request { r with args := r.args.map (·.rename .forget) },
      ⟨store, handles ++ r.args.flatMap Value.callables⟩)

def perform (s : Setting) (fuel : Nat) (session : Session) (command : Command) :
    Option (Reply × Session) :=
  (s.settle fuel (session.start s command)).map (conclude session.handles)

/-- Commands and their replies, one after the other. -/
def performAll (s : Setting) (fuel : Nat) : Session → List Command → Option (List Reply × Session)
  | session, [] => some ([], session)
  | session, command :: commands =>
    (session.perform s fuel command).bind fun (reply, session) =>
      (performAll s fuel session commands).map fun (replies, session) => (reply :: replies, session)

/-- The constructs that a session keeps: its handles, and those of the suspended calls. -/
def kept (session : Session) : List Pending :=
  Sharing.handed session.handles :: session.store.suspensions.toList.flatMap Suspended.rest

end Session

def Suspended.rename (ρ : Renaming) (k : Suspended) : Suspended :=
  { k with rest := k.rest.map (·.rename ρ) }

theorem Pending.owned?_rename (ρ : Renaming) (q : Pending) :
    (q.rename ρ).owned? = q.owned?.map ρ.frame := by
  cases q <;> rfl

/-- Above a stack that gives nothing back, only pinned frames may be used. -/
theorem Anchored.pinned_of_usable (h : Anchored fs stack) (howned : ∀ q ∈ stack, q.owned? = none)
    {frame : FrameId} (hu : Usable fs stack frame) : fs.Pinned frame := by
  have hnone : ownedFrames stack = [] := filterMap_eq_nil_iff.mpr howned
  obtain hpin | hbase := hu
  · exact hpin
  · exact (h.pinned_or_owned hbase).resolve_right (by simp [hnone])

theorem Anchored.detached (h : Anchored fs stack) (howned : ∀ q ∈ stack, q.owned? = none) :
    Detached fs stack := by
  induction stack with
  | nil => simp [Detached]
  | cons q stack ih =>
    obtain ⟨hq, hstack⟩ := forall_mem_cons.mp howned
    refine forall_mem_cons.mpr ⟨⟨hq, fun frame hf => ?_⟩, ih h.2.2 hstack⟩
    exact h.2.2.pinned_of_usable hstack (h.1 frame hf)

theorem Detached.anchored (h : Detached fs stack) : Anchored fs stack := by
  have hreverse : Detached fs stack.reverse := fun q hq => h q (mem_reverse.mp hq)
  have hnil : Anchored fs [] := trivial
  simpa using (hreverse.anchored_reverse_append hnil).1

namespace Sharing

/-- One program on both sides; each decides for itself whether frames are used again. -/
def twins (p : Program) (a : EffectAnalysis) (recycle recycle' : Bool) : Sharing :=
  ⟨⟨p, a, recycle⟩, ⟨p, a, recycle'⟩, fun _ => True⟩

variable {p : Program} {a : EffectAnalysis} {recycle recycle' : Bool}

/-- Two runs of one program share all code. -/
theorem shares_twins (e : Expr) : (twins p a recycle recycle').Shares e := by
  intro x _
  unfold SharesForm
  split
  · trivial
  · exact fun op => rfl
  · trivial

theorem agrees_twins : (twins p a recycle recycle').Agrees :=
  ⟨fun _ _ => rfl, fun _ _ _ _ => shares_twins _⟩

variable {c : Sharing} {ρ ρ₀ : Renaming} {session session' : Session} {up : List Pending}
  {store store' : Store}

/-- Two sessions that differ in numbers only. -/
structure Alike (c : Sharing) (ρ : Renaming) (session session' : Session) : Prop where
  stores : c.Stores ρ (fun _ => False) session.store session'.store
  detached : Detached session.store.frames session.kept
  keeps : ∀ q ∈ session.kept, c.KeepsPending session.store.frames session.store.continuations.size q
  handles : session'.handles = session.handles.map (·.rename ρ)
  suspensions : session'.store.suspensions = session.store.suspensions.map (·.rename ρ)

theorem alike_empty (c : Sharing) : c.Alike .refl {} {} where
  stores := (ground_empty c).toStores
  detached := (ground_empty c).anchored.detached (by simp [handed, Pending.owned?])
  keeps := (ground_empty c).stack
  handles := rfl
  suspensions := Array.map_empty.symm

/-- Two stores in the middle of a command: as far as the stacks and what the sessions keep is
concerned, they differ in numbers only. -/
structure Midway (c : Sharing) (session session' : Session) (ρ : Renaming) (up : List Pending)
    (store store' : Store) :
    Prop where
  ground : c.Ground ρ (fun _ => False) (up ++ session.kept) store store'
  kept : session'.kept = session.kept.map (·.rename ρ)
  left : store.suspensions = session.store.suspensions
  right : store'.suspensions = session'.store.suspensions

/-- Two outcomes of a step in the middle of a command. -/
def Beside (c : Sharing) (session session' : Session) : Step → Step → Prop
  | .next st, .next st' =>
    ∃ ρ, c.Midway session session' ρ st.stack st.store st'.store ∧
      c.KeepsControl st.store.frames st.store.continuations.size (st.stack ++ session.kept)
      st.control ∧ st'.control = st.control.rename ρ ∧ st'.stack = st.stack.map (·.rename ρ)
  | .fail e store, .fail e' store' => e' = e ∧ ∃ ρ, c.Midway session session' ρ [] store store'
  | .done control store, .done control' store' =>
    ∃ ρ, c.Midway session session' ρ [] store store' ∧
      c.KeepsControl store.frames store.continuations.size session.kept control ∧
      control' = control.rename ρ
  | _, _ => False

theorem Alike.kept_eq (h : c.Alike ρ session session') :
    session'.kept = session.kept.map (·.rename ρ) := by
  unfold Session.kept
  rw [h.handles, h.suspensions, map_cons, handed_rename, Array.toList_map, flatMap_map, map_flatMap]
  rfl

theorem map_rest_setIfInBounds {xs : Array Suspended} {i m : Nat} {k : Suspended}
    (hk : xs[i]? = some k) :
    (xs.setIfInBounds i { k with resumed := m }).toList.map Suspended.rest =
      xs.toList.map Suspended.rest := by
  obtain ⟨hi, rfl⟩ := Array.getElem?_eq_some_iff.mp hk
  rw [Array.toList_setIfInBounds, map_set]
  apply ext_getElem?
  intro j
  rw [getElem?_set]
  split
  · rename_i hij
    simp [← hij, hi]
  · rfl

/-- Suspended calls may change as long as their constructs stay. -/
theorem Alike.with_suspensions (h : c.Alike ρ session session') {xs : Array Suspended}
    (hxs : xs.toList.map Suspended.rest = session.store.suspensions.toList.map Suspended.rest) :
    c.Alike ρ { session with store.suspensions := xs }
      { session' with store.suspensions := xs.map (·.rename ρ) } := by
  have hkept : Session.kept { session with store.suspensions := xs } = session.kept := by
    simp only [Session.kept, flatMap_def, hxs]
  refine ⟨⟨h.stores.frames, h.stores.cont, h.stores.cont_inj, h.stores.detached, h.stores.kept⟩, ?_,
    ?_, h.handles, rfl⟩
  · rw [hkept]
    exact h.detached
  · rw [hkept]
    exact h.keeps

/-- Sessions that are alike stay so while nothing happens. -/
theorem Alike.midway (h : c.Alike ρ session session') :
    c.Midway session session' ρ [] session.store session'.store where
  ground := ⟨h.stores, h.detached.anchored, h.keeps⟩
  kept := h.kept_eq
  left := rfl
  right := rfl

theorem Midway.drop (h : c.Midway session session' ρ up store store') :
    c.Midway session session' ρ [] store store' := by
  refine ⟨?_, h.kept, h.left, h.right⟩
  have hground := h.ground
  clear h
  induction up with
  | nil => exact hground
  | cons q up ih => exact ih hground.tail

/-- A step that ends the run leaves stores that differ in numbers only. -/
theorem Midway.leftBehind {st st' : State}
    (h : c.Midway session session' ρ st.stack st.store st'.store)
    (hcontrol : st'.control = st.control.rename ρ)
    (hstack : st'.stack = st.stack.map (·.rename ρ)) :
    c.Midway session session' ρ [] st.leftBehind st'.leftBehind := by
  obtain ⟨control, stack, store⟩ := st
  obtain ⟨control', stack', store'⟩ := st'
  obtain rfl : control' = control.rename ρ := hcontrol
  obtain rfl : stack' = stack.map (·.rename ρ) := hstack
  have hleave {q : Pending} {up : List Pending}
      (h : c.Midway session session' ρ (q :: up) store store') :
      c.Midway session session' ρ [] (store.release q.owned?)
        (store'.release (q.rename ρ).owned?) := by
    rw [q.owned?_rename]
    have hback : c.Midway session session' ρ up (store.release q.owned?)
        (store'.release (q.owned?.map ρ.frame)) :=
      ⟨h.ground.release.1, h.kept, by rw [Store.suspensions_release,
      h.left], by rw [Store.suspensions_release, h.right]⟩
    exact hback.drop
  cases stack with
  | nil => cases control <;> exact h
  | cons q up =>
    cases control with
    | eval e frame => exact h.drop
    | value | exit | request => exact hleave h

/-- Outcomes that follow each other above what the sessions keep are side by side. -/
theorem Beside.of_follows {step : Step} (hmid : c.Midway session session' ρ [] store store')
    (h : c.Follows (fun _ => False) (step.under session.kept) (step'.under session'.kept))
    (hl : step.Leaves store) (hr : step'.Leaves store') : c.Beside session session' step step' := by
  have hlength : session'.kept.length = session.kept.length := by rw [hmid.kept, length_map]
  cases step with
  | done => exact hl.elim
  | fail e store₁ =>
    cases step' with
    | done => exact hr.elim
    | next st' => exact h.elim
    | fail e' store₁' =>
      obtain rfl := hl
      obtain rfl := hr
      exact ⟨Eq.symm h, ρ, hmid⟩
  | next st =>
    cases step' with
    | done => exact hr.elim
    | fail e' store₁' => exact h.elim
    | next st' =>
      obtain ⟨ρ₁, hground, hkeeps, hcontrol, hstack⟩ := h
      obtain ⟨hup, hkept⟩ := append_inj' ((hstack.trans map_append)) (by rw [hlength, length_map])
      exact ⟨ρ₁, ⟨hground, hkept, hl.trans hmid.left, hr.trans hmid.right⟩, hkeeps, hcontrol, hup⟩

/-- **Steps keep two sessions side by side.** -/
theorem Beside.step (ha : c.Agrees) {st st' : State}
    (h : c.Beside session session' (.next st) (.next st')) :
    c.Beside session session' (c.left.step st) (c.right.step st') := by
  obtain ⟨ρ, hmid, hkeeps, hcontrol, hstack⟩ := h
  have hfailed := hmid.leftBehind hcontrol hstack
  obtain ⟨control, up, store⟩ := st
  obtain ⟨control', up', store'⟩ := st'
  obtain rfl : control' = control.rename ρ := hcontrol
  obtain rfl : up' = up.map (·.rename ρ) := hstack
  by_cases hup : up ≠ [] ∨ ∃ e frame, control = .eval e frame
  · have hup' := Control.above_rename ρ hup
    -- the ground holds above what the sessions keep, and the step does not look there
    have hfollows := hmid.ground.step ha hkeeps
    rw [map_append, ← hmid.kept, Setting.step_under _ _ hup,
      Setting.step_under _ _ hup'] at hfollows
    exact .of_follows hfailed hfollows (c.left.acts_step [] hup store).leaves
      (c.right.acts_step [] hup' store').leaves
  · -- nothing is left to do
    rw [not_or, not_not] at hup
    obtain ⟨rfl, hne⟩ := hup
    have hne' (e : Expr) (frame : FrameId) : control.rename ρ ≠ .eval e frame := by
      intro heq
      cases control with
      | eval e frame => exact hne ⟨e, frame, rfl⟩
      | value | exit | request => cases heq
    rw [c.left.step_of_nil (fun e frame heq => hne ⟨e, frame, heq⟩), map_nil,
      c.right.step_of_nil hne']
    exact ⟨ρ, hmid, hkeeps, rfl⟩

/-! ### Commands -/

section Twins

variable {p : Program} {a : EffectAnalysis} {recycle recycle' : Bool}
  (h : (twins p a recycle recycle').Alike ρ session session')
include h

/-- What the host hands over may be kept. -/
theorem Alike.keeps_link? {v w : Value} (hlink : v.link? session.handles = some w) :
    (twins p a recycle recycle').KeepsValue session.store.frames
      session.store.continuations.size w := by
  intro t ht
  obtain ht | ⟨-, ht⟩ := Value.mem_callables_link? hlink t ht
  · exact keepsPending_handed.mp (h.keeps _ mem_cons_self) t ht
  · exact .of_isPortable ht fun _ _ => trivial

theorem Alike.keeps_linkAll? {args vs : List Value}
    (hlink : linkAll? session.handles args = some vs) :
    ∀ v ∈ vs, (twins p a recycle recycle').KeepsValue session.store.frames
      session.store.continuations.size v := by
  intro v hv t ht
  have htuple : (Value.tuple args).link? session.handles = some (.tuple vs) := by
    rw [Value.link?, hlink]; rfl
  refine h.keeps_link? htuple t ?_
  rw [Value.callables, allCallables_eq_flatMap]
  exact mem_flatMap.mpr ⟨v, hv, ht⟩

theorem Alike.start_call (name : String) (args : List Value) :
    (twins p a recycle recycle').Beside session session'
      (session.start ⟨p, a, recycle⟩ (.call name args))
      (session'.start ⟨p, a, recycle'⟩ (.call name args)) := by
  simp only [Session.start, h.handles, linkAll?_rename]
  cases hlink : linkAll? session.handles args with
  | none => exact ⟨rfl, ρ, h.midway⟩
  | some vs =>
    simp only [Option.map_some, Setting.startCall, renameAll_eq_map]
    cases p.functionNamed? name with
    | none => exact ⟨rfl, ρ, h.midway⟩
    | some f =>
      have hfollows := h.midway.ground.callFn agrees_twins
        (show (twins p a recycle recycle').known f.id from trivial) (h.keeps_linkAll? hlink)
      have hacts (s : Setting) (vs : List Value) (store : Store) (below : List Pending) :
          Step.Acts below (fun _ => False) store (s.callFn f.id vs [] store)
            (s.callFn f.id vs ([] ++ below) store) :=
        s.acts_callFn below f.id vs
      rw [nil_append, ← h.kept_eq, ← nil_append session.kept, ← nil_append session'.kept,
        (hacts _ _ _ _).under, (hacts _ _ _ _).under] at hfollows
      exact .of_follows h.midway hfollows (hacts _ _ _ []).leaves (hacts _ _ _ []).leaves

/-- A resumption is counted on both sides, and the rest of the computation put back. -/
theorem Alike.start_resume (id : SuspensionId) (answer : Value) :
    ∃ session₁ session₁', (twins p a recycle recycle').Alike ρ session₁ session₁' ∧
      session₁.handles = session.handles ∧ session₁'.handles = session'.handles ∧
      (twins p a recycle recycle').Beside session₁ session₁'
      (session.start ⟨p, a, recycle⟩ (.resume id answer))
        (session'.start ⟨p, a, recycle'⟩ (.resume id answer)) := by
  simp only [Session.start, h.handles, Value.link?_rename]
  cases hlink : answer.link? session.handles with
  | none => exact ⟨session, session', h, rfl, h.handles, rfl, ρ, h.midway⟩
  | some v =>
    simp only [Option.map_some, Setting.startResume, h.suspensions, Array.getElem?_map]
    cases hk : session.store.suspensions[id.index]? with
    | none => exact ⟨session, session', h, rfl, h.handles, rfl, ρ, h.midway⟩
    | some k =>
      by_cases hused : k.kind = .tail ∧ 1 ≤ k.resumed
      · simp only [Option.map_some]
        rw [if_pos hused,
          if_pos (show (k.rename ρ).kind = .tail ∧ 1 ≤ (k.rename ρ).resumed from hused)]
        exact ⟨session, session', h, rfl, h.handles, rfl, ρ, h.midway⟩
      · simp only [Option.map_some]
        rw [if_neg hused,
          if_neg (show ¬ ((k.rename ρ).kind = .tail ∧ 1 ≤ (k.rename ρ).resumed) from hused)]
        -- the resumption is counted, and the constructs of the suspended call are put back
        have hcounted := h.with_suspensions (map_rest_setIfInBounds (m := k.resumed + 1) hk)
        have hmem (q : Pending) (hq : q ∈ k.rest) : q ∈ session.kept :=
          mem_cons_of_mem _
            (mem_flatMap.mpr ⟨k, Array.mem_toList_iff.mpr (Array.mem_of_getElem? hk), hq⟩)
        have hrest : Detached session.store.frames k.rest := fun q hq => h.detached q (hmem q hq)
        have hback := hcounted.midway.ground.put_back hrest fun q hq => h.keeps q (hmem q hq)
        refine ⟨_, _, hcounted, rfl, h.handles, ?_⟩
        have hcount : (session.store.suspensions.map (·.rename ρ)).setIfInBounds id.index
            { k.rename ρ with resumed := (k.rename ρ).resumed + 1 } =
            (session.store.suspensions.setIfInBounds id.index
            { k with resumed := k.resumed + 1 }).map (·.rename ρ) := by
          rw [Array.map_setIfInBounds]
          rfl
        rw [hcount, reverseAux_eq, reverseAux_eq, append_nil, append_nil]
        exact ⟨ρ, ⟨hback, hcounted.kept_eq, rfl, rfl⟩, h.keeps_link? hlink, rfl, map_reverse.symm⟩

theorem Alike.start (command : Command) :
    ∃ session₁ session₁', (twins p a recycle recycle').Alike ρ session₁ session₁' ∧
      session₁.handles = session.handles ∧ session₁'.handles = session'.handles ∧
      (twins p a recycle recycle').Beside session₁ session₁' (session.start ⟨p, a, recycle⟩ command)
        (session'.start ⟨p, a, recycle'⟩ command) := by
  cases command with
  | call name args => exact ⟨session, session', h, rfl, rfl, h.start_call name args⟩
  | resume id answer => exact h.start_resume id answer

end Twins

/-! ### Replies -/

/-- A session whose command is over. -/
theorem Midway.alike (h₀ : c.Alike ρ₀ session session')
    (h : c.Midway session session' ρ [] store store') :
    c.Alike ρ ⟨store, session.handles⟩ ⟨store', session'.handles⟩ := by
  have hkept : Session.kept ⟨store, session.handles⟩ = session.kept := by
    simp only [Session.kept, h.left]
  -- the command may have renumbered frames, but not those that the session keeps
  have hsame : ∀ q ∈ session.kept, q.rename ρ₀ = q.rename ρ :=
    map_inj_left.mp (h₀.kept_eq.symm.trans h.kept)
  refine ⟨h.ground.toStores, ?_, ?_, ?_, ?_⟩
  · rw [hkept]
    exact h.ground.anchored.detached fun q hq => (h₀.detached q hq).1
  · rw [hkept]
    exact h.ground.stack
  · have hhanded : handed session'.handles = (handed session.handles).rename ρ :=
      (List.cons.inj h.kept).1
    rw [handed_rename] at hhanded
    exact handed_inj hhanded
  · rw [h.right, h.left, h₀.suspensions]
    refine Array.map_congr_left fun k hk => ?_
    have hrest : k.rest.map (·.rename ρ₀) = k.rest.map (·.rename ρ) := map_congr_left fun q hq =>
      hsame q (mem_cons_of_mem _ (mem_flatMap.mpr ⟨k, Array.mem_toList_iff.mpr hk, hq⟩))
    rw [Suspended.rename, Suspended.rename, hrest]

/-- Callables are handed out under the same numbers. -/
theorem Alike.hand (h : c.Alike ρ ⟨store, session.handles⟩ ⟨store', session'.handles⟩)
    {ts : List Callable} (hts : ∀ t ∈ ts, c.KeepsCallable store.frames store.continuations.size t) :
    c.Alike ρ ⟨store, session.handles ++ ts⟩ ⟨store', session'.handles ++ ts.map (·.rename ρ)⟩ := by
  obtain ⟨hhanded, hrest⟩ := forall_mem_cons.mp h.keeps
  refine ⟨h.stores, ?_, ?_, ?_, h.suspensions⟩
  · refine forall_mem_cons.mpr ⟨?_, (forall_mem_cons.mp h.detached).2⟩
    exact ⟨rfl, by simp [handed, Pending.frame?]⟩
  · refine forall_mem_cons.mpr ⟨?_, hrest⟩
    exact keepsPending_handed.mpr (forall_mem_append.mpr ⟨keepsPending_handed.mp hhanded, hts⟩)
  · rw [map_append]
    exact congrArg (· ++ _) h.handles

theorem Alike.suspend (h : c.Alike ρ session session') {rest : List Pending}
    (hrest : Detached session.store.frames rest)
    (hkept : ∀ q ∈ rest, c.KeepsPending session.store.frames session.store.continuations.size q)
    (kind : ResumeKind) :
    c.Alike ρ { session with store.suspensions := session.store.suspensions.push { rest, kind } }
      { session' with store.suspensions :=
          session'.store.suspensions.push { rest := rest.map (·.rename ρ), kind } } := by
  have hmem {q : Pending}
      (hq : q ∈ Session.kept
        { session with store.suspensions := session.store.suspensions.push { rest, kind } }) :
      q ∈ session.kept ∨ q ∈ rest := by
    simpa [Session.kept, or_assoc] using hq
  refine ⟨⟨h.stores.frames, h.stores.cont, h.stores.cont_inj, h.stores.detached, h.stores.kept⟩,
    fun q hq => ?_,
    fun q hq => ?_, h.handles, ?_⟩
  · exact (hmem hq).elim (h.detached q) (hrest q)
  · exact (hmem hq).elim (h.keeps q) (hkept q)
  · rw [h.suspensions, Array.map_push]
    rfl

/-- Two ends of a command: the host is told the same, and the sessions after it differ in numbers
only. -/
def Concluded (c : Sharing) (session session' : Session) (after after' : After Outcome) : Prop :=
  (Session.conclude session.handles after).1 = (Session.conclude session'.handles after').1 ∧
    ∃ ρ, c.Alike ρ (Session.conclude session.handles after).2
      (Session.conclude session'.handles after').2

theorem Midway.concluded_error (h₀ : c.Alike ρ₀ session session')
    (h : c.Midway session session' ρ [] store store') (e : EvalError) :
    c.Concluded session session' ⟨.error e, store⟩ ⟨.error e, store'⟩ :=
  ⟨rfl, ρ, h.alike h₀⟩

theorem Midway.concluded_value (h₀ : c.Alike ρ₀ session session')
    (h : c.Midway session session' ρ [] store store') {v : Value} (hv : c.ValueIn store v) :
    c.Concluded session session' ⟨.ok (.value v), store⟩ ⟨.ok (.value (v.rename ρ)), store'⟩ := by
  refine ⟨congrArg Reply.value v.rename_forget.symm, ρ, ?_⟩
  have halike := (h.alike h₀).hand hv
  rw [← Value.callables_rename] at halike
  exact halike

/-- A request is handed out alike, and its suspension gets the same number. -/
theorem Midway.concluded_request (h₀ : c.Alike ρ₀ session session')
    (h : c.Midway session session' ρ [] store store') (hprogram : c.right.program = c.left.program)
    {op : OpRef} {args : List Value} {rest : List Pending}
    (hkeeps : c.ControlIn store session.kept (.request op args rest)) :
    c.Concluded session session' (c.left.outcome (.request op args rest) store)
      (c.right.outcome (.request op (args.map (·.rename ρ)) (rest.map (·.rename ρ))) store') := by
  obtain ⟨hargs, hrest⟩ := hkeeps
  have halike := h.alike h₀
  have hsize : store'.suspensions.size = store.suspensions.size := by
    rw [show store'.suspensions = _ from halike.suspensions, Array.size_map]
  simp only [Setting.outcome, hprogram]
  cases c.left.program.effect? op.effect with
  | none => exact h.concluded_error h₀ _
  | some effect =>
    cases c.left.program.op? op with
    | none => exact h.concluded_error h₀ _
    | some decl =>
      have hdetached : Detached store.frames rest := fun q hq => ⟨(hrest q hq).2.1, fun frame hf =>
        h.ground.anchored.pinned_of_usable (fun q hq => (h₀.detached q hq).1)
          ((hrest q hq).2.2 frame hf)⟩
      have hsuspended := halike.suspend hdetached (fun q hq => (hrest q hq).1) decl.kind
      refine ⟨?_, ρ, ?_⟩
      · simp [Session.conclude, hsize, Value.rename_forget]
      · have hcallables : (args.map (·.rename ρ)).flatMap Value.callables =
            (args.flatMap Value.callables).map (·.rename ρ) := by
          rw [flatMap_map, map_flatMap]
          simp only [Value.callables_rename]
        have hkept : ∀ t ∈ args.flatMap Value.callables, c.KeepsCallable store.frames
            store.continuations.size t := by
          intro t ht
          obtain ⟨v, hv, ht⟩ := mem_flatMap.mp ht
          exact hargs v hv t ht
        simp only [Session.conclude, hcallables]
        exact hsuspended.hand hkept

theorem Beside.concluded (h₀ : c.Alike ρ₀ session session')
    (hprogram : c.right.program = c.left.program) {control' : Control}
    (h : c.Beside session session' (.done control store) (.done control' store')) :
    c.Concluded session session' (c.left.outcome control store)
      (c.right.outcome control' store') := by
  obtain ⟨ρ, hmid, hkeeps, rfl⟩ := h
  cases control with
  | eval e frame => exact hmid.concluded_error h₀ _
  | value v => exact hmid.concluded_value h₀ hkeeps
  | exit x =>
    cases x with
    | ret v => exact hmid.concluded_value h₀ (hkeeps v rfl)
    | transfer handle v => exact hmid.concluded_value h₀ (hkeeps v rfl)
    | breakLoop | continueLoop => exact hmid.concluded_error h₀ _
  | request op args rest => exact hmid.concluded_request h₀ hprogram hkeeps

/-- Runs side by side end alike, or neither ends. -/
theorem Beside.settle (ha : c.Agrees) (h₀ : c.Alike ρ₀ session session')
    (hprogram : c.right.program = c.left.program) {step : Step}
    (h : c.Beside session session' step step') (fuel : Nat) :
    c.left.settle fuel step = none ∧ c.right.settle fuel step' = none ∨
    ∃ after after', c.left.settle fuel step = some after ∧ c.right.settle fuel step' = some after' ∧
      c.Concluded session session' after after' := by
  induction fuel generalizing step step' with
  | zero => exact .inl ⟨rfl, rfl⟩
  | succ fuel ih =>
    cases step with
    | next st =>
      cases step' with
      | next st' => exact ih (h.step ha)
      | fail | done => exact h.elim
    | fail e store =>
      cases step' with
      | fail e' store' =>
        obtain ⟨rfl, ρ, hmid⟩ := h
        exact .inr ⟨_, _, rfl, rfl, hmid.concluded_error h₀ e'⟩
      | next | done => exact h.elim
    | done control store =>
      cases step' with
      | done control' store' => exact .inr ⟨_, _, rfl, rfl, h.concluded h₀ hprogram⟩
      | next | fail => exact h.elim

/-! ### Whole sessions -/

section Twins

variable {p : Program} {a : EffectAnalysis} {recycle recycle' : Bool}
  (h : (twins p a recycle recycle').Alike ρ session session')
include h

/-- A command has the same reply on both sides. -/
theorem Alike.perform (fuel : Nat) (command : Command) :
    session.perform ⟨p, a, recycle⟩ fuel command = none ∧
      session'.perform ⟨p, a, recycle'⟩ fuel command = none ∨
    ∃ ρ₁ reply session₁ session₁', session.perform ⟨p, a, recycle⟩ fuel command =
      some (reply, session₁) ∧ session'.perform ⟨p, a, recycle'⟩ fuel command =
      some (reply, session₁') ∧ (twins p a recycle recycle').Alike ρ₁ session₁ session₁' := by
  obtain ⟨first, first', hfirst, hhandles, hhandles', hbeside⟩ := h.start command
  obtain ⟨hl, hr⟩ | ⟨after, after', hl, hr, hreply, ρ₁, hafter⟩ :=
    hbeside.settle agrees_twins hfirst rfl fuel
  · exact .inl ⟨congrArg (Option.map _) hl, congrArg (Option.map _) hr⟩
  · rw [hhandles, hhandles'] at hreply hafter
    refine .inr ⟨ρ₁, _, _, _, congrArg (Option.map _) hl, (congrArg (Option.map _) hr).trans
      ?_, hafter⟩
    exact congrArg some (Prod.ext hreply.symm rfl)

/-- **Sessions that differ in numbers stay so, and the host is told the same.** -/
theorem Alike.performAll (fuel : Nat) (commands : List Command) :
    session.performAll ⟨p, a, recycle⟩ fuel commands = none ∧
      session'.performAll ⟨p, a, recycle'⟩ fuel commands = none ∨
    ∃ ρ₁ replies session₁ session₁', session.performAll ⟨p, a, recycle⟩ fuel commands =
      some (replies, session₁) ∧ session'.performAll ⟨p, a, recycle'⟩ fuel commands =
      some (replies, session₁') ∧ (twins p a recycle recycle').Alike ρ₁ session₁ session₁' := by
  induction commands generalizing ρ session session' with
  | nil => exact .inr ⟨ρ, [], session, session', rfl, rfl, h⟩
  | cons command commands ih =>
    simp only [Session.performAll]
    obtain ⟨hl, hr⟩ | ⟨ρ₁, reply, session₁, session₁', hl, hr, h₁⟩ := h.perform fuel command
    · exact .inl ⟨by rw [hl]; rfl, by rw [hr]; rfl⟩
    · rw [hl, hr, Option.bind_some, Option.bind_some]
      obtain ⟨hl, hr⟩ | ⟨ρ₂, replies, session₂, session₂', hl, hr, h₂⟩ := ih h₁
      · exact .inl ⟨congrArg (Option.map _) hl, congrArg (Option.map _) hr⟩
      · exact .inr ⟨ρ₂, reply :: replies, session₂, session₂', congrArg (Option.map _) hl,
          congrArg (Option.map _) hr, h₂⟩

end Twins

end Sharing

/-! ### Frames along a session -/

theorem Sharing.Beside.after {c : Sharing} (ha : c.Agrees) {session session' : Session}
    {step : Step} (h : c.Beside session session' step step') (n : Nat) :
    c.Beside session session' (c.left.after n step) (c.right.after n step') := by
  induction n generalizing step step' with
  | zero => exact h
  | succ n ih =>
    cases step with
    | next st =>
      cases step' with
      | next st' => exact ih (h.step ha)
      | fail | done => exact h.elim
    | fail | done =>
      cases step' with
      | next st' => exact h.elim
      | fail | done => exact h

theorem Sharing.Beside.sound {c : Sharing} {session session' : Session} {step : Step}
    (h : c.Beside session session' step step') : step.store.frames.Sound := by
  cases step with
  | next st =>
    cases step' with
    | next st' =>
      obtain ⟨ρ, hmid, -⟩ := h
      exact hmid.ground.frames.sound
    | fail | done => exact h.elim
  | fail e store =>
    cases step' with
    | fail e' store' =>
      obtain ⟨-, ρ, hmid⟩ := h
      exact hmid.ground.frames.sound
    | next | done => exact h.elim
  | done control store =>
    cases step' with
    | done control' store' =>
      obtain ⟨ρ, hmid, -⟩ := h
      exact hmid.ground.frames.sound
    | next | fail => exact h.elim

namespace Frames

/-- The second frame is the parent of the first. -/
def HasParent (fs : Frames) (x q : FrameId) : Prop := ∃ f, fs.cell? x = some f ∧ f.parent = some q

/-- No frame is free twice, and frames that are kept for good are not free and have ancestors that
are kept for good. -/
structure Orderly (fs : Frames) : Prop where
  nodup : fs.free.Nodup
  not_free : ∀ x, fs.Pinned x → x ∉ fs.free
  ancestor : ∀ x y, fs.Pinned x → Relation.TransGen fs.HasParent x y → fs.Pinned y

/-- What soundness says of the free list and the ancestors. -/
theorem Sound.orderly (h : fs.Sound) : fs.Orderly where
  nodup := h.nodup_free
  not_free x hx := (hx.inUse h).2
  ancestor x y _ hy := by
    obtain ⟨z, -, f, hf, hparent⟩ := Relation.TransGen.tail'_iff.mp hy
    exact h.parent z f y hf hparent

end Frames

/-- **Using frames again cannot be observed.** Whatever a host asks for, it is told the same as
without; and at every point of every command no frame is free twice, no pinned frame is free, and
the ancestors of pinned frames are pinned. -/
theorem performAll_recycle_eq (p : Program) (a : EffectAnalysis) (fuel : Nat)
    (commands : List Command) :
    (Session.performAll ⟨p, a, true⟩ fuel {} commands).map (·.1) =
      (Session.performAll ⟨p, a, false⟩ fuel {} commands).map (·.1) ∧
    ∀ replies session, Session.performAll ⟨p, a, true⟩ fuel {} commands = some (replies, session) →
      ∀ command n, (Setting.after ⟨p, a, true⟩ n
        (session.start ⟨p, a, true⟩ command)).store.frames.Orderly := by
  obtain ⟨hl, hr⟩ | ⟨ρ, replies, session, session', hl, hr, halike⟩ :=
    (Sharing.alike_empty (.twins p a true false)).performAll fuel commands
  · exact ⟨by rw [hl, hr], fun replies session h => by rw [hl] at h; cases h⟩
  · refine ⟨by rw [hl, hr]; rfl, fun replies₁ session₁ h command n => ?_⟩
    obtain ⟨-, rfl⟩ := Prod.mk.inj (Option.some.inj (hl.symm.trans h))
    obtain ⟨first, first', -, -, -, hbeside⟩ := halike.start command
    exact (hbeside.after Sharing.agrees_twins n).sound.orderly

/-- `make` asks the host and gives a closure over what it was told; `use` calls a closure. -/
def adders : Program where
  effects := [{ id := ⟨0⟩, name := "Talk", ops := [⟨"ask", 0, [], .i32, .resume⟩] }]
  functions := [
    { id := ⟨1⟩, name := "same", params := [⟨0⟩], ret := .i32, locals := [⟨"x", .i32⟩]
      body := .i32 0 (.var ⟨0⟩) },
    { id := ⟨2⟩, name := "make", params := [⟨0⟩], ret := .fn [.i32] .i32
      locals := [⟨"n", .i32⟩, ⟨"r", .i32⟩, ⟨"y", .i32⟩]
      body := .node ⟨1⟩ (.block
        [.bind ⟨1⟩ (some (.i32 2 (.binary .add
          (.i32 3 (.call (.node ⟨4⟩ (.fn ⟨1⟩) (.fn [.i32] .i32) {})
            [.i32 5 (.var ⟨0⟩)]))
          (.i32 6 (.perform ⟨⟨0⟩, 0⟩ [] [])))))]
        (some (.node ⟨7⟩ (.closure [⟨2⟩] (.i32 8 (.binary .add (.i32 9 (.var ⟨1⟩))
          (.i32 10 (.var ⟨2⟩))))) (.fn [.i32] .i32) {}))) (.fn [.i32] .i32) {} },
    { id := ⟨3⟩, name := "use", params := [⟨0⟩, ⟨1⟩], ret := .i32,
      locals := [⟨"f", .fn [.i32] .i32⟩, ⟨"y", .i32⟩]
      body := .i32 11 (.call (.node ⟨12⟩ (.fn ⟨1⟩) (.fn [.i32] .i32) {})
        [.i32 13 (.call (.node ⟨14⟩ (.var ⟨0⟩) (.fn [.i32] .i32) {})
          [.i32 15 (.var ⟨1⟩)])]) }]

/-- The suspended call is resumed twice, and the host passes a closure on that it was given. -/
def adderCommands : List Command :=
  [.call "make" [.i32 3], .resume ⟨0⟩ (.i32 10),
    .call "use" [.callable (.continuation ⟨0⟩), .i32 1], .resume ⟨0⟩ (.i32 20),
    .call "use" [.callable (.continuation ⟨1⟩), .i32 1]]

theorem performAll_recycle_eq_adders :
    let s (recycle : Bool) : Setting := ⟨adders, adders.analyze false, recycle⟩
    ∃ replies session session', Session.performAll (s true) 100 {} adderCommands =
      some (replies, session) ∧
      Session.performAll (s false) 100 {} adderCommands = some (replies, session') ∧
      session.store.frames.cells.size < session'.store.frames.cells.size ∧
      ∀ command n, ((s true).after n (session.start (s true) command)).store.frames.Orderly := by
  intro s
  have hsize : (Session.performAll (s true) 100 {} adderCommands).map
      (·.2.store.frames.cells.size) = some 3 := by
    decide +kernel
  have hsize' : (Session.performAll (s false) 100 {} adderCommands).map
      (·.2.store.frames.cells.size) = some 8 := by
    decide +kernel
  obtain ⟨⟨replies, session⟩, hrun, hcells⟩ := Option.map_eq_some_iff.mp hsize
  obtain ⟨⟨replies', session'⟩, hrun', hcells'⟩ := Option.map_eq_some_iff.mp hsize'
  obtain ⟨hsame, horderly⟩ := performAll_recycle_eq adders (adders.analyze false) 100 adderCommands
  obtain rfl : replies = replies' := by
    rw [hrun, hrun'] at hsame
    exact Option.some.inj hsame
  dsimp only at hcells hcells'
  exact ⟨replies, session, session', hrun, hrun', by omega, horderly _ _ hrun⟩

end Effectful.Interp
