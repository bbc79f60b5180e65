import Effectful.Compiler.Compile
import Effectful.Host.Runner
import Effectful.Proofs.Assoc
import Effectful.Proofs.Computation
/-!
# Handlers that a run calls

A run of a module has its requests answered by the handlers of a registry.  Whatever the code of the
module does with the buffer, a handler is called only for a request that agrees with the effect
table, and it sees what the table says about the operation (`Runner.calls_of_run`).

To speak about the calls, handlers are made to note them (`Registry.noted`).  The notes change
nothing else (`Notes`): a computation with noting handlers ends as the computation itself does, and
the notes that it adds are what it has called.
-/

namespace Effectful.Host

open List

open Target

variable {σ : Type}

/-! ### Notes -/

/-- A call of a handler that was found under a key. -/
structure Invocation where
  key : HandlerKey
  call : HandlerCall

def Handler.noted (key : HandlerKey) (handler : Handler σ) : Handler (σ × List Invocation) :=
  fun (state, notes) call =>
  ((handler state call).1, (handler state call).2, notes ++ [⟨key, call⟩])

/-- The registry with handlers that note their calls. -/
def Registry.noted (registry : Registry σ) : Registry (σ × List Invocation) :=
  registry.map fun (key, handler) => (key, handler.noted key)

def HostState.withNotes (s : HostState σ) (notes : List Invocation) :
    HostState (σ × List Invocation) :=
  ⟨s.store, s.host, notes⟩

/-- The first computation does what the second one does and adds notes.  How it ends and what it
adds has a property. -/
def Notes {α : Type} (noting : HostM (σ × List Invocation) α) (x : HostM σ α)
    (P : Except RunError α → List Invocation → Prop) : Prop :=
  ∀ s notes, ∃ added, noting (s.withNotes notes) = ((x s).1, (x s).2.withNotes (notes ++ added)) ∧
    P (x s).1 added

variable {α β : Type} {noting : HostM (σ × List Invocation) α} {x : HostM σ α}
  {noting' : α → HostM (σ × List Invocation) β} {f : α → HostM σ β}

section

variable {P : Except RunError α → List Invocation → Prop}
  {R : Except RunError β → List Invocation → Prop}

/-- One computation after another. -/
theorem Notes.bind {Q : α → Except RunError β → List Invocation → Prop} (h : Notes noting x P)
    (h' : ∀ v, Notes (noting' v) (f v) (Q v))
    (hok : ∀ v added r added', P (.ok v) added → Q v r added' → R r (added ++ added'))
    (herror : ∀ e added, P (.error e) added → R (.error e) added) :
    Notes (noting >>= noting') (x >>= f) R := by
  intro s notes
  obtain ⟨added, hrun, hP⟩ := h s notes
  cases hx : x s with
  | mk r s' =>
    rw [hx] at hrun hP
    cases r with
    | error e =>
      rw [bind_of_error hrun, bind_of_error hx]
      exact ⟨added, rfl, herror e added hP⟩
    | ok v =>
      obtain ⟨added', hrun', hQ⟩ := h' v s' (notes ++ added)
      rw [bind_of_ok hrun, bind_of_ok hx, hrun', append_assoc]
      exact ⟨added ++ added', rfl, hok v added _ added' hP hQ⟩

theorem Notes.mono {Q : Except RunError α → List Invocation → Prop} (h : Notes noting x P)
    (hPQ : ∀ r added, P r added → Q r added) : Notes noting x Q := by
  intro s notes
  obtain ⟨added, hrun, hP⟩ := h s notes
  exact ⟨added, hrun, hPQ _ _ hP⟩

end

/-! ### What calls no handler -/

/-- Nothing is called, and the bound on requests is not the reason for a failure. -/
def Silent {α : Type} (r : Except RunError α) (added : List Invocation) : Prop :=
  added = [] ∧ ∀ n, r ≠ .error (.stepLimit n)

/-- A computation that works on the store alone. -/
theorem notes_silent (f : Store → Except RunError α × Store)
    (hnoting : ∀ s, noting s = ((f s.store).1, ⟨(f s.store).2, s.host⟩))
    (hx : ∀ s, x s = ((f s.store).1, ⟨(f s.store).2, s.host⟩))
    (hlimit : ∀ store n, (f store).1 ≠ .error (.stepLimit n)) :
    Notes noting x Silent := by
  intro s notes
  refine ⟨[], ?_, rfl, fun n => ?_⟩
  · rw [hnoting, hx, append_nil]
    rfl
  · rw [hx]
    exact hlimit s.store n

theorem notes_silent_bind (h : Notes noting x Silent) (h' : ∀ v, Notes (noting' v) (f v) Silent) :
    Notes (noting >>= noting') (x >>= f) Silent :=
  h.bind h' (fun _ _ _ _ hs hs' => ⟨by rw [hs.1, hs'.1]; rfl, hs'.2⟩)
  fun _ _ hs => ⟨hs.1, by simpa using hs.2⟩

theorem notes_pure (v : α) : Notes (σ := σ) (pure v) (pure v) Silent :=
  notes_silent (fun store => (.ok v, store)) (fun _ => rfl) (fun _ => rfl) (by simp)

theorem notes_throw {why : RunError} (h : ∀ n, why ≠ .stepLimit n) :
    Notes (σ := σ) (α := α) (throw why) (throw why) Silent :=
  notes_silent (fun store => (.error why, store)) (fun _ => rfl) (fun _ => rfl) (by simpa using h)

namespace Runner

variable (r : Runner)

theorem notes_message : Notes (σ := σ) r.message r.message Silent := by
  let f : Store → Except RunError (List UInt8) := fun store =>
    if r.buffer.isIn store.memory then
      .ok (store.memory.bytes r.layout.bufferOffset (min r.layout.bufferLength Wire.longestMessage))
    else .error .memoryTooSmall
  have hrun (τ : Type) (s : HostState τ) : r.message s = (f s.store, s) := by
    show (if _ then _ else _ : HostM τ (List UInt8)) s = _
    simp only [f]
    split <;> rfl
  refine notes_silent (fun store => (f store, store)) (hrun _) (hrun _) fun store n => ?_
  simp only [f]
  split <;> simp

theorem notes_writeBuffer (write : Region → WriteM α) : Notes (σ := σ) (r.writeBuffer write)
    (r.writeBuffer write) Silent := by
  let f : Store → Except RunError Unit × Store := fun store =>
    (((write r.buffer store.memory).1.map fun _ => ()).mapError .wire,
      ⟨(write r.buffer store.memory).2, store.heap⟩)
  have hrun (τ : Type) (s : HostState τ) : r.writeBuffer write
      s = ((f s.store).1, ⟨(f s.store).2, s.host⟩) := by
    obtain ⟨⟨memory, heap⟩, host⟩ := s
    rw [writeBuffer, modifyGet_bind]
    simp only [f]
    rcases write r.buffer memory with ⟨_ | _, _⟩ <;> rfl
  refine notes_silent f (hrun _) (hrun _) fun store n => ?_
  simp only [f]
  cases (write r.buffer store.memory).1 <;> simp [Except.map, Except.mapError]

theorem notes_decoded (v : Except WireError α) : Notes (σ := σ) (decoded v) (decoded v) Silent := by
  cases v with
  | ok v => exact notes_pure v
  | error why => exact notes_throw (by simp)

theorem notes_invoke (name : String) (args : List Val) :
    Notes (σ := σ) (r.invoke name args) (r.invoke name args) Silent := by
  let f : Store → Except RunError (Option Val) × Store := fun store =>
    ((r.machine.invoke name args store).1.mapError RunError.ofStop,
      (r.machine.invoke name args store).2)
  have hrun (τ : Type) (s : HostState τ) : r.invoke name args
      s = ((f s.store).1, ⟨(f s.store).2, s.host⟩) := by
    rw [invoke, modifyGet_bind]
    simp only [f]
    cases (r.machine.invoke name args s.store).1 <;> rfl
  refine notes_silent f (hrun _) (hrun _) fun store n => ?_
  simp only [f]
  cases (r.machine.invoke name args store).1 with
  | ok v => simp [Except.mapError]
  | error why => cases why <;> simp [Except.mapError, RunError.ofStop]

theorem notes_invokeOutcome (name : String) (args : List Val) :
    Notes (σ := σ) (r.invokeOutcome name args) (r.invokeOutcome name args) Silent := by
  refine notes_silent_bind (r.notes_invoke name args) fun found => ?_
  split
  · exact notes_pure _
  · exact notes_silent
      (fun store => (.error (.badOutcome (Val.detailOption store.heap found)), store))
      (fun _ => rfl) (fun _ => rfl) (by simp)

end Runner

/-! ### What calls a handler -/

/-- A key is the first one of a list that is registered. -/
def IsFirst (registered keys : List HandlerKey) (key : HandlerKey) : Prop :=
  ∃ before behind, keys = before ++ key :: behind ∧ key ∈ registered ∧ ∀ k ∈ before, k ∉ registered

theorem isFirst_of_resolve? {registered keys : List HandlerKey} {key : HandlerKey}
    (h : HandlerKey.resolve? registered keys = some key) : IsFirst registered keys key := by
  obtain ⟨hkey, before, behind, hkeys, hbefore⟩ := find?_eq_some_iff_append.mp h
  exact ⟨before, behind, hkeys, by simpa using hkey, fun k hk => by simpa using hbefore k hk⟩

namespace Registry

variable (registry : Registry σ)

theorem map_fst_noted : registry.noted.map (·.1) = registry.map (·.1) := by
  rw [noted, map_map]
  rfl

theorem get?_noted (key : HandlerKey) :
    Assoc.get? registry.noted key = (Assoc.get? registry key).map (Handler.noted key) := by
  induction registry with
  | nil => rfl
  | cons entry registry ih =>
    rw [noted, map_cons, Assoc.get?_cons, Assoc.get?_cons]
    split
    · rename_i hk
      rw [hk]
      rfl
    · exact ih

/-- The same handlers are found, and those that note do so under the key that was found. -/
theorem resolve?_cases (keys : List HandlerKey) :
    (registry.resolve? keys = none ∧ registry.noted.resolve? keys = none) ∨
      ∃ key handler, IsFirst (registry.map (·.1)) keys key ∧ registry.resolve? keys = some handler ∧
        registry.noted.resolve? keys = some (handler.noted key) := by
  cases hkey : HandlerKey.resolve? (registry.map (·.1)) keys with
  | none =>
    refine .inl ⟨?_, ?_⟩
    · rw [resolve?, hkey]
      rfl
    · rw [resolve?, map_fst_noted, hkey]
      rfl
  | some key =>
    have hfirst := isFirst_of_resolve? hkey
    obtain ⟨-, -, -, hmem, -⟩ := id hfirst
    obtain ⟨handler, hhandler⟩ := Assoc.exists_get? hmem
    refine .inr ⟨key, handler, hfirst, ?_, ?_⟩
    · rw [resolve?, hkey]
      exact hhandler
    · rw [resolve?, map_fst_noted, hkey]
      exact (registry.get?_noted key).trans (by rw [hhandler]; rfl)

end Registry

/-- What a handler sees is what the table says about the operation, and the handler is the one with
the most specific key. -/
structure Invocation.Agrees (i : Invocation) (table : EffectTable) (registered : List HandlerKey) :
    Prop where
  entry : ∃ e, table.get? i.call.opIndex = some e ∧
    i.call = .ofEntry e i.call.opIndex (i.call.opIndex + 1) i.call.args ∧
    IsFirst registered (HandlerKey.candidates e (i.call.opIndex + 1)) i.key

/-- At most one handler is called, and one if there is an answer. -/
structure AnswersOnce {α : Type} (table : EffectTable) (registered : List HandlerKey)
    (r : Except RunError α) (added : List Invocation) : Prop where
  agrees : ∀ i ∈ added, i.Agrees table registered
  length_le : added.length ≤ 1
  length_eq : ∀ v, r = .ok v → added.length = 1
  limit : ∀ n, r ≠ .error (.stepLimit n)

section

variable {table : EffectTable} {registered : List HandlerKey} {added : List Invocation}

theorem AnswersOnce.error {e : RunError}
    (h : AnswersOnce table registered (.error e : Except RunError α) added) :
    AnswersOnce table registered (.error e : Except RunError β) added :=
  ⟨h.agrees, h.length_le, by simp, fun n he => h.limit n (by rw [Except.error.inj he])⟩

theorem Silent.error {e : RunError} (h : Silent (.error e : Except RunError α) added) :
    AnswersOnce table registered (.error e : Except RunError β) added :=
  ⟨by simp [h.1], by simp [h.1], by simp, fun n he => h.2 n (by rw [Except.error.inj he])⟩

/-- What follows an answer calls no handler. -/
theorem Notes.answers_then (h : Notes noting x (AnswersOnce table registered))
    (h' : ∀ v, Notes (noting' v) (f v) Silent) :
    Notes (noting >>= noting') (x >>= f) (AnswersOnce table registered) := by
  refine h.bind h' (fun v added res added' hanswer hsilent => ?_)
    fun e added hanswer => hanswer.error
  rw [hsilent.1, append_nil]
  exact ⟨hanswer.agrees, hanswer.length_le, fun _ _ => hanswer.length_eq v rfl, hsilent.2⟩

/-- What comes before an answer calls no handler. -/
theorem Notes.then_answers (h : Notes noting x Silent)
    (h' : ∀ v, Notes (noting' v) (f v) (AnswersOnce table registered)) :
    Notes (noting >>= noting') (x >>= f) (AnswersOnce table registered) := by
  refine h.bind h' (fun v added res added' hsilent hanswer => ?_)
    fun e added hsilent => hsilent.error
  rw [hsilent.1]
  exact hanswer

end

namespace Runner

variable (r : Runner)

/-- The tests that a request for an operation of the table passes. -/
theorem validate_of_get? {e : EffectEnvelope} {entry : TableEntry}
    (h : r.table.get? e.opIndex = some entry) :
    r.validate e =
      if entry.effectId ≠ e.effectId ∨ entry.opId ≠ e.opId then
        .error (.opMismatch e.opIndex (.otherOp e.effectId e.opId entry.effectId entry.opId))
      else if r.handleOf? e.opIndex ≠
        some e.handle then .error (.opMismatch e.opIndex (.otherHandle e.handle))
      else if ResumeKind.ofCode? e.resumeCode ≠ some entry.kind then
        .error (.resumeKindMismatch entry.label entry.kind e.resumeCode)
      else .ok (.ofEntry entry e.opIndex e.handle e.args) := by
  rw [validate, h]
  rfl

/-- A request that is let through agrees with the table. -/
theorem validate_eq_ok {e : EffectEnvelope} {call : HandlerCall} (h : r.validate e = .ok call) :
    ∃ entry, r.table.get? e.opIndex = some entry ∧
      call = .ofEntry entry e.opIndex (e.opIndex + 1) e.args := by
  cases hentry : r.table.get? e.opIndex with
  | none =>
    rw [validate, hentry] at h
    cases h
  | some entry =>
    have hlt : e.opIndex < r.table.entries.length := (List.getElem?_eq_some_iff.mp hentry).1
    rw [validate_of_get? r hentry, handleOf?, if_pos hlt] at h
    split at h
    · cases h
    · split at h
      · cases h
      · rename_i hhandle
        split at h
        · cases h
        · rw [ne_eq, not_not, Option.some.injEq] at hhandle
          rw [hhandle]
          exact ⟨entry, rfl, (Except.ok.inj h).symm⟩

theorem validate_ne_stepLimit (e : EffectEnvelope) (n : Nat) :
    r.validate e ≠ .error (.stepLimit n) := by
  cases hentry : r.table.get? e.opIndex with
  | none =>
    rw [validate, hentry]
    simp [throw, throwThe, MonadExceptOf.throw]
  | some entry =>
    rw [validate_of_get? r hentry]
    repeat' split
    all_goals simp

variable (registry : Registry σ)

theorem dispatch_of_get? {call : HandlerCall} {e : TableEntry}
    (h : r.table.get? call.opIndex = some e)
    (s : HostState σ) : r.dispatch registry call s =
      match registry.resolve? (HandlerKey.candidates e call.handle) with
      | none => (.error (.missingHandler call.label), s)
      | some handler =>
        ((handler s.host call).1.mapError (.handler call.label),
          ⟨s.store, (handler s.host call).2⟩) := by
  rw [dispatch, h, Option.bind_some]
  cases registry.resolve? (HandlerKey.candidates e call.handle) with
  | none => rfl
  | some handler =>
    dsimp only
    rw [modifyGet_bind]
    cases (handler s.host call).1 <;> rfl

theorem notes_dispatch {call : HandlerCall} {e : TableEntry}
    (h : r.table.get? call.opIndex = some e)
    (hcall : call = .ofEntry e call.opIndex (call.opIndex + 1) call.args) :
    Notes (r.dispatch registry.noted call) (r.dispatch registry call)
      (AnswersOnce r.table (registry.map (·.1))) := by
  intro s notes
  rw [dispatch_of_get? r _ h, dispatch_of_get? r _ h]
  obtain ⟨hnone, hnone'⟩ | ⟨key, handler, hfirst, hsome, hsome'⟩ :=
    registry.resolve?_cases (HandlerKey.candidates e call.handle)
  · rw [hnone, hnone']
    exact ⟨[], by rw [append_nil], by simp, by simp, by simp, by simp⟩
  · have hhandle : call.handle = call.opIndex + 1 := by
      rw [hcall]
      rfl
    have hagrees : Invocation.Agrees ⟨key, call⟩ r.table (registry.map (·.1)) :=
      ⟨e, h, hcall, hhandle ▸ hfirst⟩
    rw [hsome, hsome']
    dsimp only
    refine ⟨[⟨key, call⟩], rfl, by simpa using hagrees, Nat.le_refl 1, fun _ _ => rfl, fun n => ?_⟩
    cases (handler s.host call).1 <;> simp [Except.mapError]

/-- **One request**: it is answered by one handler, or the run fails. -/
theorem notes_answer (outcome : Val) : Notes (r.answer registry.noted outcome)
    (r.answer registry outcome) (AnswersOnce r.table (registry.map (·.1))) := by
  refine r.notes_message.then_answers fun bytes => (notes_decoded _).then_answers fun envelope => ?_
  cases hvalid : r.validate envelope with
  | error why =>
    have hlimit (n : Nat) : why ≠ .stepLimit n :=
      fun h => r.validate_ne_stepLimit envelope n (h ▸ hvalid)
    intro s notes
    refine ⟨[], by rw [append_nil]; rfl, ?_⟩
    exact Silent.error (α := Val) ⟨rfl, by simpa using hlimit⟩
  | ok call =>
    obtain ⟨e, hentry, rfl⟩ := r.validate_eq_ok hvalid
    refine (r.notes_dispatch registry (e := e) hentry rfl).answers_then fun reply => ?_
    refine notes_silent_bind (r.notes_writeBuffer _) fun _ => ?_
    exact notes_silent_bind (r.notes_invokeOutcome _ _) fun cont => r.notes_invokeOutcome _ _

/-- The calls of a run that has answered `steps` requests before: they agree with the table and the
bound on requests. -/
structure KeepsBound {α : Type} (r : Runner) (registered : List HandlerKey) (steps : Nat)
    (res : Except RunError α) (added : List Invocation) : Prop where
  agrees : ∀ i ∈ added, i.Agrees r.table registered
  length_le : 0 < r.maxSteps → steps + added.length ≤ r.maxSteps
  limit : ∀ n, res = .error (.stepLimit n) → n = r.maxSteps ∧ 0 < n ∧ steps + added.length = n

section

variable {r} {registered : List HandlerKey} {steps : Nat}
  (hsteps : 0 < r.maxSteps → steps ≤ r.maxSteps)
include hsteps

theorem keepsBound_of_silent {res : Except RunError α} {added : List Invocation}
    (h : Silent res added) :
    KeepsBound r registered steps res added := by
  obtain ⟨rfl, hlimit⟩ := h
  exact ⟨by simp, hsteps, fun n hn => absurd hn (hlimit n)⟩

theorem then_keepsBound (h : Notes noting x Silent)
    (h' : ∀ v, Notes (noting' v) (f v) (KeepsBound r registered steps)) :
    Notes (noting >>= noting') (x >>= f) (KeepsBound r registered steps) := by
  refine h.bind h' (fun v added res added' hsilent hkeeps => ?_) fun e added hsilent => ?_
  · rw [hsilent.1]
    exact hkeeps
  · exact keepsBound_of_silent hsteps ⟨hsilent.1, by simpa using hsilent.2⟩

end

/-- **All requests of a run**, by induction on the rounds that it may take. -/
theorem notes_drive (rounds steps : Nat) (outcome : Val)
    (hsteps : 0 < r.maxSteps → steps ≤ r.maxSteps) :
    Notes (r.drive registry.noted rounds steps outcome) (r.drive registry rounds steps outcome)
      (KeepsBound r (registry.map (·.1)) steps) := by
  induction rounds generalizing steps outcome with
  | zero => exact (notes_throw (by simp)).mono fun _ _ => keepsBound_of_silent hsteps
  | succ rounds ih =>
    refine then_keepsBound hsteps (r.notes_invoke _ _) fun found => ?_
    split
    · exact (notes_silent_bind r.notes_message fun _ => notes_decoded _).mono
        fun _ _ => keepsBound_of_silent hsteps
    · by_cases hlimit : r.maxSteps ≠ 0 ∧ r.maxSteps ≤ steps
      · -- the bound is reached, and as many handlers were called
        rw [if_pos hlimit, if_pos hlimit]
        have hpos : 0 < r.maxSteps := Nat.pos_of_ne_zero hlimit.1
        have heq : steps = r.maxSteps := Nat.le_antisymm (hsteps hpos) hlimit.2
        intro s notes
        refine ⟨[], by rw [append_nil]; rfl, by simp, hsteps, fun n hn => ?_⟩
        obtain rfl : r.maxSteps = n := RunError.stepLimit.inj (Except.error.inj hn)
        exact ⟨rfl, hpos, heq⟩
      · rw [if_neg hlimit, if_neg hlimit]
        have hnext : 0 < r.maxSteps → steps + 1 ≤ r.maxSteps := by omega
        refine (r.notes_answer registry outcome).bind (fun next => ih (steps + 1) next hnext)
          (fun next added res added' hanswer hkeeps => ?_) fun e added hanswer => ?_
        · have hone := hanswer.length_eq next rfl
          refine ⟨forall_mem_append.mpr ⟨hanswer.agrees, hkeeps.agrees⟩, fun hpos => ?_,
            fun n hn => ?_⟩
          · have := hkeeps.length_le hpos
            rw [length_append]
            omega
          · have := hkeeps.limit n hn
            rw [length_append]
            omega
        · have hone := hanswer.length_le
          exact ⟨hanswer.agrees, fun hpos => by have := hnext hpos; omega,
            fun n hn => absurd (by rw [Except.error.inj hn]) (hanswer.limit n)⟩
    · exact (notes_silent
        (fun store => (.error (.badStatus (Val.detailOption store.heap found)), store))
        (fun _ => rfl) (fun _ => rfl) (by simp)).mono fun _ _ => keepsBound_of_silent hsteps

theorem notes_run (function : String) (args : List WireValue) :
    Notes (r.run registry.noted function args) (r.run registry function args)
      (KeepsBound r (registry.map (·.1)) 0) := by
  have hstart : 0 < r.maxSteps → 0 ≤ r.maxSteps := fun _ => Nat.zero_le _
  intro s notes
  rw [run, run, get_bind, get_bind]
  by_cases hholds : r.buffer.isIn s.store.memory = true
  · rw [if_neg (by simpa [HostState.withNotes] using hholds), if_neg (by simpa using hholds)]
    exact then_keepsBound hstart (r.notes_writeBuffer _)
      (fun _ => then_keepsBound hstart (r.notes_invokeOutcome _ _)
      fun outcome => r.notes_drive registry r.machine.rounds 0 outcome hstart) s notes
  · rw [if_pos (by simpa [HostState.withNotes] using hholds), if_pos (by simpa using hholds)]
    exact ⟨[], by rw [append_nil]; rfl, keepsBound_of_silent hstart ⟨rfl, fun n hn => by cases hn⟩⟩

/-- What a runner takes from its module and its configuration. -/
theorem new_eq_ok {module : Module} {config : RunnerConfig} {rounds : Nat} {store : Store}
    {r : Runner} (h : Runner.new module config rounds = .ok (r, store)) :
    readTable module = .ok r.table ∧ r.maxSteps = config.maxSteps ∧
      r.layout = .ofMemorySize r.table.entries.length module.memorySize := by
  unfold new at h
  cases htable : readTable module with
  | error why => simp [htable, bind, Except.bind] at h
  | ok table =>
    simp only [htable, bind, Except.bind] at h
    split at h
    · cases h
    · split at h
      · cases h
      · obtain ⟨rfl, -⟩ := Prod.mk.inj (Except.ok.inj h)
        exact ⟨rfl, rfl, rfl⟩

/-- **Handlers that a run calls.** Whatever a module does, and whatever its memory holds before a
run: the handlers of a registry that the run calls see what the effect table of the module says
about the operations, under the handles that were given out, and each one is found under the first
candidate key that is registered.  If there is a bound on requests, no more handlers are called, and
the run fails because of the bound only if as many handlers were called. -/
theorem calls_of_run {module : Module} {config : RunnerConfig} {rounds : Nat} {store : Store}
    (hnew : Runner.new module config rounds = .ok (r, store)) (function : String)
    (args : List WireValue) (s : HostState σ) :
    ∃ calls, r.run registry.noted function args (s.withNotes []) =
        ((r.run registry function args s).1, (r.run registry function args s).2.withNotes calls) ∧
      readTable module = .ok r.table ∧ (∀ i ∈ calls, i.Agrees r.table (registry.map (·.1))) ∧
      (0 < config.maxSteps → calls.length ≤ config.maxSteps) ∧
      ∀ n, (r.run registry function args s).1 = .error (.stepLimit n) →
        n = config.maxSteps ∧ 0 < n ∧ calls.length = n := by
  obtain ⟨htable, hsteps, -⟩ := new_eq_ok hnew
  obtain ⟨calls, hrun, hkeeps⟩ := r.notes_run registry function args s []
  refine ⟨calls, hrun, htable, hkeeps.agrees, fun hpos => ?_, fun n hn => ?_⟩
  · have := hkeeps.length_le (hsteps ▸ hpos)
    omega
  · have := hkeeps.limit n hn
    omega

end Runner

def askForever : Program where
  effects := [{ id := ⟨0⟩, name := "A", ops := [⟨"a", 0, [], .i32, .tail⟩] }]
  functions := [
    { id := ⟨1⟩, name := "main", params := [], ret := .unit, exported := true, locals := []
      body := .node ⟨2⟩ (.loop (.node ⟨1⟩ (.perform ⟨⟨0⟩, 0⟩ [] []) .i32 {})) .unit {} }]

/-- One handler under the label of the operation. -/
def fiveForA : Registry Unit := [(.name "A.a", fun state _ => (.ok (.i32 5), state))]

/-- With room for two requests there are two calls, and the run fails because of the bound. -/
theorem Runner.calls_of_run_askForever :
    ∃ compiled r store, askForever.compile {} = .ok compiled ∧
      Runner.new compiled.module { maxSteps := 2 } 10 = .ok (r, store) ∧
      (r.run fiveForA "main" [] ⟨store, ()⟩).1 = .error (.stepLimit 2) ∧
      ∃ calls, (r.run fiveForA.noted "main" [] ⟨store, (), []⟩).2.host.2 = calls ∧
        calls.length = 2 ∧ ∀ i ∈ calls, i.Agrees r.table [.name "A.a"] := by
  have hresult : ((askForever.compile {}).toOption.bind fun compiled =>
      (Runner.new compiled.module { maxSteps := 2 } 10).toOption.map fun new =>
        (new.1.run fiveForA "main" [] ⟨new.2, ()⟩).1) =
          some (.error (.stepLimit 2)) := by decide +kernel
  cases hcompile : askForever.compile {} with
  | error why => simp [hcompile, Except.toOption] at hresult
  | ok compiled =>
    cases hnew : Runner.new compiled.module { maxSteps := 2 } 10 with
    | error why => simp [hcompile, hnew, Except.toOption] at hresult
    | ok new =>
      obtain ⟨r, store⟩ := new
      have hrun : (r.run fiveForA "main" [] ⟨store, ()⟩).1 = .error (.stepLimit 2) := by
        simpa [hcompile, hnew, Except.toOption] using hresult
      obtain ⟨calls, hnoted, -, hagrees, -, hlimit⟩ :=
        r.calls_of_run fiveForA hnew "main" [] ⟨store, ()⟩
      refine ⟨compiled, r, store, rfl, hnew, hrun, calls, ?_, (hlimit 2 hrun).2.2, hagrees⟩
      exact congrArg (·.2.host.2) hnoted

end Effectful.Host
