import Effectful.Host.Handler
import Effectful.Host.Import
import Effectful.Wire.Layout
/-!
# Running modules

The host reads the effect table of a module and gives the operation at position `n` the handle
`n + 1`, which it writes into the handle table.  A run then goes like this:

1. The arguments go to the buffer, and the entry of the function is called.  It gives an outcome.
2. The status of the outcome is `0` if the buffer holds the value of the run.
3. If it is `1`, the buffer holds a request.  The request must agree with the effect table.  A handler
   answers it, the answer goes to the buffer, and resuming gives the next outcome.

The bound on requests is part of the configuration; zero means none.
-/

namespace Effectful.Host

open Target

/-- How a request disagrees with the effect table. -/
inductive RequestMismatch where
  | outsideTable
  /-- It names another operation. -/
  | otherOp (effectId opId tableEffectId tableOpId : Nat)
  | otherHandle (handle : Nat)
deriving DecidableEq, Repr

def RequestMismatch.message : RequestMismatch → String
  | .outsideTable => "ordinal outside the table"
  | .otherOp effectId opId tableEffectId tableOpId =>
    "request is " ++ Hex.word 16 effectId ++ s!":{opId}, table has " ++ Hex.word 16 tableEffectId ++ s!":{tableOpId}"
  | .otherHandle handle => s!"handle {handle} was not assigned to this ordinal"

/-- Why a run fails. -/
inductive RunError where
  | missingHandler (label : String)
  | opMismatch (opIndex : Nat) (cause : RequestMismatch)
  | resumeKindMismatch (label : String) (expected : ResumeKind) (found : Nat)
  | stepLimit (limit : Nat)
  | handler (label message : String)
  /-- An export gave something that the protocol does not know; what it gave is shown. -/
  | badInit (found : String) (entries : Nat)
  | badOutcome (found : String)
  | badStatus (found : String)
  | trap (why : Trap)
  | wire (why : WireError)
  | table (why : TableError)
  /-- The memory ends before the buffer or the handle table does. -/
  | memoryTooSmall
  /-- No memory has the size that the module asks for. -/
  | memoryTooLarge
  /-- A loop was given too few rounds. -/
  | outOfRounds
deriving DecidableEq, Repr

namespace RunError

def message : RunError → String
  | .missingHandler label => s!"no handler registered for `{label}`"
  | .opMismatch opIndex cause =>
    s!"effect request does not match the table at ordinal {opIndex}: {cause.message}"
  | .resumeKindMismatch label expected found =>
    s!"resume kind mismatch for `{label}`: table says {expected.text}, request says {found}"
  | .stepLimit limit => s!"run exceeded {limit} resume steps"
  | .handler label message => s!"handler for `{label}` failed: {message}"
  | .badInit found entries =>
    s!"unexpected export result: init_effects reported {found}, table has {entries} entries"
  | .badOutcome found => s!"unexpected export result: expected an outcome, found {found}"
  | .badStatus found => s!"unexpected export result: effect_status returned {found}"
  | .trap why => why.message
  | .wire why => why.message
  | .table why => why.message
  | .memoryTooSmall => "the memory is too small for the buffer"
  | .memoryTooLarge => "the memory is too large"
  | .outOfRounds => "a loop did not end"

def ofStop : Stop → RunError
  | .trap why => .trap why
  | .outOfRounds => .outOfRounds

end RunError

/-- A module that is ready to run. -/
structure Runner where
  machine : Machine
  table : EffectTable
  layout : BufferLayout
  /-- The bound on requests; zero means none. -/
  maxSteps : Nat

/-- What changes in a run: the store of the module and the state of the handlers. -/
structure HostState (σ : Type) where
  store : Store
  host : σ

/-- Runs, which keep their state when they fail. -/
abbrev HostM (σ : Type) := ExceptT RunError (StateM (HostState σ))

namespace Runner

/-- The handle of the operation at a position of the table. -/
def handleOf? (r : Runner) (opIndex : Nat) : Option Nat :=
  if opIndex < r.table.entries.length then some (opIndex + 1) else none

/-! ### Getting ready -/

/-- The effect table of a module; a module without one performs nothing. -/
def readTable (module : Module) : Except RunError EffectTable :=
  match module.section? EffectTable.sectionName with
  | some data => (EffectTable.decode data).mapError .table
  | none => .ok ⟨[]⟩

/-- Writes the handles of `count` operations. -/
def writeHandles (memory : Memory) (count : Nat) : Memory :=
  (List.range count).foldl
    (fun m i => m.write (BufferLayout.handleSlot i) (littleEndian 4 (i + 1))) memory

/-- Asks the module to clear its handle table, and fills it. -/
def prepare (r : Runner) (store : Store) : Except RunError Store := do
  let count := r.table.entries.length
  if count = 0 then return store
  match r.machine.invoke "init_effects" [] store with
  | (.error why, _) => throw (.ofStop why)
  | (.ok found, store) =>
    if found = some (.i32 (.ofNat count)) then
      if store.memory.holds 0 (BufferLayout.handleSlot count) then
        return { store with memory := writeHandles store.memory count }
      else throw .memoryTooSmall
    else throw (.badInit (Val.detailOption store.heap found) count)

def new (module : Module) (config : RunnerConfig) (rounds : Nat) : Except RunError (Runner × Store) := do
  let table ← readTable module
  if Memory.maxSize < module.memorySize then throw .memoryTooLarge
  let machine : Machine := { module, imports := wireImports, maxCallDepth := config.maxCallDepth, rounds }
  let runner : Runner := {
    machine, table
    layout := .ofMemorySize table.entries.length module.memorySize
    maxSteps := config.maxSteps }
  return (runner, ← runner.prepare machine.start)

/-! ### Running -/

def buffer (r : Runner) : Region := ⟨r.layout.bufferOffset, r.layout.bufferLength⟩

section

variable {σ : Type}

/-- The bytes of the buffer that a message may take. -/
def message (r : Runner) : HostM σ (List UInt8) := do
  let memory := (← get).store.memory
  if r.buffer.isIn memory then
    return memory.bytes r.layout.bufferOffset (min r.layout.bufferLength Wire.longestMessage)
  else throw .memoryTooSmall

def writeBuffer {α : Type} (r : Runner) (write : Region → WriteM α) : HostM σ Unit := do
  match ← modifyGet fun ⟨⟨memory, heap⟩, host⟩ =>
      let (result, memory) := write r.buffer memory
      (result, ⟨⟨memory, heap⟩, host⟩) with
  | .ok _ => return
  | .error why => throw (.wire why)

def decoded {α : Type} : Except WireError α → HostM σ α
  | .ok a => return a
  | .error why => throw (.wire why)

def invoke (r : Runner) (name : String) (args : List Val) : HostM σ (Option Val) := do
  match ← modifyGet fun ⟨store, host⟩ =>
      let (result, store) := r.machine.invoke name args store
      (result, ⟨store, host⟩) with
  | .ok v => return v
  | .error why => throw (.ofStop why)

def invokeOutcome (r : Runner) (name : String) (args : List Val) : HostM σ Val := do
  match ← r.invoke name args with
  | some (.ref (some address)) => return .ref (some address)
  | found => throw (.badOutcome (Val.detailOption (← get).store.heap found))

/-- Where the buffer is, as arguments of an export. -/
def bufferArgs (r : Runner) : List Val :=
  [.i32 (.ofNat r.layout.bufferOffset), .i32 (.ofNat r.layout.bufferLength)]

/-- The call for a request, if the request agrees with the table. -/
def validate (r : Runner) (e : EffectEnvelope) : Except RunError HandlerCall := do
  match r.table.get? e.opIndex with
  | none => throw (.opMismatch e.opIndex .outsideTable)
  | some entry =>
    if entry.effectId ≠ e.effectId ∨ entry.opId ≠ e.opId then
      throw (.opMismatch e.opIndex (.otherOp e.effectId e.opId entry.effectId entry.opId))
    if r.handleOf? e.opIndex ≠ some e.handle then throw (.opMismatch e.opIndex (.otherHandle e.handle))
    if ResumeKind.ofCode? e.resumeCode ≠ some entry.kind then
      throw (.resumeKindMismatch entry.label entry.kind e.resumeCode)
    return .ofEntry entry e.opIndex e.handle e.args

/-- Has a request answered by the handler with the most specific key. -/
def dispatch (r : Runner) (registry : Registry σ) (call : HandlerCall) : HostM σ WireValue := do
  match (r.table.get? call.opIndex).bind fun entry => registry.resolve? (HandlerKey.candidates entry call.handle) with
  | none => throw (.missingHandler call.label)
  | some handler =>
    match ← modifyGet fun ⟨store, host⟩ => let (reply, host) := handler host call; (reply, ⟨store, host⟩) with
    | .ok v => return v
    | .error message => throw (.handler call.label message)

/-- Answers the request in the buffer and resumes; gives the next outcome. -/
def answer (r : Runner) (registry : Registry σ) (outcome : Val) : HostM σ Val := do
  let envelope ← decoded (EffectEnvelope.decode (← r.message))
  let call ← match r.validate envelope with
    | .ok call => pure call
    | .error why => throw why
  let reply ← r.dispatch registry call
  r.writeBuffer (·.putSlot reply.tag reply.bits)
  let cont ← r.invokeOutcome "effect_cont" [outcome]
  r.invokeOutcome "resume_effectful" (cont :: r.bufferArgs)

/-- Answers requests until an outcome is a value; `steps` counts the requests so far. -/
def drive (r : Runner) (registry : Registry σ) : (rounds steps : Nat) → Val → HostM σ WireValue
  | 0, _, _ => throw .outOfRounds
  | rounds + 1, steps, outcome => do
    match ← r.invoke "effect_status" [outcome] with
    | some (.i32 0) => decoded (Wire.decodeSlot (← r.message))
    | some (.i32 1) =>
      if r.maxSteps ≠ 0 ∧ r.maxSteps ≤ steps then throw (.stepLimit r.maxSteps)
      let next ← r.answer registry outcome
      r.drive registry rounds (steps + 1) next
    | found => throw (.badStatus (Val.detailOption (← get).store.heap found))

def run (r : Runner) (registry : Registry σ) (function : String) (args : List WireValue) : HostM σ WireValue := do
  if !r.buffer.isIn (← get).store.memory then throw .memoryTooSmall
  r.writeBuffer (·.putArgs args)
  let outcome ← r.invokeOutcome (function ++ "_effectful") r.bufferArgs
  r.drive registry r.machine.rounds 0 outcome

end

end Runner

end Effectful.Host
