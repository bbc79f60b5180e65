import Effectful.Emission.Context
import Effectful.Host.Import
import Effectful.Wire.Layout
/-!
# Functions for the host

Behind the units a module has functions that the host calls:

* `resume$dispatch` enters the unit again that owns the site of an environment;
* `handle_outcome` writes an outcome to the buffer, a value as a slot and a request as an envelope
  whose arguments pass through the scratch area;
* `effect_status`, `effect_cont`, `read_value` and `outcome_bits` look at outcomes and slots;
* `resume_effectful` takes the host's answer from the buffer and goes on with it; the answer to a tail
  operation is taken once;
* `init_effects` clears the handle table, where there is one, and reports its length;
* `f_effectful` calls an exported function `f` with arguments from the buffer.
-/

namespace Effectful

open Target

/-- The functions that a module takes from the host. -/
inductive HostFunction where
  | writeValue
  | writeEffect
  | readValue
deriving DecidableEq, Repr

namespace HostFunction

def index : HostFunction → Nat
  | .writeValue => 0
  | .writeEffect => 1
  | .readValue => 2

def call (f : HostFunction) (args : List Instr) : Instr := .callImport f.index args

def imports : List HostImport :=
  [⟨Host.moduleName, "write_value", [.i32, .i64, .i32, .i32], some .i32⟩,
    ⟨Host.moduleName, "write_effect", [.i64, .i32, .i32, .i32, .i32, .i32, .i32, .i32, .i32], some .i32⟩,
    ⟨Host.moduleName, "read_value", [.i32, .i32, .i32], some .i64⟩]

end HostFunction

namespace Glue

/-- A parameter or local of a glue function. -/
abbrev arg (place : Nat) : Instr := .localGet place

/-! ### Outcomes -/

/-- Enters the unit again that owns the site of an environment. -/
def resumeDispatch (p : LoweredProgram) (l : ModuleLayout) : Function :=
  let site := (arg 0).envSite
  let enter (unit : LoweringUnit) (index : Nat) (range : SiteRange) : Instr :=
    let header := [.nat 0, site, arg 0, arg 1] ++ (if unit.isDrive then [.refNull] else [])
    let fillers := ((l.unitParams[index]?).getD []).map ValTy.filler
    .ifElse (site.within range.1 range.2) [.give (.call index (header ++ fillers))] []
  let entries := (p.units.units.zip p.sites.layouts).zipIdx.filterMap fun ((unit, own), index) =>
    own.range?.map (enter unit index)
  { name := "resume$dispatch"
    params := [Record.env.ref, .i64]
    locals := []
    result := some Record.outcome.ref
    body := entries ++ [.unreachable .unknownSite] }

/-- Traps if a writer reports that the region is too small. -/
def orOverflow (status : Instr) : Instr := .ifElse status [.unreachable .bufferOverflow] []

def writeValue (value address length : Instr) : Instr :=
  orOverflow (HostFunction.writeValue.call [value.valueTag, value.valueBits, address, length])

/-- Writes an outcome to the buffer and gives it back. -/
def handleOutcome (b : BufferLayout) : Function :=
  let outcome := arg 0
  let address := arg 1
  let length := arg 2
  let count := 3
  let position := 4
  let item := 5
  let exit : Label := ⟨0⟩
  let top : Label := ⟨1⟩
  let slot := Instr.nat Wire.slotSize
  let scratch := Instr.nat b.scratchOffset
  let stageArgs := Instr.block exit [.loop top [
    .ifElse (.binary .ge .i32 (arg position) (arg count)) [.goto exit] [],
    .localSet item (.arrayGet (outcome.effectPart .args) (arg position)),
    writeValue (arg item) (.binary .add .i32 scratch (.binary .mul .i32 (arg position) slot)) slot,
    .localSet position (.binary .add .i32 (arg position) (.nat 1)),
    .goto top]]
  let handle := Instr.memLoad32 (.binary .mul .i32 (outcome.effectPart .ordinal) (.nat 4))
  let writeEffect := orOverflow (HostFunction.writeEffect.call
    [outcome.effectPart .effectId, outcome.effectPart .opId, outcome.effectPart .ordinal,
      outcome.effectPart .kind, handle, scratch, arg count, address, length])
  { name := "handle_outcome"
    params := [Record.outcome.ref, .i32, .i32]
    locals := [.i32, .i32, .ref none]
    result := some Record.outcome.ref
    body := [
      .ifElse (outcome.hasStatus 0) [writeValue outcome address length] [
        .localSet count (.arrayLen (outcome.effectPart .args)),
        .ifElse (.binary .gt .i32 (arg count) (.nat Wire.maxArgs)) [.unreachable .unsupportedValue] [],
        .localSet position (.nat 0),
        stageArgs,
        writeEffect],
      outcome] }

def effectStatus : Function where
  name := "effect_status"
  params := [Record.outcome.ref]
  locals := []
  result := some .i32
  body := [(arg 0).status]

/-- Gives the outcome of a request back and traps on a value. -/
def effectCont : Function where
  name := "effect_cont"
  params := [Record.outcome.ref]
  locals := []
  result := some Record.outcome.ref
  body := [.ifElse ((arg 0).hasStatus 1) [] [.unreachable .unreachable], arg 0]

def readValue : Function where
  name := "read_value"
  params := [.i32, .i32, .i32]
  locals := []
  result := some .i64
  body := [HostFunction.readValue.call [arg 0, arg 1, arg 2]]

def outcomeBits : Function where
  name := "outcome_bits"
  params := [Record.outcome.ref]
  locals := []
  result := some .i64
  body := [(arg 0).valueBits]

/-! ### Resuming and starting -/

/-- The answer in the buffer, read with the tag of the operation's result. -/
def readAnswer (m : EffectMetadata) (cont address length : Instr) : Instr :=
  m.ordinals.foldr
    (fun o rest =>
      let isOp := Instr.binary .and .i32
        (.binary .eq .i64 (cont.effectPart .effectId) (.i64Const (.ofNat o.effectId)))
        (.i32Eq (cont.effectPart .opId) (.nat o.opId))
      let read := match o.decl.ret.tag? with
        | some tag => HostFunction.readValue.call [.nat tag.code, address, length]
        | none => .unreachable .unsupportedValue
      .ifElse isOp [read] [rest])
    (.unreachable .opMismatch)

/-- Goes on with the host's answer. -/
def resumeEffectful (m : EffectMetadata) (l : ModuleLayout) : Function :=
  let cont := arg 0
  let bits := 3
  let isTail := Instr.i32Eq (cont.effectPart .kind) (.nat ResumeKind.tail.code)
  { name := "resume_effectful"
    params := [Record.outcome.ref, .i32, .i32]
    locals := [.i64]
    result := some Record.outcome.ref
    body := [
      .ifElse isTail cont.countedOnce [],
      .localSet bits (readAnswer m cont (arg 1) (arg 2)),
      .call l.handOver [.call l.dispatch [cont.effectPart .env, arg bits], arg 1, arg 2]] }

def initEffects (count : Nat) : Function where
  name := "init_effects"
  params := []
  locals := []
  result := some .i32
  body := (List.range count).map (fun i => .memStore32 (.nat (BufferLayout.handleSlot i)) (.nat 0)) ++ [.nat count]

def readArg (position : Nat) (ty : Ty) : Instr :=
  let address := Instr.binary .add .i32 (arg 0) (.nat (Wire.argOffset position))
  let tag := (ty.tag?.map ValueTag.code).getD 0
  let bits := HostFunction.readValue.call [.nat tag, address, .nat Wire.slotSize]
  (ty.unbox? bits).getD (.unreachable .unsupportedValue)

/-- The name under which a function is exported. -/
def entryName (function : String) : String := function ++ "_effectful"

/-- The entry of a function whose signature consists of scalars. -/
def entry (l : ModuleLayout) (f : FnDecl) (unit : Nat) (effectful : Bool) : Function :=
  let params := f.paramTys
  let args := params.zipIdx.map fun (ty, i) => readArg i ty
  let call :=
    if effectful then Instr.call unit (freshArgs args)
    else (f.ret.valueOutcome? (.call unit args)).getD (.unreachable .unsupportedValue)
  { name := entryName f.name
    params := [.i32, .i32]
    locals := []
    result := some Record.outcome.ref
    body := [
      .ifElse (.binary .ne .i32 (.memLoad32 (arg 0)) (.nat params.length)) [.unreachable .arityMismatch] [],
      .call l.handOver [call, arg 0, arg 1]] }

/-- Whether the host can call a function: only scalars cross the boundary. -/
def isCallable (f : FnDecl) : Bool := (f.paramTys ++ [f.ret]).all fun ty => ty.tag?.isSome

/-- The entries of the exported functions, with complaints about those that the host cannot call. -/
def entries (p : LoweredProgram) (l : ModuleLayout) : List Function × List Diagnostic :=
  let exported := p.program.functions.filterMap fun f =>
    if f.exported then (p.units.functionUnit? f.id).map fun unit => (f, unit) else none
  (exported.filterMap fun (f, unit) =>
      if isCallable f then some (entry l f unit ((p.units.units[unit]?).any (·.effectful))) else none,
    exported.filterMap fun (f, _) =>
      if isCallable f then none else some ⟨.uncallableExport f.name, f.span⟩)

/-- All functions for the host, in order, with complaints. -/
def functions (p : LoweredProgram) (m : EffectMetadata) (l : ModuleLayout) (b : BufferLayout) :
    List Function × List Diagnostic :=
  let count := m.ordinals.length
  let (entries, problems) := entries p l
  ([resumeDispatch p l, handleOutcome b, effectStatus, effectCont, readValue, outcomeBits, resumeEffectful m l]
    ++ (if 0 < count then [initEffects count] else []) ++ entries, problems)

end Glue

end Effectful
