import Effectful.Host.Region
import Effectful.Target.Machine
/-!
# Functions that the host provides

Compiled code reads and writes the boundary's formats through three functions of the module `host`:

* `write_value` writes the slot of a value;
* `write_effect` writes the envelope of a request, with arguments taken from slots in memory;
* `read_value` reads the bits of a slot whose tag is known.

The writers give `0`, or `1` if the region is too small.  They work on memory in place; a call that fails or
gives `1` has written nothing.
-/

namespace Effectful.Host

open Target

def moduleName : String := "host"

/-- What a function of the host does with memory; it may fail on the way. -/
abbrev ImportM := ExceptT Trap (StateM Memory)

/-- The region that two values describe, which must lie in memory. -/
def region (heap : Heap) (address length : Val) : ImportM Region := do
  let r : Region := ⟨← address.asOffset heap, ← length.asOffset heap⟩
  if r.isIn (← get) then return r else throw (.outOfBounds r.address r.length)

/-- The trap for bytes that have no meaning. -/
def wireTrap : WireError → Trap
  | .bufferTooSmall _ _ => .code .bufferOverflow
  | .unknownTag _ | .tagMismatch _ _ | .tooManyArgs _ => .code .unsupportedValue

/-- The result of reading bytes, as code sees it. -/
def readOrTrap {α : Type} : Except WireError α → Except Trap α
  | .ok a => .ok a
  | .error e => .error (wireTrap e)

def word32 (heap : Heap) (v : Val) : Except Trap Nat := v.asOffset heap

def word64 (heap : Heap) (v : Val) : Except Trap UInt64 := do return (← v.asI64 heap).toUInt64

def tag (heap : Heap) (v : Val) : Except Trap ValueTag := do
  match ValueTag.ofCode? (← word32 heap v) with
  | some tag => return tag
  | none => throw (.code .unsupportedValue)

/-- Writes and gives the status. -/
def reported {α : Type} (write : WriteM α) : ImportM (Option Val) := fun m =>
  match write m with
  | (.ok _, m) => (.ok (some (.i32 0)), m)
  | (.error _, m) => (.ok (some (.i32 1)), m)

def writeValue (heap : Heap) (tagCode bits address length : Val) : ImportM (Option Val) := do
  let tag ← tag heap tagCode
  let bits ← word64 heap bits
  let out ← region heap address length
  reported (out.putSlot tag bits)

def writeEffect (heap : Heap) (effectId opId opIndex kind handle argsAddress argCount address length : Val) :
    ImportM (Option Val) := do
  let count ← word32 heap argCount
  if Wire.maxArgs < count then throw (.code .unsupportedValue)
  let slots ← region heap argsAddress (.i32 (.ofNat (count * Wire.slotSize)))
  let args ← readOrTrap (Wire.decodeSlots (slots.bytes (← get)) 0 count)
  let opIndex ← word32 heap opIndex
  let opId ← word32 heap opId
  let effectId ← word64 heap effectId
  let resumeCode ← word32 heap kind
  let handle ← word32 heap handle
  let out ← region heap address length
  reported (out.putRequest { opIndex, opId, effectId := effectId.toNat, resumeCode, handle, args })

def readValue (heap : Heap) (tagCode address length : Val) : ImportM (Option Val) := do
  let tag ← tag heap tagCode
  let input ← region heap address length
  let bytes := (← get).bytes input.address (min input.length Wire.slotSize)
  let bits ← readOrTrap (Wire.decodeExpecting bytes tag)
  return some (.i64 bits.toInt64)

def serve (target : HostImport) (args : List Val) (heap : Heap) : ImportM (Option Val) :=
  if target.module = moduleName then
    match target.name, args with
    | "write_value", [tagCode, bits, address, length] => writeValue heap tagCode bits address length
    | "write_effect", [effectId, opId, opIndex, kind, handle, argsAddress, argCount, address, length] =>
      writeEffect heap effectId opId opIndex kind handle argsAddress argCount address length
    | "read_value", [tagCode, address, length] => readValue heap tagCode address length
    | name, args => throw (.host (.unsupported name args.length))
  else throw (.host (.unknownModule target.module))

/-- The functions of a host that knows the boundary's formats. -/
def wireImports : Imports := fun target args store =>
  match serve target args store.heap store.memory with
  | (.ok v, memory) => .ok (v, memory)
  | (.error why, _) => .error why

def noImports : Imports := fun target _ _ => .error (.host (.notProvided target.module target.name))

end Effectful.Host
