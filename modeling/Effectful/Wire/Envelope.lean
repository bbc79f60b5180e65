import Effectful.Wire.Slot
/-!
# Envelopes

The two messages that are longer than a slot.  The arguments of a call are a header of eight bytes
with their count, then their slots.  An effect request is a header of 32 bytes that names the
operation, then the slots of its arguments.  At most sixteen arguments fit either.

Encoding gives the bytes or refuses; nothing is written in part.
-/

namespace Effectful

namespace Wire

def argsHeaderSize : Nat := 8

def requestHeaderSize : Nat := 32

/-- The size of the longest message.  Reading a message looks no further into a region. -/
def longestMessage : Nat := requestHeaderSize + maxArgs * slotSize

/-- Where the slot of an argument stands in a call envelope. -/
def argOffset (index : Nat) : Nat := argsHeaderSize + index * slotSize

def slots (args : List WireValue) : List UInt8 := args.flatMap encodeSlot

/-- The envelope of a call, for a region of the given size. -/
def encodeArgs (available : Nat) (args : List WireValue) : Except WireError (List UInt8) := do
  if maxArgs < args.length then .error (.tooManyArgs args.length)
  ensure available (argOffset args.length)
  return littleEndian 4 args.length ++ littleEndian 4 0 ++ slots args

def decodeArgs (region : List UInt8) : Except WireError (List WireValue) := do
  ensure region.length argsHeaderSize
  let count := readNat region 0 4
  if maxArgs < count then .error (.tooManyArgs count)
  ensure region.length (argOffset count)
  decodeSlots region argsHeaderSize count

end Wire

/-- A request for an operation, as it crosses the boundary. -/
structure EffectEnvelope where
  /-- The position of the operation in the effect table. -/
  opIndex : Nat
  /-- The position of the operation in its effect. -/
  opId : Nat
  effectId : Nat
  /-- The code of the resume kind, which may be unknown. -/
  resumeCode : Nat
  /-- The handle that the host gave the operation. -/
  handle : Nat
  args : List WireValue
deriving DecidableEq

namespace EffectEnvelope

open Wire

def encodedLength (e : EffectEnvelope) : Nat := requestHeaderSize + e.args.length * slotSize

/-- The envelope of a request, for a region of the given size. -/
def encode (available : Nat) (e : EffectEnvelope) : Except WireError (List UInt8) := do
  if maxArgs < e.args.length then .error (.tooManyArgs e.args.length)
  ensure available e.encodedLength
  return littleEndian 4 e.opIndex ++ littleEndian 4 e.opId ++ littleEndian 8 e.effectId
    ++ littleEndian 4 e.resumeCode ++ littleEndian 4 e.handle ++ littleEndian 4 e.args.length
    ++ littleEndian 4 0 ++ slots e.args

def decode (region : List UInt8) : Except WireError EffectEnvelope := do
  ensure region.length requestHeaderSize
  let count := readNat region 24 4
  if maxArgs < count then .error (.tooManyArgs count)
  ensure region.length (requestHeaderSize + count * slotSize)
  let args ← decodeSlots region requestHeaderSize count
  return {
    opIndex := readNat region 0 4
    opId := readNat region 4 4
    effectId := readNat region 8 8
    resumeCode := readNat region 16 4
    handle := readNat region 20 4
    args }

end EffectEnvelope

end Effectful
