import Effectful.Target.Memory
import Effectful.Wire.Envelope
/-!
# Messages in memory

Messages are written in place, word by word and slot by slot, into a part of memory.  A write that is
refused does not undo those before it, so the size of a message is checked before its first word.
-/

namespace Effectful.Host

open Target Wire

structure Region where
  address : Nat
  length : Nat
deriving DecidableEq, Repr

/-- Writing to memory, which may be refused on the way. -/
abbrev WriteM := ExceptT WireError (StateM Memory)

namespace Region

def isIn (r : Region) (m : Memory) : Bool := m.holds r.address r.length

def bytes (r : Region) (m : Memory) : List UInt8 := m.bytes r.address r.length

def drop (r : Region) (count : Nat) : Region := ⟨r.address + count, r.length - count⟩

def putWord (r : Region) (offset count n : Nat) : WriteM Unit :=
  modify fun m => m.write (r.address + offset) (littleEndian count n)

def putSlot (r : Region) (tag : ValueTag) (bits : UInt64) : WriteM Unit := do
  ensure r.length slotSize
  r.putWord 0 4 tag.code
  r.putWord 4 4 0
  r.putWord 8 8 bits.toNat

def putValues (r : Region) : (offset : Nat) → List WireValue → WriteM Unit
  | _, [] => return
  | offset, v :: vs => do
    (r.drop offset).putSlot v.tag v.bits
    r.putValues (offset + slotSize) vs

/-- Writes words from an offset on, each given by its size and its number. -/
def putWords (r : Region) : (offset : Nat) → List (Nat × Nat) → WriteM Unit
  | _, [] => return
  | offset, (count, n) :: words => do
    r.putWord offset count n
    r.putWords (offset + count) words

/-- Writes a message of a header and the slots of arguments; gives the number of its bytes. -/
def putMessage (r : Region) (headerSize : Nat) (header : List (Nat × Nat)) (args : List WireValue) : WriteM Nat := do
  if maxArgs < args.length then throw (.tooManyArgs args.length)
  let needed := headerSize + args.length * slotSize
  ensure r.length needed
  r.putWords 0 header
  r.putValues headerSize args
  return needed

def putArgs (r : Region) (args : List WireValue) : WriteM Nat :=
  r.putMessage argsHeaderSize [(4, args.length), (4, 0)] args

def putRequest (r : Region) (e : EffectEnvelope) : WriteM Nat :=
  r.putMessage requestHeaderSize
    [(4, e.opIndex), (4, e.opId), (8, e.effectId), (4, e.resumeCode), (4, e.handle), (4, e.args.length), (4, 0)] e.args

end Region

end Effectful.Host
