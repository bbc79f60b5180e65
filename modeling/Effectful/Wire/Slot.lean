import Effectful.Bytes
import Effectful.Wire.Value
/-!
# Slots

A value is stored in a slot of sixteen bytes: a tag of four, four of padding, and eight with the
bits, all little-endian.  Reading looks at the start of a region and checks its size first.
-/

namespace Effectful

/-- Why bytes cannot be read or written at the boundary. -/
inductive WireError where
  | bufferTooSmall (needed available : Nat)
  | unknownTag (code : Nat)
  | tagMismatch (expected found : ValueTag)
  | tooManyArgs (count : Nat)
deriving DecidableEq, Repr

def WireError.message : WireError → String
  | .bufferTooSmall needed available => s!"buffer too small: need {needed} bytes, have {available}"
  | .unknownTag code => s!"unknown value tag {code}"
  | .tagMismatch expected found =>
    s!"value tag mismatch: expected {expected.text}, found {found.text}"
  | .tooManyArgs count => s!"too many arguments: {count} (limit 16)"

namespace Wire

def slotSize : Nat := 16

/-- The most arguments that an envelope holds. -/
def maxArgs : Nat := 16

/-- Refuses a region that is smaller than needed. -/
def ensure (available needed : Nat) : Except WireError Unit :=
  if available < needed then .error (.bufferTooSmall needed available) else .ok ()

/-- The number in `count` bytes at some place of a region. -/
def readNat (region : List UInt8) (at_ count : Nat) : Nat := ofLittleEndian ((region.drop at_).take count)

def slotBytes (tag : ValueTag) (bits : UInt64) : List UInt8 :=
  littleEndian 4 tag.code ++ littleEndian 4 0 ++ littleEndian 8 bits.toNat

def encodeSlot (v : WireValue) : List UInt8 := slotBytes v.tag v.bits

def decodeSlot (region : List UInt8) : Except WireError WireValue := do
  ensure region.length slotSize
  let code := readNat region 0 4
  match ValueTag.ofCode? code with
  | some tag => return .ofBits tag (.ofNat (readNat region 8 8))
  | none => .error (.unknownTag code)

/-- Reads the bits of a slot that must have the given tag. -/
def decodeExpecting (region : List UInt8) (expected : ValueTag) : Except WireError UInt64 := do
  let v ← decodeSlot region
  if v.tag = expected then return v.bits else .error (.tagMismatch expected v.tag)

/-- Reads `count` slots from some place of a region on. -/
def decodeSlots (region : List UInt8) : (at_ count : Nat) → Except WireError (List WireValue)
  | _, 0 => .ok []
  | at_, count + 1 => do
    let v ← decodeSlot (region.drop at_)
    return v :: (← decodeSlots region (at_ + slotSize) count)

end Wire

end Effectful
