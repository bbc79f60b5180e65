import Effectful.Config
import Effectful.Wire.Envelope
/-!
# The layout of linear memory

Memory starts with the handle table, four bytes for each operation.  The buffer follows at the next
multiple of sixteen, and behind it the scratch area, which holds the most slots that a request can
have.  The emitter and the host both compute the layout from the number of operations, so they agree.
-/

namespace Effectful

/-- Where the parts of linear memory stand. -/
structure BufferLayout where
  opCount : Nat
  bufferOffset : Nat
  bufferLength : Nat
  scratchOffset : Nat
deriving DecidableEq, Repr, Inhabited

namespace BufferLayout

def scratchSize : Nat := Wire.maxArgs * Wire.slotSize

/-- The layout for some operations and a requested buffer size, which is never below the least. -/
def new (opCount requested : Nat) : BufferLayout :=
  let bufferOffset := (opCount * 4 + 15) / 16 * 16
  let bufferLength := max requested minBufferSize
  { opCount, bufferOffset, bufferLength, scratchOffset := bufferOffset + bufferLength }

/-- The layout of a module, recovered from the size of its memory. -/
def ofMemorySize (opCount memorySize : Nat) : BufferLayout :=
  new opCount (memorySize - scratchSize - (new opCount minBufferSize).bufferOffset)

/-- The address of an operation's entry in the handle table. -/
def handleSlot (ordinal : Nat) : Nat := ordinal * 4

def memorySize (l : BufferLayout) : Nat := l.scratchOffset + scratchSize

/-- Whether the size of the memory is a 64-bit number. -/
def isRepresentable (l : BufferLayout) : Bool := l.memorySize < UInt64.size

end BufferLayout

end Effectful
