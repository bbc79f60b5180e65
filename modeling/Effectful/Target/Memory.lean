import Std.Data.TreeMap
/-!
# Linear memory

A memory has a size and a byte at every address below it.  All bytes are zero at first.  Only those that
were written take room, so a large memory costs no more than what is done with it.

`Memory.byte` is the view of a memory: `Memory.read?` lists a part of it, and `Memory.write` changes it
at the addresses of the bytes that it is given.
-/

namespace Effectful.Target

/-- Bytes at the addresses below a size. -/
structure Memory where
  size : Nat
  /-- The bytes that were written. -/
  written : Std.TreeMap Nat UInt8
deriving Inhabited

namespace Memory

/-- The largest size that a memory may have. -/
def maxSize : Nat := UInt64.size / 2 - 1

def zeros (size : Nat) : Memory := { size, written := ∅ }

def byte (m : Memory) (address : Nat) : UInt8 := m.written.getD address 0

/-- Whether a region lies inside. -/
def holds (m : Memory) (address length : Nat) : Bool := address + length ≤ m.size

def bytes (m : Memory) (address length : Nat) : List UInt8 := (List.range' address length).map m.byte

/-- The bytes of a region, if it lies inside. -/
def read? (m : Memory) (address length : Nat) : Option (List UInt8) :=
  if m.holds address length then some (m.bytes address length) else none

/-- Writes one byte; outside it is lost. -/
def setByte (m : Memory) (address : Nat) (b : UInt8) : Memory :=
  match m with
  | ⟨size, written⟩ => if address < size then ⟨size, written.insert address b⟩ else ⟨size, written⟩

/-- Writes bytes from an address on; those that lie outside are lost. -/
def write (m : Memory) (address : Nat) : List UInt8 → Memory
  | [] => m
  | b :: bs => write (m.setByte address b) (address + 1) bs

def toList (m : Memory) : List UInt8 := m.bytes 0 m.size

end Memory

end Effectful.Target
