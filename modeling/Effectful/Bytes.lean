/-!
# Little-endian bytes

Words are stored with their lowest byte first.  `littleEndian count n` writes the low `count` bytes
of a number and `ofLittleEndian` reads any run of bytes back.
-/

namespace Effectful

/-- The low `count` bytes of a number, lowest first. -/
def littleEndian : (count : Nat) → Nat → List UInt8
  | 0, _ => []
  | count + 1, n => .ofNat n :: littleEndian count (n / 256)

/-- The number that bytes spell, lowest first. -/
def ofLittleEndian : List UInt8 → Nat
  | [] => 0
  | b :: bs => b.toNat + 256 * ofLittleEndian bs

@[simp]
theorem length_littleEndian (count n : Nat) : (littleEndian count n).length = count := by
  induction count generalizing n with
  | zero => rfl
  | succ count ih => simp [littleEndian, ih]

def utf8 (s : String) : List UInt8 := s.toUTF8.toList

def ofUtf8? (bytes : List UInt8) : Option String := String.fromUTF8? ⟨bytes.toArray⟩

end Effectful
