/-!
# Ranges of characters

Properties of characters are tables of ranges of code points.
-/

namespace Effectful.Text

/-- The `length` code points from `first` on. -/
structure CharRange where
  first : Nat
  length : Nat

namespace CharRange

/-- A code point on its own. -/
instance (n : Nat) : OfNat CharRange n := ⟨⟨n, 1⟩⟩

def holds (r : CharRange) (n : Nat) : Bool := r.first ≤ n && n < r.first + r.length

/-- Whether a character lies in one of some ranges. -/
def anyHolds (rs : List CharRange) (c : Char) : Bool := rs.any (·.holds c.toNat)

end CharRange

end Effectful.Text
