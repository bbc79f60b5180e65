/-!
# Binary floating-point formats

A binary interchange format is fixed by two widths: the bits of its stored fraction and the bits of
its exponent field.  Everything else follows.  A finite magnitude is `m * 2 ^ q` with `m` a natural
number and `q` the exponent of its last place, and in this reading the stored bits of a magnitude
are simply `(q - minScale) * 2 ^ fractionBits + m`: the hidden bit of a normal number carries into
the exponent field by itself.

`Format.roundRatio` is the one rounding of this library: it takes a ratio of natural numbers to the
bits of the nearest magnitude, ties to even.  Reading decimals and narrowing go through it.
-/

namespace Effectful

/-- The widths that fix a binary floating-point format. -/
structure Format where
  fractionBits : Nat
  exponentBits : Nat
deriving DecidableEq, Repr

namespace Format

def single : Format := ⟨23, 8⟩

def double : Format := ⟨52, 11⟩

/-- The value of an exponent field of all ones, kept for infinities and not-a-numbers. -/
def topExponent (f : Format) : Nat := Nat.pow 2 f.exponentBits - 1

/-- The exponent of the last place of the smallest magnitudes. -/
def minScale (f : Format) : Int := 2 - (Nat.pow 2 (f.exponentBits - 1) : Nat) - (f.fractionBits : Int)

/-- The bits of positive infinity, which are also the first bits that are no finite magnitude. -/
def infinity (f : Format) : Nat := f.topExponent * Nat.pow 2 f.fractionBits

/-- The bit that marks a not-a-number as quiet. -/
def quietBit (f : Format) : Nat := Nat.pow 2 (f.fractionBits - 1)

def signBit (f : Format) : Nat := Nat.pow 2 (f.fractionBits + f.exponentBits)

/-- A finite magnitude `mantissa * 2 ^ scale`. -/
structure Magnitude where
  mantissa : Nat
  scale : Int
deriving DecidableEq, Repr

/-- Reads the magnitude out of bits without their sign.  It is meant for finite ones. -/
def magnitude (f : Format) (bits : Nat) : Magnitude :=
  let field := bits / Nat.pow 2 f.fractionBits
  let fraction := bits % Nat.pow 2 f.fractionBits
  if field = 0 then ⟨fraction, f.minScale⟩
  else ⟨Nat.pow 2 f.fractionBits + fraction, f.minScale + (field - 1 : Nat)⟩

/-- The quotient `num / den`, rounded to the nearest natural number, ties to even. -/
def nearestEven (num den : Nat) : Nat :=
  let q := num / den
  let twice := 2 * (num % den)
  if twice < den then q
  else if twice = den then q + q % 2
  else q + 1

/-- The bits of the magnitude of `f` nearest to `num / den`, ties to even.  A ratio too large for
the format goes to infinity. -/
def roundRatio (f : Format) (num den : Nat) : Nat :=
  if num = 0 then 0
  else
    -- `2 ^ guess ≤ num / den * 2 < 2 ^ (guess + 2)`, so `guess` or its predecessor is the place of
    -- the leading bit.
    let guess : Int := (num.log2 : Int) - den.log2
    let fits : Bool := if 0 ≤ guess then den * Nat.pow 2 guess.toNat ≤ num else den ≤ num * Nat.pow 2 (-guess).toNat
    let leading := if fits then guess else guess - 1
    let scale := max f.minScale (leading - f.fractionBits)
    let mantissa :=
      if 0 ≤ scale then nearestEven num (den * Nat.pow 2 scale.toNat)
      else nearestEven (num * Nat.pow 2 (-scale).toNat) den
    min f.infinity ((scale - f.minScale).toNat * Nat.pow 2 f.fractionBits + mantissa)

/-- The bits of the magnitude nearest to `m * 2 ^ q`. -/
def roundMagnitude (f : Format) (x : Magnitude) : Nat :=
  if 0 ≤ x.scale then f.roundRatio (x.mantissa * Nat.pow 2 x.scale.toNat) 1
  else f.roundRatio x.mantissa (Nat.pow 2 (-x.scale).toNat)

end Format

end Effectful
