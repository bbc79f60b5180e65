import Effectful.Number.Binary
/-!
# The shortest decimal of a float

A float stands for an interval of reals: those that round to it.  `Format.shortest` finds the
decimal with the fewest digits in that interval and, among those, the one nearest to the float.  It
tries one digit, two digits, and so on; on the grid of each length only the two neighbours of the
value can be nearest, so only these are tested.  All arithmetic is on natural numbers.
-/

namespace Effectful

/-- The decimal number `digits * 10 ^ exponent`. -/
structure Decimal where
  digits : Nat
  exponent : Int
deriving DecidableEq, Repr

namespace Format

/-- Whether `10 ^ e ≤ num / den`. -/
def powTenLe (e : Int) (num den : Nat) : Bool :=
  if 0 ≤ e then den * Nat.pow 10 e.toNat ≤ num else den ≤ num * Nat.pow 10 (-e).toNat

/-- Raises `e` while `10 ^ e` is at most the ratio, at most `fuel` times. -/
def raisePlace : Nat → Int → Nat → Nat → Int
  | 0, e, _, _ => e
  | fuel + 1, e, num, den => if powTenLe e num den then raisePlace fuel (e + 1) num den else e

/-- The place `e` with `10 ^ (e - 1) ≤ num / den < 10 ^ e`.  The first guess comes from the binary
logarithm and is too low by a few places at most. -/
def decimalPlace (num den : Nat) : Int :=
  raisePlace 8 (((num.log2 : Int) - den.log2 - 1) * 1233 / 4096 - 1) num den

/-- The reals that round to a float: `low / den` to `high / den` around `mid / den`. -/
structure Interval where
  low : Nat
  mid : Nat
  high : Nat
  den : Nat
  /-- Whether the ends themselves round to the float. -/
  closed : Bool

namespace Interval

/-- Whether the ratio `n / 1` lies in the interval. -/
def holds (i : Interval) (n : Nat) : Bool :=
  if i.closed then i.low ≤ n * i.den && n * i.den ≤ i.high else i.low < n * i.den && n * i.den < i.high

/-- Measures the interval in units of `10 ^ e`. -/
def scaled (i : Interval) (e : Int) : Interval :=
  if 0 ≤ e then { i with den := i.den * Nat.pow 10 e.toNat }
  else
    let unit := Nat.pow 10 (-e).toNat
    { i with low := i.low * unit, mid := i.mid * unit, high := i.high * unit }

/-- The whole number nearest to the middle among those in the interval; the upper one of a tie. -/
def nearest? (i : Interval) : Option Nat :=
  let below := i.mid / i.den
  let lowerFits := i.holds below
  let upperFits := i.holds (below + 1)
  if lowerFits && (!upperFits || 2 * (i.mid % i.den) < i.den) then some below
  else if upperFits then some (below + 1)
  else none

end Interval

/-- The reals that round to the nonzero finite magnitude with these bits. -/
def interval (f : Format) (bits : Nat) : Interval :=
  let x := f.magnitude bits
  -- Quarters of the last place: at a power of two the next number below is only half as far away.
  let below := if x.mantissa = Nat.pow 2 f.fractionBits && f.minScale < x.scale then 1 else 2
  let scale := x.scale - 2
  let unit := Nat.pow 2 scale.toNat
  { low := (4 * x.mantissa - below) * unit
    mid := 4 * x.mantissa * unit
    high := (4 * x.mantissa + 2) * unit
    den := Nat.pow 2 (-scale).toNat
    closed := x.mantissa % 2 = 0 }

/-- Tries `count` digits and more; `place` is the place of the leading digit. -/
def searchShortest (i : Interval) (place : Int) : (fuel : Nat) → (count : Nat) → Decimal
  | 0, count => ⟨(i.scaled (place - count)).mid / (i.scaled (place - count)).den, place - count⟩
  | fuel + 1, count =>
    match (i.scaled (place - count)).nearest? with
    | some digits => ⟨digits, place - count⟩
    | none => searchShortest i place fuel (count + 1)

/-- Drops zeros at the end of the digits. -/
def dropZeros : (fuel : Nat) → Decimal → Decimal
  | 0, d => d
  | fuel + 1, d =>
    if d.digits % 10 = 0 && d.digits ≠ 0 then dropZeros fuel ⟨d.digits / 10, d.exponent + 1⟩ else d

/-- The shortest decimal that rounds to the finite magnitude with these bits, the nearest of them
if there are several.  Seventeen digits are always enough. -/
def shortest (f : Format) (bits : Nat) : Decimal :=
  if bits = 0 then ⟨0, 0⟩
  else
    let i := f.interval bits
    dropZeros 20 (searchShortest i (decimalPlace i.mid i.den) 17 1)

end Format

end Effectful
