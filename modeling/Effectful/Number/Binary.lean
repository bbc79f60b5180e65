import Effectful.Number.Format
/-!
# Floating-point numbers by their bits

`Binary32` and `Binary64` are the two float types of the object language.  A number *is* its bit
pattern: two numbers are equal exactly when their bits are, so that values can be stored, sent
through memory and compared without loss.  The comparisons of the object language, in which a
not-a-number differs from everything and the two zeros are equal, are separate operations.

An arithmetic operation with a not-a-number among its operands gives the first of them, made quiet;
an operation that has no result on other operands gives `nan`.  The remainder is the exact one of
the truncated quotient and takes the sign of the dividend.
-/

namespace Effectful

/-- A 64-bit float, given by its bits. -/
structure Binary64 where
  bits : UInt64
deriving DecidableEq, Inhabited, Repr, Hashable

/-- A 32-bit float, given by its bits. -/
structure Binary32 where
  bits : UInt32
deriving DecidableEq, Inhabited, Repr, Hashable

/-! ### The remainder on bits -/

namespace Format

/-- The magnitude bits of the remainder of two finite nonzero magnitudes. -/
def remainder (f : Format) (a b : Nat) : Nat :=
  let x := f.magnitude a
  let y := f.magnitude b
  let scale := min x.scale y.scale
  let m := x.mantissa * Nat.pow 2 (x.scale - scale).toNat
  let n := y.mantissa * Nat.pow 2 (y.scale - scale).toNat
  f.roundMagnitude ⟨m % n, scale⟩

end Format

namespace Binary64

def magnitudeBits (x : Binary64) : Nat := x.bits.toNat % Format.double.signBit

def isNegative (x : Binary64) : Bool := Format.double.signBit ≤ x.bits.toNat

def isNaN (x : Binary64) : Bool := Format.double.infinity < x.magnitudeBits

def isInfinite (x : Binary64) : Bool := x.magnitudeBits = Format.double.infinity

def isZero (x : Binary64) : Bool := x.magnitudeBits = 0

/-- The number with the given sign and magnitude bits. -/
def ofMagnitude (negative : Bool) (bits : Nat) : Binary64 :=
  ⟨.ofNat (bits + if negative then Format.double.signBit else 0)⟩

/-- The result of an operation that has none. -/
def nan : Binary64 := ⟨0xfff8000000000000⟩

def infinity : Binary64 := ⟨0x7ff0000000000000⟩

def zero : Binary64 := ⟨0⟩

/-- A not-a-number made quiet; its other bits stay. -/
def quiet (x : Binary64) : Binary64 := ⟨x.bits ||| 0x0008000000000000⟩

/-- Applies `op` to two numbers that are not NaN; otherwise the first NaN, made quiet. -/
def combine (op : Binary64 → Binary64 → Binary64) (x y : Binary64) : Binary64 :=
  if x.isNaN then x.quiet else if y.isNaN then y.quiet else op x y

/-- The machine's arithmetic on the bits, with the one `nan` for results that do not exist. -/
def arith (op : Float → Float → Float) : Binary64 → Binary64 → Binary64 :=
  combine fun x y =>
    let r := op (.ofBits x.bits) (.ofBits y.bits)
    if r.isNaN then nan else ⟨r.toBits⟩

def add : Binary64 → Binary64 → Binary64 := arith (· + ·)
def sub : Binary64 → Binary64 → Binary64 := arith (· - ·)
def mul : Binary64 → Binary64 → Binary64 := arith (· * ·)
def div : Binary64 → Binary64 → Binary64 := arith (· / ·)

/-- The remainder of the truncated quotient, with the sign of the dividend. -/
def rem : Binary64 → Binary64 → Binary64 :=
  combine fun x y =>
    if x.isInfinite || y.isZero then nan
    else if y.isInfinite || x.isZero then x
    else ofMagnitude x.isNegative (Format.double.remainder x.magnitudeBits y.magnitudeBits)

/-- Flips the sign bit. -/
def neg (x : Binary64) : Binary64 := ⟨x.bits ^^^ 0x8000000000000000⟩

/-- Clears the sign bit. -/
def abs (x : Binary64) : Binary64 := ⟨x.bits &&& 0x7fffffffffffffff⟩

/-- The place of a number that is not NaN in the order of the reals, both zeros at `0`. -/
def rank (x : Binary64) : Int := if x.isNegative then -(x.magnitudeBits : Int) else x.magnitudeBits

/-- Equality as the object language compares. -/
def eq (x y : Binary64) : Bool := !x.isNaN && !y.isNaN && x.rank == y.rank

def lt (x y : Binary64) : Bool := !x.isNaN && !y.isNaN && x.rank < y.rank

def le (x y : Binary64) : Bool := !x.isNaN && !y.isNaN && x.rank ≤ y.rank

/-- The nearest number to an integer. -/
def ofInt (n : Int) : Binary64 := ofMagnitude (n < 0) (Format.double.roundRatio n.natAbs 1)

end Binary64

namespace Binary32

def magnitudeBits (x : Binary32) : Nat := x.bits.toNat % Format.single.signBit

def isNegative (x : Binary32) : Bool := Format.single.signBit ≤ x.bits.toNat

def isNaN (x : Binary32) : Bool := Format.single.infinity < x.magnitudeBits

def isInfinite (x : Binary32) : Bool := x.magnitudeBits = Format.single.infinity

def isZero (x : Binary32) : Bool := x.magnitudeBits = 0

/-- The number with the given sign and magnitude bits. -/
def ofMagnitude (negative : Bool) (bits : Nat) : Binary32 :=
  ⟨.ofNat (bits + if negative then Format.single.signBit else 0)⟩

/-- The result of an operation that has none. -/
def nan : Binary32 := ⟨0xffc00000⟩

def infinity : Binary32 := ⟨0x7f800000⟩

def zero : Binary32 := ⟨0⟩

def quiet (x : Binary32) : Binary32 := ⟨x.bits ||| 0x00400000⟩

def combine (op : Binary32 → Binary32 → Binary32) (x y : Binary32) : Binary32 :=
  if x.isNaN then x.quiet else if y.isNaN then y.quiet else op x y

def arith (op : Float32 → Float32 → Float32) : Binary32 → Binary32 → Binary32 :=
  combine fun x y =>
    let r := op (.ofBits x.bits) (.ofBits y.bits)
    if r.isNaN then nan else ⟨r.toBits⟩

def add : Binary32 → Binary32 → Binary32 := arith (· + ·)
def sub : Binary32 → Binary32 → Binary32 := arith (· - ·)
def mul : Binary32 → Binary32 → Binary32 := arith (· * ·)
def div : Binary32 → Binary32 → Binary32 := arith (· / ·)

/-- The remainder of the truncated quotient, with the sign of the dividend. -/
def rem : Binary32 → Binary32 → Binary32 :=
  combine fun x y =>
    if x.isInfinite || y.isZero then nan
    else if y.isInfinite || x.isZero then x
    else ofMagnitude x.isNegative (Format.single.remainder x.magnitudeBits y.magnitudeBits)

def neg (x : Binary32) : Binary32 := ⟨x.bits ^^^ 0x80000000⟩

def abs (x : Binary32) : Binary32 := ⟨x.bits &&& 0x7fffffff⟩

/-- The place of a number that is not NaN in the order of the reals, both zeros at `0`. -/
def rank (x : Binary32) : Int := if x.isNegative then -(x.magnitudeBits : Int) else x.magnitudeBits

def eq (x y : Binary32) : Bool := !x.isNaN && !y.isNaN && x.rank == y.rank

def lt (x y : Binary32) : Bool := !x.isNaN && !y.isNaN && x.rank < y.rank

def le (x y : Binary32) : Bool := !x.isNaN && !y.isNaN && x.rank ≤ y.rank

def ofInt (n : Int) : Binary32 := ofMagnitude (n < 0) (Format.single.roundRatio n.natAbs 1)

/-- The same number in the wider format; a NaN keeps its bits at the top and becomes quiet. -/
def widen (x : Binary32) : Binary64 :=
  let bits := x.magnitudeBits
  if x.isNaN then
    (Binary64.ofMagnitude x.isNegative
      (Format.double.infinity + bits % Nat.pow 2 23 * Nat.pow 2 29)).quiet
  else if x.isInfinite then .ofMagnitude x.isNegative Format.double.infinity
  else .ofMagnitude x.isNegative (Format.double.roundMagnitude (Format.single.magnitude bits))

end Binary32

/-- The nearest number of the narrower format; a NaN keeps its top bits and becomes quiet. -/
def Binary64.narrow (x : Binary64) : Binary32 :=
  let bits := x.magnitudeBits
  if x.isNaN then
    (Binary32.ofMagnitude x.isNegative
      (Format.single.infinity + bits % Nat.pow 2 52 / Nat.pow 2 29)).quiet
  else if x.isInfinite then .ofMagnitude x.isNegative Format.single.infinity
  else .ofMagnitude x.isNegative (Format.single.roundMagnitude (Format.double.magnitude bits))

end Effectful
