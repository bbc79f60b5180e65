import Effectful.Number.Shortest
/-!
# Floats as text

Writing uses the shortest digits that read back.  There are two notations: the positional one of
messages (`1`, `0.1`, `-0`, `inf`, `NaN`, never an exponent) and the one of data files (`1.0`,
`0.1`, `1e16`), which differ only in the choices collected in `FloatStyle`.

Reading accepts an optional sign and either `inf`, `infinity`, `nan` in any case, or digits with an
optional point and an optional exponent; the result is the nearest float.
-/

namespace Effectful

/-! ### Writing -/

/-- How a decimal is laid out. -/
structure FloatStyle where
  /-- The leading digit's place up to which whole digits are written out; `none` is no limit. -/
  wholePlaces : Option Int
  /-- The lowest place of the leading digit that is written with zeros after the point. -/
  zeroPlaces : Option Int
  /-- Whether a whole number ends in `.0`. -/
  keepsPoint : Bool

namespace FloatStyle

/-- The notation of messages: positional, without a point where none is needed. -/
def plain : FloatStyle := ⟨none, none, false⟩

/-- The notation of data files for 64-bit floats. -/
def data64 : FloatStyle := ⟨some 16, some (-4), true⟩

/-- The notation of data files for 32-bit floats. -/
def data32 : FloatStyle := ⟨some 13, some (-5), true⟩

/-- The notation of detailed messages. -/
def detailed : FloatStyle := ⟨some 16, some (-3), true⟩

/-- Lays out a nonnegative decimal.  `place` counts the digits in front of the point. -/
def write (style : FloatStyle) (d : Decimal) : String :=
  let ds := toString d.digits
  let place : Int := ds.length + d.exponent
  let wholeFits := match style.wholePlaces with | some n => decide (place ≤ n) | none => true
  let zeroFits := match style.zeroPlaces with | some n => decide (n ≤ place) | none => true
  if 0 ≤ d.exponent && wholeFits then
    ds ++ "".pushn '0' d.exponent.toNat ++ (if style.keepsPoint then ".0" else "")
  else if 0 < place && wholeFits then
    String.ofList (ds.toList.take place.toNat) ++ "." ++ String.ofList (ds.toList.drop place.toNat)
  else if place ≤ 0 && zeroFits then
    "0." ++ "".pushn '0' (-place).toNat ++ ds
  else
    let rest := ds.toList.drop 1
    String.ofList (ds.toList.take 1) ++ (if rest.isEmpty then "" else "." ++ String.ofList rest)
      ++ "e" ++ toString (place - 1)

end FloatStyle

def Binary64.textIn (style : FloatStyle) (x : Binary64) : String :=
  if x.isNaN then "NaN"
  else
    let sign := if x.isNegative then "-" else ""
    if x.isInfinite then sign ++ "inf" else sign ++ style.write (Format.double.shortest x.magnitudeBits)

def Binary32.textIn (style : FloatStyle) (x : Binary32) : String :=
  if x.isNaN then "NaN"
  else
    let sign := if x.isNegative then "-" else ""
    if x.isInfinite then sign ++ "inf" else sign ++ style.write (Format.single.shortest x.magnitudeBits)

def Binary64.text (x : Binary64) : String := x.textIn .plain

def Binary32.text (x : Binary32) : String := x.textIn .plain

/-! ### Reading -/

/-- Why a text is no float. -/
inductive FloatSyntaxError where
  | empty
  | invalid
deriving DecidableEq, Repr

def FloatSyntaxError.message : FloatSyntaxError → String
  | .empty => "cannot parse float from empty string"
  | .invalid => "invalid float literal"

namespace Decimal

/-- The number that a list of decimal digits spells. -/
def ofDigits (ds : List Char) : Nat := ds.foldl (fun n c => 10 * n + (c.toNat - '0'.toNat)) 0

/-- The exponent behind `e`, which needs at least one digit and may have a sign. -/
def readExponent? : List Char → Option Int
  | '-' :: ds => if !ds.isEmpty && ds.all Char.isDigit then some (-(ofDigits ds : Int)) else none
  | '+' :: ds => if !ds.isEmpty && ds.all Char.isDigit then some (ofDigits ds) else none
  | ds => if !ds.isEmpty && ds.all Char.isDigit then some (ofDigits ds) else none

/-- An unsigned decimal: digits with an optional point, at least one digit, then an optional
exponent. -/
def read? (cs : List Char) : Option Decimal := do
  let whole := cs.takeWhile Char.isDigit
  let rest := cs.dropWhile Char.isDigit
  let (fraction, rest) := match rest with
    | '.' :: rest => (rest.takeWhile Char.isDigit, rest.dropWhile Char.isDigit)
    | rest => ([], rest)
  if whole.isEmpty && fraction.isEmpty then none
  let digits := ofDigits (whole ++ fraction)
  let exponent ← match rest with
    | [] => some 0
    | 'e' :: es => readExponent? es
    | 'E' :: es => readExponent? es
    | _ => none
  return ⟨digits, exponent - fraction.length⟩

end Decimal

/-- The magnitude of `f` nearest to a decimal.  Decimals far beyond both ends of the format are
settled by the place of their leading digit, so that no huge power is computed. -/
def Format.roundDecimal (f : Format) (d : Decimal) : Nat :=
  if d.digits = 0 then 0
  else
    let place : Int := (toString d.digits).length + d.exponent
    if 400 < place then f.infinity
    else if place < -400 then 0
    else if 0 ≤ d.exponent then f.roundRatio (d.digits * Nat.pow 10 d.exponent.toNat) 1
    else f.roundRatio d.digits (Nat.pow 10 (-d.exponent).toNat)

/-- Reads the sign and the magnitude of a float, `none` for a NaN. -/
def Format.readFloat (f : Format) (s : String) : Except FloatSyntaxError (Bool × Option Nat) :=
  match s.toList with
  | [] => .error .empty
  | c :: cs =>
    let negative := c == '-'
    let body := if c == '-' || c == '+' then cs else c :: cs
    let word := String.ofList (body.map Char.toLower)
    if word = "inf" || word = "infinity" then .ok (negative, some f.infinity)
    else if word = "nan" then .ok (negative, none)
    else match Decimal.read? body with
      | some d => .ok (negative, some (f.roundDecimal d))
      | none => .error .invalid

def Binary64.read (s : String) : Except FloatSyntaxError Binary64 := do
  let (negative, bits) ← Format.double.readFloat s
  return .ofMagnitude negative (bits.getD (Format.double.infinity + Format.double.quietBit))

def Binary32.read (s : String) : Except FloatSyntaxError Binary32 := do
  let (negative, bits) ← Format.single.readFloat s
  return .ofMagnitude negative (bits.getD (Format.single.infinity + Format.single.quietBit))

end Effectful
