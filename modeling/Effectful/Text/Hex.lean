/-!
# Hexadecimal text

Bytes are written as two lower-case digits each, fixed-width words as that many digits with zeros in
front.  Reading accepts digits of either case.
-/

namespace Effectful.Hex

/-- The digit of a value below sixteen. -/
def digit (n : Nat) : Char :=
  if n < 10 then Char.ofNat ('0'.toNat + n) else Char.ofNat ('a'.toNat + (n - 10))

/-- The value of a digit of either case. -/
def digitValue? (c : Char) : Option Nat :=
  if '0' ≤ c && c ≤ '9' then some (c.toNat - '0'.toNat)
  else if 'a' ≤ c && c ≤ 'f' then some (c.toNat - 'a'.toNat + 10)
  else if 'A' ≤ c && c ≤ 'F' then some (c.toNat - 'A'.toNat + 10)
  else none

/-- The last `width` digits of a number. -/
def digits : (width : Nat) → Nat → List Char
  | 0, _ => []
  | width + 1, n => digits width (n / 16) ++ [digit (n % 16)]

/-- A number as `width` digits. -/
def word (width n : Nat) : String := String.ofList (digits width n)

/-- Bytes as text, two digits each. -/
def ofBytes (bytes : List UInt8) : String :=
  String.ofList (bytes.flatMap fun b => [digit (b.toNat / 16), digit (b.toNat % 16)])

/-- The number that a nonempty list of digits spells. -/
def number? (s : String) : Option Nat :=
  if s.isEmpty then none
  else s.toList.foldlM (fun n c => (digitValue? c).map (16 * n + ·)) 0

/-- The bytes that pairs of digits spell. -/
def pairs? : List Char → Option (List UInt8)
  | [] => some []
  | [_] => none
  | a :: b :: rest => do
    let hi ← digitValue? a
    let lo ← digitValue? b
    let bytes ← pairs? rest
    return .ofNat (16 * hi + lo) :: bytes

/-- Reads bytes written by `ofBytes`. -/
def toBytes? (s : String) : Option (List UInt8) := pairs? s.toList

end Effectful.Hex
