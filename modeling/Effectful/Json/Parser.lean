import Effectful.Json.Basic
/-!
# Reading JSON text

A recursive reader over the characters of a text.  `Json.scan?` takes the number of arrays and objects
that may be open at once; texts from files are held to `Json.fileDepth`.  It refuses what is no JSON.
What is JSON and yet has no value stays in its place as `Json.unreadable`, so a file may hold such
things in members that its schema does not know.  `Json.parse?` refuses them everywhere.

Whole numbers that fit 64 bits stay whole.  All other numbers become floats by a short rule: the
first digits that fit 64 bits make a float, and the remaining power of ten is multiplied or divided
in, in one step where it can be.  The result can differ from the nearest float in the last place.
-/

namespace Effectful.Json

/-- How many arrays and objects may be open at once in a file. -/
def fileDepth : Nat := 127

def isBlank (c : Char) : Bool := c == ' ' || c == '\n' || c == '\t' || c == '\r'

def skipBlanks (cs : List Char) : List Char := cs.dropWhile isBlank

/-! ### Numbers -/

/-- The digits of a number that make its significand, and the power of ten that is left. -/
structure Significand where
  value : Nat
  scale : Int

/-- Whether another digit still fits an unsigned 64-bit word. -/
def Significand.takes (value digit : Nat) : Bool := value * 10 + digit < UInt64.size

/-- Digits in front of the point: once one does not fit, it and all later ones count as places. -/
def wholeDigits : Nat → List Nat → Significand
  | v, [] => ⟨v, 0⟩
  | v, d :: ds => if Significand.takes v d then wholeDigits (v * 10 + d) ds else ⟨v, ds.length + 1⟩

/-- Digits behind the point: each digit that fits lowers the scale, and the first that does not fit
ends the significand. -/
def fractionDigits : Significand → List Nat → Significand
  | s, [] => s
  | s, d :: ds =>
    if Significand.takes s.value d then fractionDigits ⟨s.value * 10 + d, s.scale - 1⟩ ds else s

/-- The float nearest to `10 ^ n`. -/
def powTen (n : Nat) : Binary64 := .ofMagnitude false (Format.double.roundDecimal ⟨1, n⟩)

/-- Multiplies the power of ten `scale` into a float.  Below `1e-308` it is divided in by steps of
`1e308`, `fuel` of them at most; a result that is too large is no number. -/
def applyScale : (fuel : Nat) → Binary64 → Int → Option Binary64
  | 0, _, _ => some .zero
  | fuel + 1, x, scale =>
    if scale.natAbs ≤ 308 then
      if 0 ≤ scale then
        let y := x.mul (powTen scale.natAbs)
        if y.isInfinite then none else some y
      else some (x.div (powTen scale.natAbs))
    else if x.isZero then some x
    else if 0 ≤ scale then none
    else applyScale fuel (x.div (powTen 308)) (scale + 308)

/-- The float of a significand.  Four steps of `1e308` take every significand to zero. -/
def realOf (negative : Bool) (s : Significand) : Json :=
  match applyScale 4 (.ofInt s.value) s.scale with
  | some x => .real (if negative then x.neg else x)
  | none => .unreadable

def digitValue (c : Char) : Nat := c.toNat - '0'.toNat

/-- The exponent of a number: an optional sign and at least one digit. -/
def exponent? (cs : List Char) : Option (Int × List Char) :=
  let (negative, cs) := match cs with
    | '-' :: cs => (true, cs)
    | '+' :: cs => (false, cs)
    | cs => (false, cs)
  match cs.takeWhile Char.isDigit with
  | [] => none
  | ds =>
    let n := Decimal.ofDigits ds
    some (if negative then -(n : Int) else n, cs.dropWhile Char.isDigit)

/-- An unsigned number: no zero in front of other digits, and digits on both sides of a point. -/
def number? (negative : Bool) (cs : List Char) : Option (Json × List Char) := do
  let whole := cs.takeWhile Char.isDigit
  let rest := cs.dropWhile Char.isDigit
  if whole.isEmpty || (whole.head? == some '0' && 1 < whole.length) then none
  let (fraction, isReal, rest) ← match rest with
    | '.' :: rest =>
      let fraction := rest.takeWhile Char.isDigit
      if fraction.isEmpty then none else some (fraction, true, rest.dropWhile Char.isDigit)
    | rest => some ([], false, rest)
  let (exponent, isReal, rest) ← match rest with
    | 'e' :: rest => (exponent? rest).map fun (e, rest) => (e, true, rest)
    | 'E' :: rest => (exponent? rest).map fun (e, rest) => (e, true, rest)
    | rest => some (0, isReal, rest)
  let n := Decimal.ofDigits whole
  if !isReal && !negative && n < UInt64.size then some (.int n, rest)
  else if !isReal && negative && n ≠ 0 && n ≤ UInt64.size / 2 then some (.int (-n), rest)
  else
    let s := fractionDigits (wholeDigits 0 (whole.map digitValue)) (fraction.map digitValue)
    some (realOf negative ⟨s.value, s.scale + exponent⟩, rest)

/-! ### Strings -/

/-- Four hexadecimal digits. -/
def unit? : List Char → Option (Nat × List Char)
  | a :: b :: c :: d :: rest => do
    let value (c : Char) : Option Nat :=
      if c.isDigit then some (c.toNat - '0'.toNat)
      else if 'a' ≤ c && c ≤ 'f' then some (c.toNat - 'a'.toNat + 10)
      else if 'A' ≤ c && c ≤ 'F' then some (c.toNat - 'A'.toNat + 10)
      else none
    let a ← value a
    let b ← value b
    let c ← value c
    let d ← value d
    some (((a * 16 + b) * 16 + c) * 16 + d, rest)
  | _ => none

/-- The character after `\u`: one unit, or a pair of surrogates.  Half a pair is no character. -/
def escapedUnit? (cs : List Char) : Option (Option Char × List Char) := do
  let (high, rest) ← unit? cs
  if 0xD800 ≤ high && high < 0xDC00 then
    match rest with
    | '\\' :: 'u' :: more =>
      let (low, more) ← unit? more
      if 0xDC00 ≤ low && low < 0xE000 then
        some (some (Char.ofNat (0x10000 + (high - 0xD800) * 0x400 + (low - 0xDC00))), more)
      else some (none, rest)
    | rest => some (none, rest)
  else if 0xDC00 ≤ high && high < 0xE000 then some (none, rest)
  else some (some (Char.ofNat high), rest)

/-- The character that an escape other than `\u` stands for. -/
def escape? : Char → Option Char
  | '"' => some '"'
  | '\\' => some '\\'
  | '/' => some '/'
  | 'b' => some '\x08'
  | 'f' => some '\x0c'
  | 'n' => some '\n'
  | 'r' => some '\r'
  | 't' => some '\t'
  | _ => none

/-- The rest of a string after its opening quote; `seen` holds its characters in reverse, as long as all
of them are characters.  Every call spends fuel; one unit for each character is enough. -/
def stringBody? : (fuel : Nat) → (seen : Option (List Char)) → List Char → Option (Option String × List Char)
  | 0, _, _ => none
  | fuel + 1, seen, cs =>
    match cs with
    | '"' :: rest => some (seen.map fun cs => String.ofList cs.reverse, rest)
    | '\\' :: 'u' :: rest =>
      match escapedUnit? rest with
      | some (some c, rest) => stringBody? fuel (seen.map (c :: ·)) rest
      | some (none, rest) => stringBody? fuel none rest
      | none => none
    | '\\' :: c :: rest =>
      match escape? c with
      | some c => stringBody? fuel (seen.map (c :: ·)) rest
      | none => none
    | c :: rest => if c.toNat < 0x20 then none else stringBody? fuel (seen.map (c :: ·)) rest
    | [] => none

/-! ### Values -/

/-- The value, unless it may not be there. -/
def ifAllowed (allowed : Bool) (j : Json) : Json := if allowed then j else .unreadable

mutual

/-- A value.  Every call spends fuel; two units for each character are enough. -/
def value? : (fuel depth : Nat) → List Char → Option (Json × List Char)
  | 0, _, _ => none
  | fuel + 1, depth, cs =>
    match skipBlanks cs with
    | 'n' :: 'u' :: 'l' :: 'l' :: rest => some (.null, rest)
    | 't' :: 'r' :: 'u' :: 'e' :: rest => some (.bool true, rest)
    | 'f' :: 'a' :: 'l' :: 's' :: 'e' :: rest => some (.bool false, rest)
    | '"' :: rest =>
      match stringBody? fuel (some []) rest with
      | some (some s, rest) => some (.str s, rest)
      | some (none, rest) => some (.unreadable, rest)
      | none => none
    | '[' :: rest =>
      let found := match skipBlanks rest with
        | ']' :: rest => some ([], rest)
        | rest => items? fuel (depth - 1) [] rest
      found.map fun (items, rest) => (ifAllowed (0 < depth) (.arr items), rest)
    | '\x7b' :: rest =>
      let found := match skipBlanks rest with
        | '\x7d' :: rest => some (some [], rest)
        | rest => members? fuel (depth - 1) (some []) rest
      found.map fun (members, rest) =>
        (match members with
          | some members => ifAllowed (0 < depth) (.obj members)
          | none => .unreadable, rest)
    | '-' :: rest => number? true rest
    | rest => number? false rest

/-- The items of an array after its bracket; `seen` holds the earlier ones in reverse. -/
def items? : (fuel depth : Nat) → (seen : List Json) → List Char → Option (List Json × List Char)
  | 0, _, _, _ => none
  | fuel + 1, depth, seen, cs =>
    match value? fuel depth cs with
    | none => none
    | some (j, rest) =>
      match skipBlanks rest with
      | ',' :: rest => items? fuel depth (j :: seen) rest
      | ']' :: rest => some ((j :: seen).reverse, rest)
      | _ => none

/-- The members of an object after its brace; `seen` holds the earlier ones in reverse, as long as all
of them have names. -/
def members? : (fuel depth : Nat) → (seen : Option (List (String × Json))) → List Char →
    Option (Option (List (String × Json)) × List Char)
  | 0, _, _, _ => none
  | fuel + 1, depth, seen, cs =>
    match skipBlanks cs with
    | '"' :: rest =>
      match stringBody? fuel (some []) rest with
      | none => none
      | some (name, rest) =>
        match skipBlanks rest with
        | ':' :: rest =>
          match value? fuel depth rest with
          | none => none
          | some (j, rest) =>
            let seen := match seen, name with
              | some seen, some name => some ((name, j) :: seen)
              | _, _ => none
            match skipBlanks rest with
            | ',' :: rest => members? fuel depth seen rest
            | '\x7d' :: rest => some (seen.map List.reverse, rest)
            | _ => none
        | _ => none
    | _ => none

end

/-- Reads a text that holds one value.  Below `depth` open arrays and objects, more of them are
unreadable. -/
def scan? (depth : Nat) (text : String) : Option Json :=
  let cs := text.toList
  match value? (2 * cs.length + 2) depth cs with
  | some (j, rest) => if (skipBlanks rest).isEmpty then some j else none
  | none => none

/-- Reads a text that holds one value with at most `depth` arrays and objects open at once. -/
def parse? (depth : Nat) (text : String) : Option Json := (scan? depth text).filter isReadable

end Effectful.Json
