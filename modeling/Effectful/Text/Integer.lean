/-!
# Whole numbers as text

Reading is strict: an optional sign, then decimal digits and nothing else, and the number must fit
its range.  A minus sign is accepted only where the range has negative numbers.  Characters are
judged from the left, so digits that already leave the range win over a later wrong character.
-/

namespace Effectful.Text

/-- Why a text is no whole number of some range. -/
inductive IntegerError where
  | empty
  | invalidDigit
  | tooLarge
  | tooSmall
deriving DecidableEq, Repr

def IntegerError.message : IntegerError → String
  | .empty => "cannot parse integer from empty string"
  | .invalidDigit => "invalid digit found in string"
  | .tooLarge => "number too large to fit in target type"
  | .tooSmall => "number too small to fit in target type"

def digitsValue (ds : List Char) : Nat := ds.foldl (fun n c => 10 * n + (c.toNat - '0'.toNat)) 0

def readInteger (low high : Int) (s : String) : Except IntegerError Int :=
  match s.toList with
  | [] => .error .empty
  | ['+'] => .error .invalidDigit
  | ['-'] => .error .invalidDigit
  | '+' :: cs => positive cs
  | '-' :: cs =>
    if low < 0 then
      let n : Int := -(digitsValue (cs.takeWhile Char.isDigit) : Int)
      if n < low then .error .tooSmall else whole cs n
    else .error .invalidDigit
  | cs => positive cs
where
  /-- The number, if it takes up all characters. -/
  whole (cs : List Char) (n : Int) : Except IntegerError Int :=
    if cs.all Char.isDigit then .ok n else .error .invalidDigit
  positive (cs : List Char) : Except IntegerError Int :=
    let n : Int := digitsValue (cs.takeWhile Char.isDigit)
    if high < n then .error .tooLarge else whole cs n

def readNat64 (s : String) : Except IntegerError Nat := (readInteger 0 (UInt64.size - 1) s).map Int.toNat

end Effectful.Text
