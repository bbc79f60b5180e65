import Effectful.Text.Integer
import Effectful.Wire.Value
/-!
# Values on the command line

A value is written with its type, as in `i32:4`, `f64:0.5` or `none`.
-/

namespace Effectful.Cli

/-- Why a word is no value. -/
inductive ValueError where
  | noType (word : String)
  | unknownType (name : String)
  | badInteger (type word : String) (cause : Text.IntegerError)
  | badFloat (type word : String) (cause : FloatSyntaxError)
  /-- An answer does not say which operation it is for. -/
  | noLabel (word : String)
deriving DecidableEq, Repr

def ValueError.message : ValueError → String
  | .noType word => s!"value `{word}` has no type prefix"
  | .unknownType name => s!"unknown value type `{name}`"
  | .badInteger type word cause => s!"bad {type} `{word}`: {cause.message}"
  | .badFloat type word cause => s!"bad {type} `{word}`: {cause.message}"
  | .noLabel word => s!"answer `{word}` is not of the form Effect.op=VALUE"

/-- The text in front of a separator and the text behind it. -/
def splitOnce? (separator : Char) (s : String) : Option (String × String) :=
  match s.toList.dropWhile (· ≠ separator) with
  | [] => none
  | _ :: rest => some (String.ofList (s.toList.takeWhile (· ≠ separator)), String.ofList rest)

def readValue (word : String) : Except ValueError WireValue :=
  if word = "none" then .ok .none
  else match splitOnce? ':' word with
    | Option.none => .error (.noType word)
    | some (type, text) =>
      let integer (bits : Nat) : Except ValueError Int :=
        (Text.readInteger (-Nat.pow 2 (bits - 1)) (Nat.pow 2 (bits - 1) - 1) text).mapError (.badInteger type text)
      match type with
      | "i32" => (integer 32).map fun n => .i32 (.ofInt n)
      | "i64" => (integer 64).map fun n => .i64 (.ofInt n)
      | "f32" => ((Binary32.read text).mapError (.badFloat type text)).map .f32
      | "f64" => ((Binary64.read text).mapError (.badFloat type text)).map .f64
      | _ => .error (.unknownType type)

def readAnswer (word : String) : Except ValueError (String × WireValue) :=
  match splitOnce? '=' word with
  | none => .error (.noLabel word)
  | some (label, value) => (readValue value).map (label, ·)

def showValue : WireValue → String
  | .none => "none"
  | .i32 n => s!"i32:{n.toInt}"
  | .i64 n => s!"i64:{n.toInt}"
  | .f32 x => "f32:" ++ x.text
  | .f64 x => "f64:" ++ x.text

end Effectful.Cli
