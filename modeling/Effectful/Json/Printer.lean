import Effectful.Json.Basic
import Effectful.Text.Hex
/-!
# Writing JSON text

Two layouts: compact, without any blank, and indented by two blanks a level.  Only the quote, the
backslash and control characters are escaped.
-/

namespace Effectful.Json

def escaped (c : Char) : String :=
  match c with
  | '"' => "\\\""
  | '\\' => "\\\\"
  | '\n' => "\\n"
  | '\r' => "\\r"
  | '\t' => "\\t"
  | '\x08' => "\\b"
  | '\x0c' => "\\f"
  | c => if c.toNat < 0x20 then "\\u" ++ Hex.word 4 c.toNat else c.toString

def quoted (s : String) : String := "\"" ++ String.join (s.toList.map escaped) ++ "\""

/-- A real number; an infinity or a NaN has no JSON form and is written `null`. -/
def realText (x : Binary64) : String :=
  if x.isNaN || x.isInfinite then "null"
  else x.textIn .data64

def singleText (x : Binary32) : String :=
  if x.isNaN || x.isInfinite then "null"
  else x.textIn .data32

/-- The text of a value without parts.  What was unreadable is written `null`. -/
def atomText : Json → String
  | .bool b => if b then "true" else "false"
  | .int n => toString n
  | .real x => realText x
  | .single x => singleText x
  | .str s => quoted s
  | .arr _ => "[]"
  | .obj _ => "\x7b\x7d"
  | .null | .unreadable => "null"

mutual

def compactAfter (out : String) : Json → String
  | .arr (j :: js) => compactItems (j.compactAfter (out ++ "[")) js ++ "]"
  | .obj ((k, j) :: ms) =>
    compactMembers (j.compactAfter (out ++ "\x7b" ++ quoted k ++ ":")) ms ++ "\x7d"
  | j => out ++ j.atomText

def compactItems (out : String) : List Json → String
  | [] => out
  | j :: js => compactItems (j.compactAfter (out ++ ",")) js

def compactMembers (out : String) : List (String × Json) → String
  | [] => out
  | (k, j) :: ms => compactMembers (j.compactAfter (out ++ "," ++ quoted k ++ ":")) ms

end

def compact (j : Json) : String := j.compactAfter ""

/-- The break and the indentation in front of a line of some level. -/
def newLine (level : Nat) : String := "\n" ++ "".pushn ' ' (2 * level)

mutual

/-- Indented text of a value that stands at some level, behind some text. -/
def indentedAfter (level : Nat) (out : String) : Json → String
  | .arr (j :: js) =>
    indentedItems (level + 1) (j.indentedAfter (level + 1) (out ++ "[" ++ newLine (level + 1))) js
      ++ newLine level ++ "]"
  | .obj ((k, j) :: ms) =>
    indentedMembers (level + 1)
      (j.indentedAfter (level + 1) (out ++ "\x7b" ++ newLine (level + 1) ++ quoted k ++ ": ")) ms
      ++ newLine level ++ "\x7d"
  | j => out ++ j.atomText

def indentedItems (level : Nat) (out : String) : List Json → String
  | [] => out
  | j :: js => indentedItems level (j.indentedAfter level (out ++ "," ++ newLine level)) js

def indentedMembers (level : Nat) (out : String) : List (String × Json) → String
  | [] => out
  | (k, j) :: ms =>
    indentedMembers level (j.indentedAfter level (out ++ "," ++ newLine level ++ quoted k ++ ": ")) ms

end

def pretty (j : Json) : String := j.indentedAfter 0 ""

end Effectful.Json
