import Effectful.Number.Text
/-!
# JSON values

A number is either a whole number written without point and exponent that fits 64 bits, or a real.
The two are kept apart because the schemas of this project do: a field that holds an integer refuses
`1.0`.  The members of an object keep their order and may repeat a name; whoever reads an object
decides what a repetition means.
-/

namespace Effectful

inductive Json where
  | null
  | bool (b : Bool)
  | int (n : Int)
  | real (x : Binary64)
  /-- A 32-bit float, which is written with as many digits as it needs; reading gives none. -/
  | single (x : Binary32)
  | str (s : String)
  | arr (items : List Json)
  | obj (members : List (String × Json))
  /-- Text that is well formed but has no value: a number beyond the range of floats, a string with half
  a surrogate pair, an object with such a name, an array or object too deep inside others.  Reading
  gives it a place, so that it does no harm where nobody looks. -/
  | unreadable
deriving Inhabited

namespace Json

/-- The value of the last member of that name. -/
def lookup? (name : String) (members : List (String × Json)) : Option Json :=
  (members.reverse.find? (·.1 == name)).map (·.2)

/-- A member of an object; `none` if there is none or this is no object. -/
def get? (name : String) : Json → Option Json
  | .obj members => lookup? name members
  | _ => none

def nat (n : Nat) : Json := .int n

/-- A value that may be missing, as `null`. -/
def ofOption {α : Type} (f : α → Json) : Option α → Json
  | some a => f a
  | none => .null

def strs (ss : List String) : Json := .arr (ss.map .str)

def nats (ns : List Nat) : Json := .arr (ns.map .nat)

mutual

/-- The number of arrays and objects around the innermost value. -/
def depth : Json → Nat
  | .arr items => depthItems items + 1
  | .obj members => depthMembers members + 1
  | _ => 0

def depthItems : List Json → Nat
  | [] => 0
  | j :: js => max j.depth (depthItems js)

def depthMembers : List (String × Json) → Nat
  | [] => 0
  | (_, j) :: ms => max j.depth (depthMembers ms)

end

mutual

/-- Whether everything inside has a value. -/
def isReadable : Json → Bool
  | .arr items => areReadable items
  | .obj members => membersAreReadable members
  | .unreadable => false
  | _ => true

def areReadable : List Json → Bool
  | [] => true
  | j :: js => j.isReadable && areReadable js

def membersAreReadable : List (String × Json) → Bool
  | [] => true
  | (_, j) :: ms => j.isReadable && membersAreReadable ms

end

/-- Drops all but the last member of each name. -/
def lastMembers (members : List (String × Json)) : List (String × Json) :=
  members.foldr (fun m kept => if kept.any (·.1 == m.1) then kept else m :: kept) []

mutual

/-- Drops repeated members at every level, so that the last of each name counts. -/
def settled : Json → Json
  | .arr items => .arr (settledItems items)
  | .obj members => .obj (lastMembers (settledMembers members))
  | j => j

def settledItems : List Json → List Json
  | [] => []
  | j :: js => j.settled :: settledItems js

def settledMembers : List (String × Json) → List (String × Json)
  | [] => []
  | (k, j) :: ms => (k, j.settled) :: settledMembers ms

end

end Json

end Effectful
