import Effectful.Json.Basic
/-!
# Reading data out of JSON values

The schemas of this project have three shapes.  A *record* is an object with its fields by name, or
an array with its fields in order; unknown names are ignored, a name must not repeat, and a field
that may be missing has a default.  A *choice* is a string for a case without data, or an object with
one member for a case with data; named parts of a case form an object, and in a file perhaps an array.
Everything else is a scalar or a list.
-/

namespace Effectful.Json

/-! ### Scalars and lists -/

def bool? : Json → Option Bool
  | .bool b => some b
  | _ => none

def str? : Json → Option String
  | .str s => some s
  | _ => none

/-- An integer of some range. -/
def int? (low high : Int) : Json → Option Int
  | .int n => if low ≤ n && n ≤ high then some n else none
  | _ => none

def nat32? (j : Json) : Option Nat := (j.int? 0 (UInt32.size - 1)).map Int.toNat

def nat64? (j : Json) : Option Nat := (j.int? 0 (UInt64.size - 1)).map Int.toNat

def int32? (j : Json) : Option Int32 := (j.int? Int32.minValue.toInt Int32.maxValue.toInt).map .ofInt

def int64? (j : Json) : Option Int64 := (j.int? Int64.minValue.toInt Int64.maxValue.toInt).map .ofInt

/-- A float; a whole number counts as one. -/
def binary64? : Json → Option Binary64
  | .int n => some (.ofInt n)
  | .real x => some x
  | _ => none

/-- A 32-bit float; a whole number is rounded once. -/
def binary32? : Json → Option Binary32
  | .int n => some (.ofInt n)
  | .real x => some x.narrow
  | _ => none

/-- A value that may be `null`. -/
def optional? {α : Type} (read : Json → Option α) : Json → Option (Option α)
  | .null => some none
  | j => (read j).map some

/-- The items of an array, each read in the same way. -/
def list? {α : Type} (read : Json → Option α) : Json → Option (List α)
  | .arr items => items.mapM read
  | _ => none

/-! ### Records -/

structure Field where
  name : String
  /-- Whether the field may be left out at the end of a record written as an array. -/
  trailing : Bool := false

/-- The values of the fields of an object; a field that occurs twice spoils the record. -/
def fieldsByName (members : List (String × Json)) : List Field → Option (List (Option Json))
  | [] => some []
  | f :: fs =>
    match members.filter (·.1 == f.name) with
    | [] => (fieldsByName members fs).map (none :: ·)
    | [(_, j)] => (fieldsByName members fs).map (some j :: ·)
    | _ => none

/-- The values of the fields of an array, in order. -/
def fieldsByPlace : List Json → List Field → Option (List (Option Json))
  | [], [] => some []
  | _ :: _, [] => none
  | [], f :: fs => if f.trailing then (fieldsByPlace [] fs).map (none :: ·) else none
  | j :: js, _ :: fs => (fieldsByPlace js fs).map (some j :: ·)

/-- The values of a record's fields, `none` for those that are left out. -/
def record? (fields : List Field) : Json → Option (List (Option Json))
  | .obj members => fieldsByName members fields
  | .arr items => fieldsByPlace items fields
  | _ => none

/-- The values of the named parts of a case, `none` for those that are left out. -/
def parts? (names : List String) : Json → Option (List (Option Json))
  | .obj members => fieldsByName members (names.map (⟨·, false⟩))
  | _ => none

def required? {α : Type} (read : Json → Option α) (field : Option Json) : Option α := field.bind read

def defaulted? {α : Type} (fallback : α) (read : Json → Option α) : Option Json → Option α
  | some j => read j
  | none => some fallback

/-- A field that may be missing or `null`. -/
def missing? {α : Type} (read : Json → Option α) : Option Json → Option (Option α)
  | some j => optional? read j
  | none => some none

/-! ### Choices -/

/-- The name of a case and its data, if there is any. -/
def case? : Json → Option (String × Option Json)
  | .str name => some (name, none)
  | .obj [(name, data)] => some (name, some data)
  | _ => none

/-- The name of a case that has no data. -/
def name? (j : Json) : Option String :=
  match j.case? with
  | some (name, none) => some name
  | some (name, some .null) => some name
  | _ => none

/-! ### Cases in order

In a file the named parts of a case may stand in an array, all of them and in order.  Naming them
first lets one reader do for both forms.
-/

/-- The data of a case with its parts named, if they stand in an array of the right length. -/
def nameData (names : List String) : Json → Json
  | .arr items => if items.length = names.length then .obj (names.zip items) else .arr items
  | j => j

mutual

/-- Names the parts of the given cases wherever they stand in arrays. -/
def nameParts (cases : List (String × List String)) : Json → Json
  | .arr items => .arr (namePartsItems cases items)
  | .obj [(name, data)] =>
    let data := data.nameParts cases
    .obj [(name, match cases.lookup name with
      | some names => data.nameData names
      | none => data)]
  | .obj members => .obj (namePartsMembers cases members)
  | j => j

def namePartsItems (cases : List (String × List String)) : List Json → List Json
  | [] => []
  | j :: js => j.nameParts cases :: namePartsItems cases js

def namePartsMembers (cases : List (String × List String)) : List (String × Json) → List (String × Json)
  | [] => []
  | (k, j) :: ms => (k, j.nameParts cases) :: namePartsMembers cases ms

end

end Effectful.Json
