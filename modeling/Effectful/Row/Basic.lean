import Effectful.Program.Id
import Effectful.Effect.ResumeKind
/-!
# Effect rows

A row says which operations a computation may perform, and whether a row variable adds further
ones:

* `{}` is pure,
* `{State.get, State.put}` is closed,
* `{Log.emit | ρ0}` is open.

Operations are known by their labels `Effect.op`, which overloads share.  A canonical row lists each
label once, in ascending order; of several operations with one label the first one met stands for
all.  Every operation below gives canonical rows from canonical rows.
-/

namespace Effectful

/-- A row variable: operations that are not known yet. -/
structure RowVar where
  index : Nat
deriving DecidableEq, Repr, Inhabited

def RowVar.text (v : RowVar) : String := s!"ρ{v.index}"

/-- An operation as a row records it. -/
structure RowOp where
  label : String
  effect : DefId
  kind : ResumeKind
deriving DecidableEq, Repr, Inhabited

structure Row where
  ops : List RowOp := []
  tail : Option RowVar := none
deriving DecidableEq, Repr, Inhabited

namespace Row

/-- The row of a computation that performs nothing. -/
def pure : Row := {}

/-- Adds an operation to ascending ones, unless its label is there already. -/
def insertOp (op : RowOp) : List RowOp → List RowOp
  | [] => [op]
  | o :: os =>
    if op.label = o.label then o :: os
    else if op.label < o.label then op :: o :: os
    else o :: insertOp op os

/-- The operations in ascending order of their labels; the first one of each label stays. -/
def sortOps (ops : List RowOp) : List RowOp := ops.foldl (fun sorted op => insertOp op sorted) []

/-- The canonical row of some operations and a tail. -/
def ofOps (ops : List RowOp) (tail : Option RowVar) : Row := ⟨sortOps ops, tail⟩

def single (op : RowOp) : Row := ⟨[op], none⟩

/-- The row of a variable alone. -/
def ofVar (v : RowVar) : Row := ⟨[], some v⟩

/-- The smaller of two variables, so that the order of composition does not matter. -/
def mergeTail : Option RowVar → Option RowVar → Option RowVar
  | some v, some w => some ⟨min v.index w.index⟩
  | some v, none => some v
  | none, w => w

/-- The union of rows, which is open if one of them is. -/
def compose : List Row → Row
  | [] => pure
  | [r] => r
  | rs => ofOps (rs.flatMap (·.ops)) (rs.foldl (fun tail r => mergeTail tail r.tail) none)

/-- The row without the operations of some labels; the tail stays. -/
def drop (r : Row) (labels : List String) : Row := { r with ops := r.ops.filter (!labels.contains ·.label) }

/-- The row with `v` as its tail replaced by another row. -/
def substitute (r : Row) (v : RowVar) (replacement : Row) : Row :=
  if r.tail = some v then compose [⟨r.ops, none⟩, replacement] else r

/-- Whether the row has no operations; an open row may be empty without being pure. -/
def isEmpty (r : Row) : Bool := r.ops.isEmpty

def isOpen (r : Row) : Bool := r.tail.isSome

def labels (r : Row) : List String := r.ops.map (·.label)

def contains (r : Row) (label : String) : Bool := r.ops.any (·.label == label)

/-- The row as messages show it. -/
def text (r : Row) : String :=
  let tail := match r.tail with
    | some v => (if r.isEmpty then "| " else " | ") ++ v.text
    | none => ""
  "\x7b" ++ String.intercalate ", " r.labels ++ tail ++ "\x7d"

end Row

end Effectful
