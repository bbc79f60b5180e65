import Effectful.Assoc
import Effectful.Row.Basic
/-!
# Row stores

A store keeps every row once and hands out its position as an id, so that comparing two ids compares
the rows.  An index leads from a row back to its id.  Row 0 is pure.  The store also counts row
variables and remembers the labels that it was asked to record.  Nothing is ever removed, so an id
keeps its meaning.

Where a row is its own result (the union of one row, dropping labels that it lacks, replacing a
variable that is not its tail), its id is given back as it is.
-/

namespace Effectful

structure RowId where
  index : Nat
deriving DecidableEq, Repr, Inhabited

/-- The empty closed row. -/
def RowId.pure : RowId := ⟨0⟩

/-- Rows without repetition. -/
structure RowStore where
  rows : List Row := [Row.pure]
  index : List (Row × RowId) := [(Row.pure, .pure)]
  labels : List String := []
  nextVar : Nat := 0
deriving DecidableEq, Inhabited

namespace RowStore

def get (s : RowStore) (id : RowId) : Row := (s.rows[id.index]?).getD Row.pure

def op (s : RowStore) (label : String) (effect : DefId) (kind : ResumeKind) : RowOp × RowStore :=
  (⟨label, effect, kind⟩, if s.labels.contains label then s else { s with labels := label :: s.labels })

/-- Whether the label was ever recorded. -/
def knows (s : RowStore) (label : String) : Bool := s.labels.contains label

def freshVar (s : RowStore) : RowVar × RowStore := (⟨s.nextVar⟩, { s with nextVar := s.nextVar + 1 })

/-- The row of some operations, in any order and with repetitions, and a tail.  It is added if the
store lacks it. -/
def intern (s : RowStore) (ops : List RowOp) (tail : Option RowVar) : RowId × RowStore :=
  let row := Row.ofOps ops tail
  match Assoc.get? s.index row with
  | some id => (id, s)
  | none =>
    let id : RowId := ⟨s.rows.length⟩
    (id, { s with rows := s.rows ++ [row], index := Assoc.set s.index row id })

/-- The union of rows, which is open if one of them is. -/
def compose (s : RowStore) : List RowId → RowId × RowStore
  | [] => (.pure, s)
  | [id] => (id, s)
  | ids => s.intern (ids.flatMap fun id => (s.get id).ops)
      (ids.foldl (fun tail id => Row.mergeTail tail (s.get id).tail) none)

/-- A row without some labels; the tail stays. -/
def drop (s : RowStore) (id : RowId) (labels : List String) : RowId × RowStore :=
  let row := s.get id
  if row.ops.any (labels.contains ·.label) then s.intern (row.ops.filter (!labels.contains ·.label)) row.tail
  else (id, s)

/-- A row with its tail replaced, if `v` is its tail. -/
def substitute (s : RowStore) (id : RowId) (v : RowVar) (replacement : RowId) : RowId × RowStore :=
  let row := s.get id
  if row.tail = some v then
    let (closed, s) := s.intern row.ops none
    s.compose [closed, replacement]
  else (id, s)

end RowStore

end Effectful
