/-!
# Names of program parts

Definitions, local variables and expressions are named by numbers.  Effects and functions share one
numbering; locals are numbered within a function; expressions are numbered over the whole program.
An operation is named by its effect and its position there, so overloads of one name stay apart.
-/

namespace Effectful

/-- An effect or a function. -/
structure DefId where
  index : Nat
deriving DecidableEq, Repr, Inhabited, Hashable

/-- A variable of a function, by its position in the function's table of locals. -/
structure LocalId where
  index : Nat
deriving DecidableEq, Repr, Inhabited, Hashable

structure ExprId where
  index : Nat
deriving DecidableEq, Repr, Inhabited, Hashable

structure OpRef where
  effect : DefId
  index : Nat
deriving DecidableEq, Repr, Inhabited, Hashable

/-- The first number that no new expression gets: ids are 32-bit words, and the largest one is kept
back. -/
def exprIdLimit : Nat := UInt32.size - 1

/-- How a definition is named in messages. -/
def DefId.text (d : DefId) : String := s!"def{d.index}"

/-- How a local is named in messages. -/
def LocalId.text (l : LocalId) : String := s!"_{l.index}"

end Effectful
