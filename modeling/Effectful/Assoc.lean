/-!
# Finite maps as lists

Small maps are lists of keys and values in the order in which the keys were first set.  Each key
occurs once.
-/

namespace Effectful.Assoc

variable {κ α : Type} [BEq κ]

def get? (m : List (κ × α)) (k : κ) : Option α := m.lookup k

/-- Sets the value at a key; a key that is there keeps its place. -/
def set (m : List (κ × α)) (k : κ) (v : α) : List (κ × α) :=
  match m with
  | [] => [(k, v)]
  | (k', v') :: rest => if k' == k then (k', v) :: rest else (k', v') :: set rest k v

end Effectful.Assoc
