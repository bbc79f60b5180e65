import Effectful.Program.Expr
/-!
# Sets of locals

A set of locals lists its members in ascending order, each once.
-/

namespace Effectful

abbrev LocalSet := List LocalId

namespace LocalSet

/-- The set with one more member. -/
def insert (l : LocalId) : LocalSet → LocalSet
  | [] => [l]
  | m :: ms => if l = m then m :: ms else if l.index < m.index then l :: m :: ms else m :: insert l ms

def ofList (ls : List LocalId) : LocalSet := ls.foldl (fun s l => insert l s) []

def union (s t : LocalSet) : LocalSet := t.foldl (fun s l => insert l s) s

def erase (s : LocalSet) (l : LocalId) : LocalSet := s.filter (· != l)

@[simp]
theorem mem_insert {l m : LocalId} {s : LocalSet} : l ∈ insert m s ↔ l = m ∨ l ∈ s := by
  induction s with
  | nil => simp [insert]
  | cons x s ih =>
    by_cases hx : m = x
    · simp [insert, hx]
    · by_cases hlt : m.index < x.index
      · simp [insert, hx, hlt]
      · simp [insert, hx, hlt, ih, or_left_comm]

@[simp]
theorem mem_union {l : LocalId} {s t : LocalSet} : l ∈ union s t ↔ l ∈ s ∨ l ∈ t := by
  induction t generalizing s with
  | nil => simp [union]
  | cons m t ih =>
    have hstep : union s (m :: t) = union (insert m s) t := rfl
    rw [hstep, ih, mem_insert, List.mem_cons, or_assoc, or_left_comm]

@[simp]
theorem mem_ofList {l : LocalId} {ls : List LocalId} : l ∈ ofList ls ↔ l ∈ ls := by
  have h : ofList ls = union [] ls := rfl
  simp [h]

@[simp]
theorem mem_erase {l m : LocalId} {s : LocalSet} : l ∈ erase s m ↔ l ∈ s ∧ l ≠ m := by simp [erase]

end LocalSet

/-- The locals that a construct itself reads or assigns. -/
def Form.usedLocals : Form → List LocalId
  | .var l => [l]
  | .assign l _ => [l]
  | _ => []

def Stmt.declared? : Stmt → Option LocalId
  | .bind l _ => some l
  | .expr _ => none

def Pattern.declared? : Pattern → Option LocalId
  | .binding l => some l
  | _ => none

/-- The locals that a construct itself declares. -/
def Form.declaredLocals : Form → List LocalId
  | .block stmts _ => stmts.filterMap (·.declared?)
  | .select _ arms => arms.filterMap (·.pattern.declared?)
  | .handle _ clauses _ => clauses.flatMap fun c => c.head.continuation :: c.head.params
  | .closure params _ => params
  | _ => []

/-- The locals that an expression uses and declares nowhere. -/
def Expr.freeLocals (e : Expr) : LocalSet :=
  let declared := e.walk.flatMap (·.form.declaredLocals)
  (LocalSet.ofList (e.walk.flatMap (·.form.usedLocals))).filter (!declared.contains ·)

end Effectful
