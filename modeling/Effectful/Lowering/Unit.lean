import Effectful.Analysis.Inference
import Effectful.Program.LocalSet
/-!
# Lowering units

A unit is a piece of code that is compiled as a function of its own.  Every function is a unit.  A
handler whose body may perform something is cut out of its function and gives two more:

* the *body unit* runs the guarded body,
* the *drive unit* looks at how the body ended and dispatches its requests to the clauses.

Both take the locals that they use and do not declare as parameters, by value.  So they must neither
assign one of them nor leave through `return`, `break` or `continue`; a clause alone may return, which
ends the clause.  Where the handler stood, an empty handler with the same id remains.

Units are listed in this order: a function, then for every handler in it the body unit, the units
from inside the body, the drive unit and the units from inside the clauses.
-/

namespace Effectful

inductive UnitKind where
  | function
  | body (handle : ExprId)
  | drive (handle : ExprId)
deriving DecidableEq, Repr, Inhabited

def UnitKind.text : UnitKind → String
  | .function => "Function"
  | .body handle => s!"Body \x7b handle: ExprId({handle.index}) \x7d"
  | .drive handle => s!"Drive \x7b handle: ExprId({handle.index}) \x7d"

structure LoweringUnit where
  name : String
  kind : UnitKind
  owner : DefId
  params : List LocalId
  /-- A drive unit has the handler itself with an empty body. -/
  body : Expr
  result : Ty
  /-- Whether the unit gives outcomes and can be resumed. -/
  effectful : Bool
deriving Inhabited

def LoweringUnit.isDrive (u : LoweringUnit) : Bool :=
  match u.kind with
  | .drive _ => true
  | _ => false

/-- How a cut-out handler calls its units, which are known by their positions. -/
structure LiftedHandle where
  bodyUnit : Nat
  driveUnit : Nat
  bodyArgs : LocalSet
  driveArgs : LocalSet
deriving DecidableEq, Inhabited

structure LiftedProgram where
  units : List LoweringUnit := []
  lifted : List (ExprId × LiftedHandle) := []
  diagnostics : List Diagnostic := []
deriving Inhabited

namespace LiftedProgram

def handle? (p : LiftedProgram) (id : ExprId) : Option LiftedHandle := Assoc.get? p.lifted id

def functionUnit? (p : LiftedProgram) (d : DefId) : Option Nat :=
  p.units.findIdx? fun u => u.owner == d && u.kind == .function

end LiftedProgram

/-! ### Cutting handlers out -/

/-- Whether a handler is cut out: its body may perform something. -/
def EffectAnalysis.isLifted (a : EffectAnalysis) (handle : ExprId) : Bool :=
  match a.handler? handle with
  | some plan => !plan.bodyRow.isEmpty
  | none => false

/-- What remains in the place of an expression: unit, with its id. -/
def Expr.hole (e : Expr) : Expr := .unitAt e.id e.span

mutual

/-- The expression with every handler emptied that is cut out. -/
def Expr.cut (a : EffectAnalysis) : Expr → Expr
  | .node id form ty span => .node id (form.cut a id) ty span

def Form.cut (a : EffectAnalysis) (id : ExprId) : Form → Form
  | .literal value => .literal value
  | .var source => .var source
  | .fn target => .fn target
  | .op operation typeArgs => .op operation typeArgs
  | .breakLoop => .breakLoop
  | .continueLoop => .continueLoop
  | .intrinsic which => .intrinsic which
  | .binary operator lhs rhs => .binary operator (lhs.cut a) (rhs.cut a)
  | .unary operator operand => .unary operator (operand.cut a)
  | .call callee args => .call (callee.cut a) (cutAll a args)
  | .perform operation args typeArgs => .perform operation (cutAll a args) typeArgs
  | .block stmts tail =>
    .block (cutStmts a stmts) (match tail with | some e => some (e.cut a) | none => none)
  | .assign target value => .assign target (value.cut a)
  | .branch cond onTrue onFalse =>
    .branch (cond.cut a) (onTrue.cut a) (match onFalse with | some e => some (e.cut a) | none => none)
  | .select scrutinee arms => .select (scrutinee.cut a) (cutArms a arms)
  | .loop body => .loop (body.cut a)
  | .whileLoop cond body => .whileLoop (cond.cut a) (body.cut a)
  | .ret value => .ret (match value with | some e => some (e.cut a) | none => none)
  | .handle body clauses finalizer =>
    if a.isLifted id then .handle body.hole [] finalizer
    else .handle (body.cut a) (cutClauses a clauses)
      (match finalizer with | some e => some (e.cut a) | none => none)
  | .closure params body => .closure params (body.cut a)
  | .tuple items => .tuple (cutAll a items)
  | .field base index => .field (base.cut a) index

def cutAll (a : EffectAnalysis) : List Expr → List Expr
  | [] => []
  | e :: es => e.cut a :: cutAll a es

def cutStmts (a : EffectAnalysis) : List Stmt → List Stmt
  | [] => []
  | .bind target (some e) :: ss => .bind target (some (e.cut a)) :: cutStmts a ss
  | .bind target none :: ss => .bind target none :: cutStmts a ss
  | .expr e :: ss => .expr (e.cut a) :: cutStmts a ss

def cutArms (a : EffectAnalysis) : List Arm → List Arm
  | [] => []
  | .mk pattern body :: as => .mk pattern (body.cut a) :: cutArms a as

def cutClauses (a : EffectAnalysis) : List Clause → List Clause
  | [] => []
  | .mk head body :: cs => .mk head (body.cut a) :: cutClauses a cs

end

/-! ### Confinement -/

/-- What a region is checked against. -/
structure RegionRules where
  /-- The locals that the region takes by value. -/
  captured : LocalSet
  /-- Whether the region is a clause, which may return. -/
  isClause : Bool

/-- The complaint about a construct itself, if it would leave its region. -/
def Form.stray? (r : RegionRules) (inLoop : Bool) : Form → Option String
  | .assign target _ =>
    if r.captured.contains target then some ("assignment to captured local " ++ target.text) else none
  | .ret _ => if r.isClause then none else some "`return`"
  | .breakLoop => if inLoop then none else some "`break` out of the region"
  | .continueLoop => if inLoop then none else some "`continue` out of the region"
  | _ => none

mutual

/-- The places at which a region would be left, with what stands there.  Closures are not searched:
they have no compiled form anyway. -/
def Expr.strays (r : RegionRules) (inLoop : Bool) : Expr → List (Span × String)
  | .node _ form _ span => (form.stray? r inLoop).toList.map (span, ·) ++ form.strays r inLoop

def Form.strays (r : RegionRules) (inLoop : Bool) : Form → List (Span × String)
  | .literal _ | .var _ | .fn _ | .op _ _ | .breakLoop | .continueLoop | .intrinsic _ | .closure _ _ => []
  | .binary _ lhs rhs => lhs.strays r inLoop ++ rhs.strays r inLoop
  | .unary _ operand => operand.strays r inLoop
  | .call callee args => callee.strays r inLoop ++ straysAll r inLoop args
  | .perform _ args _ => straysAll r inLoop args
  | .block stmts tail =>
    straysStmts r inLoop stmts ++ (match tail with | some e => e.strays r inLoop | none => [])
  | .assign _ value => value.strays r inLoop
  | .branch cond onTrue onFalse =>
    cond.strays r inLoop ++ onTrue.strays r inLoop
      ++ (match onFalse with | some e => e.strays r inLoop | none => [])
  | .select scrutinee arms => scrutinee.strays r inLoop ++ straysArms r inLoop arms
  | .loop body => body.strays r true
  | .whileLoop cond body => cond.strays r true ++ body.strays r true
  | .ret value => match value with | some e => e.strays r inLoop | none => []
  | .handle body clauses finalizer =>
    body.strays r inLoop ++ straysClauses r inLoop clauses
      ++ (match finalizer with | some e => e.strays r inLoop | none => [])
  | .tuple items => straysAll r inLoop items
  | .field base _ => base.strays r inLoop

def straysAll (r : RegionRules) (inLoop : Bool) : List Expr → List (Span × String)
  | [] => []
  | e :: es => e.strays r inLoop ++ straysAll r inLoop es

def straysStmts (r : RegionRules) (inLoop : Bool) : List Stmt → List (Span × String)
  | [] => []
  | .bind _ (some e) :: ss => e.strays r inLoop ++ straysStmts r inLoop ss
  | .bind _ none :: ss => straysStmts r inLoop ss
  | .expr e :: ss => e.strays r inLoop ++ straysStmts r inLoop ss

def straysArms (r : RegionRules) (inLoop : Bool) : List Arm → List (Span × String)
  | [] => []
  | .mk _ body :: as => body.strays r inLoop ++ straysArms r inLoop as

def straysClauses (r : RegionRules) (inLoop : Bool) : List Clause → List (Span × String)
  | [] => []
  | .mk _ body :: cs => body.strays r inLoop ++ straysClauses r inLoop cs

end

def regionProblems (f : FnDecl) (r : RegionRules) (region : Expr) : List Diagnostic :=
  (region.strays r false).map fun (span, what) => ⟨.confinedRegion what f.name, span⟩

/-! ### Units of handlers -/

/-- What is numbered: handlers within a function and units within the program. -/
structure LiftState where
  nextHandle : Nat
  nextUnit : Nat

abbrev LiftM := StateM LiftState

namespace LiftM

def takeHandle : LiftM Nat := modifyGet fun s => (s.nextHandle, { s with nextHandle := s.nextHandle + 1 })

def takeUnit : LiftM Nat := modifyGet fun s => (s.nextUnit, { s with nextUnit := s.nextUnit + 1 })

end LiftM

/-- What is found in one part and then in another. -/
def LiftedProgram.append (p q : LiftedProgram) : LiftedProgram where
  units := p.units ++ q.units
  lifted := p.lifted ++ q.lifted
  diagnostics := p.diagnostics ++ q.diagnostics

instance : Append LiftedProgram := ⟨LiftedProgram.append⟩

def bodyUnit (f : FnDecl) (a : EffectAnalysis) (n : Nat) (handle : ExprId) (ty : Ty) (body : Expr) : LoweringUnit where
  name := f.name ++ s!"$body{n}"
  kind := .body handle
  owner := f.id
  params := body.freeLocals
  body := body.cut a
  result := ty
  effectful := true

/-- A handler with nothing to guard. -/
def emptyHandle (handle : ExprId) (ty : Ty) (span : Span) (clauses : List Clause) : Expr :=
  .node handle (.handle (.unitAt handle span) clauses none) ty span

def driveUnit (f : FnDecl) (a : EffectAnalysis) (n : Nat) (handle : ExprId) (ty : Ty) (span : Span)
    (clauses : List Clause) : LoweringUnit where
  name := f.name ++ s!"$drive{n}"
  kind := .drive handle
  owner := f.id
  params := (emptyHandle handle ty span clauses).freeLocals
  body := emptyHandle handle ty span (cutClauses a clauses)
  result := ty
  effectful := true

mutual

def Expr.lift (f : FnDecl) (a : EffectAnalysis) : Expr → LiftM LiftedProgram
  | .node id form ty span => form.lift f a id ty span

def Form.lift (f : FnDecl) (a : EffectAnalysis) (id : ExprId) (ty : Ty) (span : Span) : Form → LiftM LiftedProgram
  | .literal _ | .var _ | .fn _ | .op _ _ | .breakLoop | .continueLoop | .intrinsic _ => return {}
  | .binary _ lhs rhs => do return (← lhs.lift f a) ++ (← rhs.lift f a)
  | .unary _ operand => operand.lift f a
  | .call callee args => do return (← callee.lift f a) ++ (← liftAll f a args)
  | .perform _ args _ => liftAll f a args
  | .block stmts tail => do
    let before ← liftStmts f a stmts
    match tail with
    | some e => return before ++ (← e.lift f a)
    | none => return before
  | .assign _ value => value.lift f a
  | .branch cond onTrue onFalse => do
    let before := (← cond.lift f a) ++ (← onTrue.lift f a)
    match onFalse with
    | some e => return before ++ (← e.lift f a)
    | none => return before
  | .select scrutinee arms => do return (← scrutinee.lift f a) ++ (← liftArms f a arms)
  | .loop body => body.lift f a
  | .whileLoop cond body => do return (← cond.lift f a) ++ (← body.lift f a)
  | .ret value =>
    match value with
    | some e => e.lift f a
    | none => return {}
  | .handle body clauses finalizer => do
    if a.isLifted id then
      let n ← LiftM.takeHandle
      let bodyAt ← LiftM.takeUnit
      let inBody ← body.lift f a
      let driveAt ← LiftM.takeUnit
      let inClauses ← liftClauses f a clauses
      let bodyUnit := bodyUnit f a n id ty body
      let driveUnit := driveUnit f a n id ty span clauses
      let clauseProblems := (cutClauses a clauses).flatMap fun c =>
        regionProblems f ⟨driveUnit.params, true⟩ c.body
      return {
        units := bodyUnit :: inBody.units ++ driveUnit :: inClauses.units
        lifted := inBody.lifted ++ inClauses.lifted ++
          [(id, ⟨bodyAt, driveAt, bodyUnit.params, driveUnit.params⟩)]
        diagnostics := inBody.diagnostics ++ regionProblems f ⟨bodyUnit.params, false⟩ bodyUnit.body
          ++ inClauses.diagnostics ++ clauseProblems }
    else
      let before := (← body.lift f a) ++ (← liftClauses f a clauses)
      match finalizer with
      | some e => return before ++ (← e.lift f a)
      | none => return before
  | .closure _ body => body.lift f a
  | .tuple items => liftAll f a items
  | .field base _ => base.lift f a

def liftAll (f : FnDecl) (a : EffectAnalysis) : List Expr → LiftM LiftedProgram
  | [] => return {}
  | e :: es => do return (← e.lift f a) ++ (← liftAll f a es)

def liftStmts (f : FnDecl) (a : EffectAnalysis) : List Stmt → LiftM LiftedProgram
  | [] => return {}
  | .bind _ (some e) :: ss => do return (← e.lift f a) ++ (← liftStmts f a ss)
  | .bind _ none :: ss => liftStmts f a ss
  | .expr e :: ss => do return (← e.lift f a) ++ (← liftStmts f a ss)

def liftArms (f : FnDecl) (a : EffectAnalysis) : List Arm → LiftM LiftedProgram
  | [] => return {}
  | .mk _ body :: as => do return (← body.lift f a) ++ (← liftArms f a as)

def liftClauses (f : FnDecl) (a : EffectAnalysis) : List Clause → LiftM LiftedProgram
  | [] => return {}
  | .mk _ body :: cs => do return (← body.lift f a) ++ (← liftClauses f a cs)

end

def functionUnit (f : FnDecl) (a : EffectAnalysis) : LoweringUnit where
  name := f.name
  kind := .function
  owner := f.id
  params := f.params
  body := f.body.cut a
  result := f.ret
  effectful := a.isEffectful f.id

/-- The units of a function, the first of which gets the given position. -/
def FnDecl.lift (f : FnDecl) (a : EffectAnalysis) (position : Nat) : LiftedProgram :=
  let found := ((f.body.lift f a).run ⟨0, position + 1⟩).1
  { found with units := functionUnit f a :: found.units }

/-- All units of functions, the first of which gets the given position. -/
def liftFns (a : EffectAnalysis) : (position : Nat) → List FnDecl → LiftedProgram
  | _, [] => {}
  | position, f :: fs =>
    let found := f.lift a position
    found ++ liftFns a (position + found.units.length) fs

/-- Cuts a program in normal form into units; of several handlers with one id the last one counts. -/
def Program.lift (p : Program) (a : EffectAnalysis) : LiftedProgram :=
  let found := liftFns a 0 p.functions
  { found with lifted := found.lifted.foldl (fun m (id, h) => Assoc.set m id h) [] }

end Effectful
