import Effectful.Row.Basic
import Effectful.Diagnostic
/-!
# Handlers and their clauses

Each clause of a handler answers one operation.  A clause names an effect and an operation; where
the effect overloads the name, the annotated parameter types choose one.  The operation fixes the
types of the clause's parameters and of its continuation.

The row of a handler is

`(row of the body - handled labels) ∪ rows of the clauses ∪ row of the finalizer`.

Handling works by label, so a clause for one overload takes the label of all of them out of the row.
-/

namespace Effectful

structure ContinuationTy where
  /-- What it is resumed with: the result of the operation. -/
  param : Ty
  /-- What resuming gives: the value of the handler. -/
  ret : Ty
  /-- What the resumed computation may still perform. -/
  row : Row
deriving DecidableEq, Inhabited

/-- A clause that answers a known operation. -/
structure ClausePlan where
  op : OpRef
  label : String
  kind : ResumeKind
  /-- The parameter types at the instance that the body performs. -/
  params : List Ty
  /-- The type arguments of that instance. -/
  typeArgs : List Ty
  continuation : ContinuationTy
  /-- How the body uses its continuation; only for tail operations. -/
  usage : Option Usage
  /-- Who counts the resumptions; only for tail operations. -/
  enforcement : Option Enforcement
deriving DecidableEq, Inhabited

/-- Whether resumptions have to be counted while the program runs. -/
def ClausePlan.needsGuard (c : ClausePlan) : Bool := c.enforcement == some .runtime

structure HandlerPlan where
  handle : ExprId
  bodyRow : Row
  /-- The row of the body without the handled labels. -/
  continuationRow : Row
  resultRow : Row
  /-- One entry a clause; `none` for a clause that fits no operation. -/
  clauses : List (Option ClausePlan)
deriving DecidableEq, Inhabited

def HandlerPlan.clause? (h : HandlerPlan) (index : Nat) : Option ClausePlan := (h.clauses[index]?).join

namespace ClauseHead

/-- The label that the clause handles, if its effect is declared. -/
def label? (c : ClauseHead) (p : Program) : Option String :=
  (p.effect? c.effect).map fun e => e.name ++ "." ++ c.op

/-- The operation of an effect that the name and the annotations choose. -/
def chooseOverload (c : ClauseHead) (effect : EffectDecl) (label : String) : Except Problem (Nat × OpDecl) :=
  match effect.opsNamed c.op, c.annotations with
  | [], _ => .error (.unknownOperation effect.name c.op)
  | [single], none => .ok single
  | [single], some types =>
    if Ty.agreesAll single.2.params types then .ok single else .error (.annotationMismatch label types)
  | many, none => .error (.annotationMissing label many.length)
  | many, some types =>
    match many.filter fun candidate => Ty.agreesAll candidate.2.params types with
    | [one] => .ok one
    | fitting => .error (.ambiguousOverload fitting.length label types)

/-- The operation that the clause answers. -/
def resolve (c : ClauseHead) (p : Program) : Except Problem (OpRef × OpDecl) :=
  match p.effect? c.effect with
  | none => .error (.unknownEffect c.effect)
  | some effect => do
    let label := effect.name ++ "." ++ c.op
    let (index, decl) ← c.chooseOverload effect label
    if c.params.length = decl.params.length then .ok (⟨c.effect, index⟩, decl)
    else .error (.clauseArity label c.params.length decl.params.length)

end ClauseHead

/-- The distinct type arguments with which an expression performs an operation, in the order in which
they are met. -/
def Expr.instancesOf (body : Expr) (op : OpRef) : List (List Ty) :=
  body.walk.foldl (fun found e =>
    match e.form with
    | .perform o _ typeArgs =>
      if o == op && !typeArgs.isEmpty && !found.contains typeArgs then found ++ [typeArgs] else found
    | _ => found) []

/-- What is wrong with the use of a tail operation's continuation.  A call inside a closure may or
may not happen, so it is left to the counter. -/
def Usage.problem? (u : Usage) (label : String) : Option Problem :=
  match u.escape with
  | .leaked => some (.tailResumeEscape label)
  | .captured => none
  | .none => if u.isWrongForTail then some (.tailResumeCount label u.count) else none

namespace Clause

/-- The use of the continuation and what is wrong with it, for a clause of a tail operation. -/
def checkUsage (c : Clause) (label : String) : Usage × List Diagnostic :=
  let usage := c.body.usage c.head.continuation
  (usage, (usage.problem? label).toList.map fun p => ⟨p, c.head.span⟩)

def plan (c : Clause) (p : Program) (guarded : Expr) (handlerTy : Ty) (continuationRow : Row) :
    Option ClausePlan × List Diagnostic :=
  match c.head.resolve p with
  | .error problem => (none, [⟨problem, c.head.span⟩])
  | .ok (op, decl) =>
    let label := p.opLabel op
    match if decl.generics = 0 then [] else guarded.instancesOf op with
    | first :: second :: more => (none, [⟨.genericMismatch label (first :: second :: more), c.head.span⟩])
    | instances =>
      let typeArgs := instances.headD []
      let checked := if decl.kind = .tail then some (c.checkUsage label) else none
      let plan := {
        op, label, typeArgs
        kind := decl.kind
        params := decl.params.map (Ty.substitute typeArgs)
        continuation := ⟨decl.ret.substitute typeArgs, handlerTy, continuationRow⟩
        usage := checked.map (·.1)
        enforcement := checked.map (·.1.enforcement) }
      (some plan, (checked.map (·.2)).getD [])

end Clause

/-- The plan of the handler `handle`, given the rows of its parts.  A handler that must be exhaustive
and is not open may only let those operations through that a clause performs again. -/
def HandlerPlan.make (p : Program) (exhaustive : Bool) (handle : ExprId) (ty : Ty) (span : Span)
    (body : Expr) (clauses : List Clause) (bodyRow : Row) (clauseRows : List Row)
    (finalizerRow : Option Row) : HandlerPlan × List Diagnostic :=
  let continuationRow := bodyRow.drop (clauses.filterMap (·.head.label? p))
  let plans := clauses.map (·.plan p body ty continuationRow)
  let resultRow := Row.compose (continuationRow :: (clauseRows ++ finalizerRow.toList))
  let leftovers :=
    if exhaustive && !resultRow.isOpen then
      continuationRow.labels.filter fun label => !clauseRows.any (·.contains label)
    else []
  let unhandled := if leftovers.isEmpty then [] else [⟨.unhandledEffects leftovers, span⟩]
  ({ handle, bodyRow, continuationRow, resultRow, clauses := plans.map (·.1) },
    plans.flatMap (·.2) ++ unhandled)

end Effectful
