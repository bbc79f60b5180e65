import Effectful.Assoc
import Effectful.Analysis.Handler
/-!
# Which effects a function has

Inference gives every function a row and every handler a plan.

* Performing an operation adds it to the row of its arguments.
* Calling a function by name adds the row of that function.
* A handler has the row that its plan says.
* Any other construct, a closure included, has the row of its parts.

Functions may call each other, so the rows are found in rounds: a round works out every function once,
in program order, from the rows known so far.  The rounds stop when one of them changes nothing, at
the latest after four rounds a function and eight more.  Diagnostics come from one more pass over the
final rows.
-/

namespace Effectful

structure Inference where
  row : Row := .pure
  handlers : List HandlerPlan := []
  diagnostics : List Diagnostic := []
deriving Inhabited

def Inference.compose (parts : List Inference) : Inference where
  row := .compose (parts.map (·.row))
  handlers := parts.flatMap (·.handlers)
  diagnostics := parts.flatMap (·.diagnostics)

/-- What inference knows before it looks at an expression. -/
structure InferenceContext where
  program : Program
  exhaustive : Bool
  rows : List (DefId × Row)

namespace InferenceContext

/-- The row of a function that is called by name. -/
def calleeRow (c : InferenceContext) (callee : Form) : List Inference :=
  match callee with
  | .fn d => [{ row := (Assoc.get? c.rows d).getD .pure }]
  | _ => []

/-- The operation that is performed, or the complaint that there is none. -/
def performed (c : InferenceContext) (op : OpRef) (span : Span) : Inference :=
  match c.program.op? op with
  | some decl => { row := .single ⟨c.program.opLabel op, op.effect, decl.kind⟩ }
  | none => { diagnostics := [⟨.undeclaredPerform op, span⟩] }

/-- What a handler adds to its parts. -/
def handled (c : InferenceContext) (id : ExprId) (ty : Ty) (span : Span) (body : Expr)
    (clauses : List Clause) (bodyFound : Inference) (clausesFound : List Inference)
    (finalizerFound : Option Inference) : Inference :=
  let parts := Inference.compose (bodyFound :: (clausesFound ++ finalizerFound.toList))
  let (plan, diagnostics) := HandlerPlan.make c.program c.exhaustive id ty span body clauses bodyFound.row
    (clausesFound.map (·.row)) (finalizerFound.map (·.row))
  { row := plan.resultRow
    handlers := parts.handlers ++ [plan]
    diagnostics := parts.diagnostics ++ diagnostics }

end InferenceContext

mutual

def Expr.infer (c : InferenceContext) : Expr → Inference
  | .node id form ty span => form.infer c id ty span

/-- What a construct performs, as the form of a node with the given id, type and span. -/
def Form.infer (c : InferenceContext) (id : ExprId) (ty : Ty) (span : Span) : Form → Inference
  | .literal _ | .var _ | .fn _ | .op _ _ | .breakLoop | .continueLoop | .intrinsic _ => {}
  | .binary _ lhs rhs => .compose [lhs.infer c, rhs.infer c]
  | .unary _ operand => operand.infer c
  | .call callee args => .compose (callee.infer c :: (inferAll c args ++ c.calleeRow callee.form))
  | .perform op args _ => .compose (inferAll c args ++ [c.performed op span])
  | .block stmts tail =>
    .compose (inferStmts c stmts ++ (match tail with | some e => [e.infer c] | none => []))
  | .assign _ value => value.infer c
  | .branch cond onTrue onFalse =>
    .compose (cond.infer c :: onTrue.infer c :: (match onFalse with | some e => [e.infer c] | none => []))
  | .select scrutinee arms => .compose (scrutinee.infer c :: inferArms c arms)
  | .loop body => body.infer c
  | .whileLoop cond body => .compose [cond.infer c, body.infer c]
  | .ret value =>
    match value with
    | some e => e.infer c
    | none => {}
  | .handle body clauses finalizer =>
    c.handled id ty span body clauses (body.infer c) (inferClauses c clauses)
      (match finalizer with | some e => some (e.infer c) | none => none)
  | .closure _ body => body.infer c
  | .tuple items => .compose (inferAll c items)
  | .field base _ => base.infer c

def inferAll (c : InferenceContext) : List Expr → List Inference
  | [] => []
  | e :: es => e.infer c :: inferAll c es

def inferStmts (c : InferenceContext) : List Stmt → List Inference
  | [] => []
  | .bind _ (some e) :: ss => e.infer c :: inferStmts c ss
  | .bind _ none :: ss => inferStmts c ss
  | .expr e :: ss => e.infer c :: inferStmts c ss

def inferArms (c : InferenceContext) : List Arm → List Inference
  | [] => []
  | .mk _ body :: as => body.infer c :: inferArms c as

def inferClauses (c : InferenceContext) : List Clause → List Inference
  | [] => []
  | .mk _ body :: cs => body.infer c :: inferClauses c cs

end

/-- What is known about the effects of a program. -/
structure EffectAnalysis where
  rows : List (DefId × Row) := []
  handlers : List (ExprId × HandlerPlan) := []
  diagnostics : List Diagnostic := []
deriving Inhabited

namespace EffectAnalysis

/-- The row of a function, pure if it is not known. -/
def functionRow (a : EffectAnalysis) (d : DefId) : Row := (Assoc.get? a.rows d).getD .pure

/-- Whether a call of the function may perform an operation. -/
def isEffectful (a : EffectAnalysis) (d : DefId) : Bool := !(a.functionRow d).isEmpty

def handler? (a : EffectAnalysis) (handle : ExprId) : Option HandlerPlan := Assoc.get? a.handlers handle

def hasErrors (a : EffectAnalysis) : Bool := !a.diagnostics.isEmpty

end EffectAnalysis

namespace Program

/-- The functions with an open declared row and the row variables that they are given. -/
def rowVars (p : Program) : List (DefId × RowVar) :=
  let isOpen (f : FnDecl) : Bool := (f.effects.map (·.isOpen)).getD false
  (p.functions.filter isOpen).zipIdx.foldl (fun vars (f, i) => Assoc.set vars f.id ⟨i⟩) []

def inferFunction (p : Program) (exhaustive : Bool) (rows : List (DefId × Row)) (f : FnDecl) : Inference :=
  let found := f.body.infer ⟨p, exhaustive, rows⟩
  match Assoc.get? p.rowVars f.id with
  | some v => { found with row := .compose [found.row, .ofVar v] }
  | none => found

def inferRound (p : Program) (exhaustive : Bool) (rows : List (DefId × Row)) : List (DefId × Row) :=
  p.functions.foldl (fun rows f => Assoc.set rows f.id (p.inferFunction exhaustive rows f).row) rows

/-- Rounds until one of them changes nothing, at most the given number. -/
def inferRounds (p : Program) (exhaustive : Bool) : Nat → List (DefId × Row) → List (DefId × Row)
  | 0, rows => rows
  | n + 1, rows =>
    let next := p.inferRound exhaustive rows
    if next = rows then rows else inferRounds p exhaustive n next

/-- The bound on the number of rounds. -/
def roundLimit (p : Program) : Nat := 4 * p.functions.length + 8

/-- The complaint about a function that performs more than its closed declared row allows. -/
def undeclared (f : FnDecl) (row : Row) : List Diagnostic :=
  match f.effects with
  | some declared =>
    let missing := row.labels.filter (!declared.labels.contains ·)
    if declared.isOpen || missing.isEmpty then [] else [⟨.undeclaredEffects f.name missing, f.span⟩]
  | none => []

/-- Infers the row of every function and the plan of every handler. -/
def analyze (p : Program) (exhaustive : Bool) : EffectAnalysis :=
  let rows := p.inferRounds exhaustive p.roundLimit []
  let found := p.functions.map fun f => (f, p.inferFunction exhaustive rows f)
  { rows
    handlers := (found.flatMap (·.2.handlers)).foldl (fun hs h => Assoc.set hs h.handle h) []
    diagnostics := found.flatMap fun (f, i) => i.diagnostics ++ undeclared f i.row }

end Program

end Effectful
