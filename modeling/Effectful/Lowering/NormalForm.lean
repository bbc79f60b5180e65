import Effectful.Analysis.Inference
/-!
# Normal form

A unit of compiled code is left when it suspends and entered again when it is resumed; what was
evaluated before the suspension must not be evaluated once more.  Normalization makes that possible.

* A finalizer becomes code behind its handler: `handle .. finally f` becomes
  `{ let t = handle ..; f; t }`.
* Operands in front of one that may suspend are spilled: they are bound to new locals by statements
  in front of the expression.  If the expression itself suspends, all its operands are spilled.

In normal form an operand list has at most one operand that may suspend, and in front of it there are
only literals, names and locals.  The order of evaluation stays.
-/

namespace Effectful

/-! ### Suspension -/

/-- Whether a construct itself may suspend, its parts apart. -/
def Form.suspends (a : EffectAnalysis) : Form → Bool
  | .perform _ _ _ | .handle _ _ _ => true
  | .call callee _ =>
    match callee.form with
    | .fn target => a.isEffectful target
    | .intrinsic _ => false
    | _ => true
  | _ => false

/-- Whether an expression or something inside it may suspend. -/
def Expr.maySuspend (a : EffectAnalysis) (e : Expr) : Bool := e.walk.any (·.form.suspends a)

/-- Whether the value of an operand cannot change before it is used.  Continuations are never
assigned. -/
def Expr.isStable (e : Expr) : Bool :=
  match e.form, e.ty with
  | .literal _, _ | .fn _, _ | .intrinsic _, _ | .op _ _, _ => true
  | .var _, .continuation _ _ => true
  | _, _ => false

/-! ### Operand lists -/

namespace Form

/-- The operands of a construct that evaluates them from left to right before anything else. -/
def operands : Form → List Expr
  | .binary _ lhs rhs => [lhs, rhs]
  | .call callee args => callee :: args
  | .perform _ args _ => args
  | .tuple items => items
  | _ => []

/-- The construct with other operands, one for each. -/
def withOperands : Form → List Expr → Form
  | .binary operator _ _, [lhs, rhs] => .binary operator lhs rhs
  | .call _ _, callee :: args => .call callee args
  | .perform operation _ typeArgs, args => .perform operation args typeArgs
  | .tuple _, items => .tuple items
  | form, _ => form

/-- How many operands have to be spilled: all if the construct suspends, else those in front of the
last one that may. -/
def spillCount (a : EffectAnalysis) (form : Form) : Nat :=
  if form.suspends a then form.operands.length
  else (form.operands.reverse.dropWhile (!·.maySuspend a)).length - 1

end Form

/-! ### Normalization -/

/-- What normalization hands out: locals of the function and expression ids of the program. -/
structure NormalState where
  locals : List LocalDecl
  nextExpr : Nat

abbrev NormalM := StateM NormalState

namespace NormalM

def freshLocal (ty : Ty) : NormalM LocalId :=
  modifyGet fun s =>
    let n := s.locals.length
    (⟨n⟩, { s with locals := s.locals ++ [⟨s!"$t{n}", ty⟩] })

def freshId : NormalM ExprId := modifyGet fun s => (⟨s.nextExpr⟩, { s with nextExpr := s.nextExpr + 1 })

def node (form : Form) (ty : Ty) (span : Span) : NormalM Expr := do
  return .node (← freshId) form ty span

/-- Spills the first `count` operands, except stable ones: the statements and the operands to use
instead. -/
def spill : (count : Nat) → List Expr → NormalM (List Stmt × List Expr)
  | 0, es => return ([], es)
  | _, [] => return ([], [])
  | count + 1, e :: es => do
    if e.isStable then
      let (stmts, rest) ← spill count es
      return (stmts, e :: rest)
    else
      let l ← freshLocal e.ty
      let read ← node (.var l) e.ty e.span
      let (stmts, rest) ← spill count es
      return (.bind l (some e) :: stmts, read :: rest)

/-- A block around a node that was built already; one id is set aside for it. -/
def wrap (stmts : List Stmt) (tail : Expr) : NormalM Expr := do
  let _ ← freshId
  node (.block stmts (some tail)) tail.ty tail.span

/-- A node whose parts are in normal form, with the operands spilled that need it. -/
def finish (a : EffectAnalysis) (id : ExprId) (ty : Ty) (span : Span) (form : Form) : NormalM Expr := do
  let (stmts, operands) ← spill (form.spillCount a) form.operands
  if stmts.isEmpty then return .node id form ty span
  else wrap stmts (.node id (form.withOperands operands) ty span)

def finalize (handle finalizer : Expr) : NormalM Expr := do
  let l ← freshLocal handle.ty
  let _ ← freshId
  let read ← node (.var l) handle.ty handle.span
  node (.block [.bind l (some handle), .expr finalizer] (some read)) handle.ty handle.span

end NormalM

open NormalM (finish finalize)

mutual

def Expr.normalize (a : EffectAnalysis) : Expr → NormalM Expr
  | .node id form ty span => form.normalize a id ty span

def Form.normalize (a : EffectAnalysis) (id : ExprId) (ty : Ty) (span : Span) : Form → NormalM Expr
  | .literal value => return .node id (.literal value) ty span
  | .var source => return .node id (.var source) ty span
  | .fn target => return .node id (.fn target) ty span
  | .op operation typeArgs => return .node id (.op operation typeArgs) ty span
  | .breakLoop => return .node id .breakLoop ty span
  | .continueLoop => return .node id .continueLoop ty span
  | .intrinsic which => return .node id (.intrinsic which) ty span
  | .binary operator lhs rhs => do
    let lhs ← lhs.normalize a
    let rhs ← rhs.normalize a
    finish a id ty span (.binary operator lhs rhs)
  | .unary operator operand => do return .node id (.unary operator (← operand.normalize a)) ty span
  | .call callee args => do
    let callee ← callee.normalize a
    let args ← normalizeAll a args
    finish a id ty span (.call callee args)
  | .perform operation args typeArgs => do
    let args ← normalizeAll a args
    finish a id ty span (.perform operation args typeArgs)
  | .block stmts tail => do
    let stmts ← normalizeStmts a stmts
    let tail ← match tail with
      | some e => some <$> e.normalize a
      | none => pure none
    return .node id (.block stmts tail) ty span
  | .assign target value => do return .node id (.assign target (← value.normalize a)) ty span
  | .branch cond onTrue onFalse => do
    let cond ← cond.normalize a
    let onTrue ← onTrue.normalize a
    let onFalse ← match onFalse with
      | some e => some <$> e.normalize a
      | none => pure none
    return .node id (.branch cond onTrue onFalse) ty span
  | .select scrutinee arms => do
    let scrutinee ← scrutinee.normalize a
    let arms ← normalizeArms a arms
    return .node id (.select scrutinee arms) ty span
  | .loop body => do return .node id (.loop (← body.normalize a)) ty span
  | .whileLoop cond body => do
    let cond ← cond.normalize a
    let body ← body.normalize a
    return .node id (.whileLoop cond body) ty span
  | .ret value => do
    let value ← match value with
      | some e => some <$> e.normalize a
      | none => pure none
    return .node id (.ret value) ty span
  | .handle body clauses finalizer => do
    let body ← body.normalize a
    let clauses ← normalizeClauses a clauses
    let handle : Expr := .node id (.handle body clauses none) ty span
    match finalizer with
    | some e => do finalize handle (← e.normalize a)
    | none => return handle
  | .closure params body => do return .node id (.closure params (← body.normalize a)) ty span
  | .tuple items => do
    let items ← normalizeAll a items
    finish a id ty span (.tuple items)
  | .field base index => do return .node id (.field (← base.normalize a) index) ty span

def normalizeAll (a : EffectAnalysis) : List Expr → NormalM (List Expr)
  | [] => return []
  | e :: es => do
    let e ← e.normalize a
    return e :: (← normalizeAll a es)

def normalizeStmts (a : EffectAnalysis) : List Stmt → NormalM (List Stmt)
  | [] => return []
  | .bind target (some e) :: ss => do
    let e ← e.normalize a
    return .bind target (some e) :: (← normalizeStmts a ss)
  | .bind target none :: ss => do return .bind target none :: (← normalizeStmts a ss)
  | .expr e :: ss => do
    let e ← e.normalize a
    return .expr e :: (← normalizeStmts a ss)

def normalizeArms (a : EffectAnalysis) : List Arm → NormalM (List Arm)
  | [] => return []
  | .mk pattern body :: as => do
    let body ← body.normalize a
    return .mk pattern body :: (← normalizeArms a as)

def normalizeClauses (a : EffectAnalysis) : List Clause → NormalM (List Clause)
  | [] => return []
  | .mk head body :: cs => do
    let body ← body.normalize a
    return .mk head body :: (← normalizeClauses a cs)

end

/-- Functions in normal form, and the next expression id. -/
def normalizeFns (a : EffectAnalysis) : (nextExpr : Nat) → List FnDecl → List FnDecl × Nat
  | nextExpr, [] => ([], nextExpr)
  | nextExpr, f :: fs =>
    let (body, s) := (f.body.normalize a).run ⟨f.locals, nextExpr⟩
    let (rest, nextExpr) := normalizeFns a s.nextExpr fs
    ({ f with body, locals := s.locals } :: rest, nextExpr)

/-- The program in normal form, unless expression ids run out. -/
def Program.normalize? (p : Program) (a : EffectAnalysis) : Option Program :=
  let (functions, nextExpr) := normalizeFns a (p.maxExprId + 1) p.functions
  if nextExpr ≤ exprIdLimit then some { p with functions } else none

end Effectful
