import Effectful.Program.Id
import Effectful.Program.Ty
import Effectful.Source.Span
/-!
# Expressions

The body of a function is a tree of typed expressions.  Each node has an id of its own, a form, a
type and a span.  The forms are the constructs of the language: data, calls, control flow, and the
two that this project is about, `Form.perform` for an operation of an effect and `Form.handle` for
the clauses that answer operations of a guarded body.
-/

namespace Effectful

/-- A literal.  The width of an integer or a float is the type of its node. -/
inductive Literal where
  | unit
  | bool (b : Bool)
  | int (n : Int64)
  | float (x : Binary64)
deriving DecidableEq, Inhabited

/-- Binary operators; `and` and `or` evaluate both operands. -/
inductive BinOp where
  | add
  | sub
  | mul
  | div
  | rem
  | and
  | or
  | eq
  | ne
  | lt
  | le
  | gt
  | ge
deriving DecidableEq, Repr, Inhabited

/-- The name of an operator in data and in messages. -/
def BinOp.caseName : BinOp → String
  | .add => "Add"
  | .sub => "Sub"
  | .mul => "Mul"
  | .div => "Div"
  | .rem => "Rem"
  | .and => "And"
  | .or => "Or"
  | .eq => "Eq"
  | .ne => "Ne"
  | .lt => "Lt"
  | .le => "Le"
  | .gt => "Gt"
  | .ge => "Ge"

/-- Whether the operator gives a boolean whatever its operands are. -/
def BinOp.isComparison : BinOp → Bool
  | .eq | .ne | .lt | .le | .gt | .ge => true
  | _ => false

inductive UnaryOp where
  | neg
  | not
deriving DecidableEq, Repr, Inhabited

def UnaryOp.caseName : UnaryOp → String
  | .neg => "Neg"
  | .not => "Not"

/-- Functions that are built in. -/
inductive Intrinsic where
  | abs
  | min
  | max
deriving DecidableEq, Repr, Inhabited

def Intrinsic.caseName : Intrinsic → String
  | .abs => "Abs"
  | .min => "Min"
  | .max => "Max"

/-- What a match arm accepts. -/
inductive Pattern where
  | wildcard
  | binding (target : LocalId)
  | literal (value : Literal)
deriving DecidableEq, Inhabited

/-- Whether the pattern accepts every value. -/
def Pattern.isIrrefutable : Pattern → Bool
  | .literal _ => false
  | _ => true

/-- What a handler clause says before its body. -/
structure ClauseHead where
  effect : DefId
  /-- The name of the operation; overloads share it. -/
  op : String
  /-- The parameter types, where the clause spells them out to choose an overload. -/
  annotations : Option (List Ty)
  params : List LocalId
  /-- The local that holds the captured continuation. -/
  continuation : LocalId
  span : Span
deriving DecidableEq, Inhabited

mutual

inductive Expr where
  | node (id : ExprId) (form : Form) (ty : Ty) (span : Span)

/-- The construct of an expression. -/
inductive Form where
  | literal (value : Literal)
  | var (source : LocalId)
  /-- A function as a value. -/
  | fn (target : DefId)
  | binary (op : BinOp) (lhs rhs : Expr)
  | unary (op : UnaryOp) (operand : Expr)
  | call (callee : Expr) (args : List Expr)
  /-- Performs an operation; the type arguments instantiate a generic one. -/
  | perform (op : OpRef) (args : List Expr) (typeArgs : List Ty)
  /-- An operation as a value. -/
  | op (op : OpRef) (typeArgs : List Ty)
  | block (stmts : List Stmt) (tail : Option Expr)
  | assign (target : LocalId) (value : Expr)
  | branch (cond onTrue : Expr) (onFalse : Option Expr)
  /-- Tries the arms in order. -/
  | select (scrutinee : Expr) (arms : List Arm)
  | loop (body : Expr)
  | whileLoop (cond body : Expr)
  | breakLoop
  | continueLoop
  | ret (value : Option Expr)
  /-- Answers operations of `body` by clauses; `finalizer` runs after the handled value. -/
  | handle (body : Expr) (clauses : List Clause) (finalizer : Option Expr)
  | closure (params : List LocalId) (body : Expr)
  | tuple (items : List Expr)
  | field (base : Expr) (index : Nat)
  | intrinsic (which : Intrinsic)

/-- A statement of a block. -/
inductive Stmt where
  | bind (target : LocalId) (init : Option Expr)
  | expr (e : Expr)

inductive Arm where
  | mk (pattern : Pattern) (body : Expr)

inductive Clause where
  | mk (head : ClauseHead) (body : Expr)

end

namespace Expr

def id : Expr → ExprId
  | .node id _ _ _ => id

def form : Expr → Form
  | .node _ form _ _ => form

def ty : Expr → Ty
  | .node _ _ ty _ => ty

def span : Expr → Span
  | .node _ _ _ span => span

def withTy (ty : Ty) : Expr → Expr
  | .node id form _ span => .node id form ty span

def withSpan (span : Span) : Expr → Expr
  | .node id form ty _ => .node id form ty span

def unitAt (id : ExprId) (span : Span) : Expr := .node id (.literal .unit) .unit span

instance : Inhabited Expr := ⟨unitAt ⟨0⟩ {}⟩

def isLiteral (e : Expr) : Bool :=
  match e.form with
  | .literal _ => true
  | _ => false

end Expr

namespace Arm

def pattern : Arm → Pattern
  | .mk pattern _ => pattern

def body : Arm → Expr
  | .mk _ body => body

end Arm

namespace Clause

def head : Clause → ClauseHead
  | .mk head _ => head

def body : Clause → Expr
  | .mk _ body => body

instance : Inhabited Clause := ⟨.mk default default⟩

end Clause

instance : Inhabited Stmt := ⟨.expr default⟩

instance : Inhabited Arm := ⟨.mk default default⟩

def Stmt.expr? : Stmt → Option Expr
  | .bind _ init => init
  | .expr e => some e

/-! ### Walks -/

/-- The direct parts of a construct in evaluation order; a handler's clauses follow its body. -/
def Form.children : Form → List Expr
  | .literal _ | .var _ | .fn _ | .op _ _ | .breakLoop | .continueLoop | .intrinsic _ => []
  | .binary _ lhs rhs => [lhs, rhs]
  | .unary _ operand => [operand]
  | .call callee args => callee :: args
  | .perform _ args _ => args
  | .block stmts tail => stmts.filterMap Stmt.expr? ++ tail.toList
  | .assign _ value => [value]
  | .branch cond onTrue onFalse => cond :: onTrue :: onFalse.toList
  | .select scrutinee arms => scrutinee :: arms.map Arm.body
  | .loop body => [body]
  | .whileLoop cond body => [cond, body]
  | .ret value => value.toList
  | .handle body clauses finalizer => body :: (clauses.map Clause.body ++ finalizer.toList)
  | .closure _ body => [body]
  | .tuple items => items
  | .field base _ => [base]

mutual

/-- The node and all below it, a node before its parts, in front of the rest. -/
def Expr.walkOnto (rest : List Expr) : Expr → List Expr
  | .node id form ty span => .node id form ty span :: form.walkPartsOnto rest
termination_by structural part => part

def Form.walkPartsOnto (rest : List Expr) : Form → List Expr
  | .literal _ | .var _ | .fn _ | .op _ _ | .breakLoop | .continueLoop | .intrinsic _ => rest
  | .binary _ lhs rhs => lhs.walkOnto (rhs.walkOnto rest)
  | .unary _ operand => operand.walkOnto rest
  | .call callee args => callee.walkOnto (walkAllOnto rest args)
  | .perform _ args _ => walkAllOnto rest args
  | .block stmts tail => walkStmtsOnto (match tail with | some e => e.walkOnto rest | none => rest) stmts
  | .assign _ value => value.walkOnto rest
  | .branch cond onTrue onFalse =>
    cond.walkOnto (onTrue.walkOnto (match onFalse with | some e => e.walkOnto rest | none => rest))
  | .select scrutinee arms => scrutinee.walkOnto (walkArmsOnto rest arms)
  | .loop body => body.walkOnto rest
  | .whileLoop cond body => cond.walkOnto (body.walkOnto rest)
  | .ret value => match value with | some e => e.walkOnto rest | none => rest
  | .handle body clauses finalizer =>
    body.walkOnto (walkClausesOnto (match finalizer with | some e => e.walkOnto rest | none => rest) clauses)
  | .closure _ body => body.walkOnto rest
  | .tuple items => walkAllOnto rest items
  | .field base _ => base.walkOnto rest
termination_by structural part => part

def walkAllOnto (rest : List Expr) : List Expr → List Expr
  | [] => rest
  | e :: es => e.walkOnto (walkAllOnto rest es)
termination_by structural part => part

def walkStmtsOnto (rest : List Expr) : List Stmt → List Expr
  | [] => rest
  | .bind _ (some e) :: ss => e.walkOnto (walkStmtsOnto rest ss)
  | .bind _ none :: ss => walkStmtsOnto rest ss
  | .expr e :: ss => e.walkOnto (walkStmtsOnto rest ss)
termination_by structural part => part

def walkArmsOnto (rest : List Expr) : List Arm → List Expr
  | [] => rest
  | .mk _ body :: as => body.walkOnto (walkArmsOnto rest as)
termination_by structural part => part

def walkClausesOnto (rest : List Expr) : List Clause → List Expr
  | [] => rest
  | .mk _ body :: cs => body.walkOnto (walkClausesOnto rest cs)
termination_by structural part => part

end

/-- The node and all below it, a node before its parts. -/
def Expr.walk (e : Expr) : List Expr := e.walkOnto []

mutual

/-- The node and all below it, a node after its parts, in front of the rest. -/
def Expr.walkPostOnto (rest : List Expr) : Expr → List Expr
  | .node id form ty span => form.walkPostPartsOnto (.node id form ty span :: rest)
termination_by structural part => part

def Form.walkPostPartsOnto (rest : List Expr) : Form → List Expr
  | .literal _ | .var _ | .fn _ | .op _ _ | .breakLoop | .continueLoop | .intrinsic _ => rest
  | .binary _ lhs rhs => lhs.walkPostOnto (rhs.walkPostOnto rest)
  | .unary _ operand => operand.walkPostOnto rest
  | .call callee args => callee.walkPostOnto (walkPostAllOnto rest args)
  | .perform _ args _ => walkPostAllOnto rest args
  | .block stmts tail => walkPostStmtsOnto (match tail with | some e => e.walkPostOnto rest | none => rest) stmts
  | .assign _ value => value.walkPostOnto rest
  | .branch cond onTrue onFalse =>
    cond.walkPostOnto (onTrue.walkPostOnto (match onFalse with | some e => e.walkPostOnto rest | none => rest))
  | .select scrutinee arms => scrutinee.walkPostOnto (walkPostArmsOnto rest arms)
  | .loop body => body.walkPostOnto rest
  | .whileLoop cond body => cond.walkPostOnto (body.walkPostOnto rest)
  | .ret value => match value with | some e => e.walkPostOnto rest | none => rest
  | .handle body clauses finalizer =>
    body.walkPostOnto (walkPostClausesOnto (match finalizer with | some e => e.walkPostOnto rest | none => rest) clauses)
  | .closure _ body => body.walkPostOnto rest
  | .tuple items => walkPostAllOnto rest items
  | .field base _ => base.walkPostOnto rest
termination_by structural part => part

def walkPostAllOnto (rest : List Expr) : List Expr → List Expr
  | [] => rest
  | e :: es => e.walkPostOnto (walkPostAllOnto rest es)
termination_by structural part => part

def walkPostStmtsOnto (rest : List Expr) : List Stmt → List Expr
  | [] => rest
  | .bind _ (some e) :: ss => e.walkPostOnto (walkPostStmtsOnto rest ss)
  | .bind _ none :: ss => walkPostStmtsOnto rest ss
  | .expr e :: ss => e.walkPostOnto (walkPostStmtsOnto rest ss)
termination_by structural part => part

def walkPostArmsOnto (rest : List Expr) : List Arm → List Expr
  | [] => rest
  | .mk _ body :: as => body.walkPostOnto (walkPostArmsOnto rest as)
termination_by structural part => part

def walkPostClausesOnto (rest : List Expr) : List Clause → List Expr
  | [] => rest
  | .mk _ body :: cs => body.walkPostOnto (walkPostClausesOnto rest cs)
termination_by structural part => part

end

/-- The node and all below it, a node after its parts. -/
def Expr.walkPost (e : Expr) : List Expr := e.walkPostOnto []

/-- Whether an operation is performed anywhere in the expression, nested handlers and closures
included. -/
def Expr.containsPerform (e : Expr) : Bool :=
  e.walk.any fun e => match e.form with | .perform _ _ _ => true | _ => false

end Effectful
