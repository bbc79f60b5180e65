import Effectful.Program.Expr
/-!
# How often a clause resumes

A clause of a handler holds the continuation of the operation that it answers.  `Expr.usage` bounds
how often the body of a clause calls it, and tells whether the continuation leaves direct call
position.  Only a tail operation needs this: its continuation must be called exactly once.

The bounds follow the structure of the body.

* Operands and statements add up.  Calling the continuation of a tail operation leaves the clause, so
  statements behind one that resumes on every path add nothing, except that they may let the
  continuation escape.
* Branches and match arms are joined; a missing alternative counts as no call.
* What may run repeatedly, a loop or the clause of an inner handler, has no upper bound once it
  resumes at all.
* `return` ends a path with the count so far.
-/

namespace Effectful

/-- Bounds on a number of calls; without `most` there is no upper bound. -/
structure CallCount where
  least : Nat
  most : Option Nat
deriving DecidableEq, Repr, Inhabited

namespace CallCount

def zero : CallCount := ⟨0, some 0⟩

def once : CallCount := ⟨1, some 1⟩

/-- Any number of calls. -/
def any : CallCount := ⟨0, none⟩

/-- One part after the other. -/
def add (a b : CallCount) : CallCount :=
  ⟨a.least + b.least, match a.most, b.most with
    | some m, some n => some (m + n)
    | _, _ => none⟩

/-- One part or the other. -/
def join (a b : CallCount) : CallCount :=
  ⟨min a.least b.least, match a.most, b.most with
    | some m, some n => some (max m n)
    | _, _ => none⟩

def join? : Option CallCount → Option CallCount → Option CallCount
  | some a, some b => some (a.join b)
  | a, none => a
  | none, b => b

def mostText (c : CallCount) : String :=
  match c.most with
  | some n => toString n
  | none => "∞"

/-- Whether the bounds leave one number. -/
def isExact (c : CallCount) : Bool := c.most == some c.least

def text (c : CallCount) : String :=
  if c.isExact then toString c.least else s!"{c.least}.." ++ c.mostText

end CallCount

/-- How a continuation leaves direct call position, the worse the later. -/
inductive Escape where
  | none
  /-- It is called inside a closure. -/
  | captured
  /-- It is used as a value. -/
  | leaked
deriving DecidableEq, Repr, Inhabited

namespace Escape

/-- The worse of two. -/
def max : Escape → Escape → Escape
  | .leaked, _ | _, .leaked => .leaked
  | .captured, _ | _, .captured => .captured
  | .none, .none => .none

end Escape

/-- Who sees to it that a tail clause resumes once. -/
inductive Enforcement where
  /-- The bounds prove it. -/
  | static
  /-- A counter traps on misuse. -/
  | runtime
deriving DecidableEq, Repr, Inhabited

/-- What a clause body does with its continuation. -/
structure Usage where
  count : CallCount
  escape : Escape
deriving DecidableEq, Repr, Inhabited

namespace Usage

def escapes (u : Usage) : Bool := u.escape != .none

/-- Whether every path calls the continuation once. -/
def isExactlyOnce (u : Usage) : Bool := u.count == .once

def enforcement (u : Usage) : Enforcement :=
  if !u.escapes && u.isExactlyOnce then .static else .runtime

/-- Whether the count is certainly wrong for a tail operation: no call at all, always more than one,
or a bounded range that is not one number. -/
def isWrongForTail (u : Usage) : Bool :=
  u.count.most == some 0 || decide (1 < u.count.least) || (u.count.most.isSome && !u.count.isExact)

end Usage

/-- Counts by how control leaves an expression: onwards or by `return`; `none` where no path does. -/
structure UsageFlow where
  onward : Option CallCount
  returned : Option CallCount
  escape : Escape
deriving DecidableEq, Repr, Inhabited

namespace UsageFlow

/-- All paths go on after the given number of calls. -/
def ofCount (c : CallCount) : UsageFlow := ⟨some c, none, .none⟩

def zero : UsageFlow := ofCount .zero

/-- No call, but the continuation escapes. -/
def escaped (e : Escape) : UsageFlow := { zero with escape := e }

/-- One part after the other; what is never reached may still let the continuation escape. -/
def followedBy (a b : UsageFlow) : UsageFlow :=
  let escape := a.escape.max b.escape
  match a.onward with
  | some before =>
    ⟨b.onward.map before.add, CallCount.join? a.returned (b.returned.map before.add), escape⟩
  | none => { a with escape }

/-- One part or the other. -/
def orElse (a b : UsageFlow) : UsageFlow :=
  ⟨CallCount.join? a.onward b.onward, CallCount.join? a.returned b.returned, a.escape.max b.escape⟩

def escaping (a : UsageFlow) (e : Escape) : UsageFlow := { a with escape := a.escape.max e }

/-- Whether no path goes on without a call. -/
def hasResumed (a : UsageFlow) : Bool :=
  match a.onward with
  | some c => c.least != 0
  | none => true

/-- A statement behind those that `a` stands for. -/
def andStmt (a b : UsageFlow) : UsageFlow :=
  if a.hasResumed then a.escaping b.escape else a.followedBy b

/-- All paths together. -/
def total (a : UsageFlow) : Usage :=
  ⟨(CallCount.join? a.onward a.returned).getD .zero, a.escape⟩

/-- Any number of runs. -/
def repeated (a : UsageFlow) : UsageFlow :=
  let count := a.total.count
  if count.most == some 0 then { a with onward := some count }
  else ⟨some .any, a.returned.map fun _ => .any, a.escape⟩

/-- A path that ends with `return` after the given part. -/
def returning (a : UsageFlow) : UsageFlow := ⟨none, CallCount.join? a.returned a.onward, a.escape⟩

/-- A part that stands for an inner clause: it runs once for every operation that it answers. -/
def asClause (a : UsageFlow) : UsageFlow :=
  { (ofCount a.total.count) with escape := a.escape }.repeated

/-- A part inside a closure: nothing is called yet, and every use is an escape. -/
def asClosure (a : UsageFlow) : UsageFlow :=
  escaped (match a.escape with
    | .none => .none
    | e => e.max .captured)

end UsageFlow

def Expr.isVar (k : LocalId) (e : Expr) : Bool :=
  match e.form with
  | .var l => l == k
  | _ => false

mutual

/-- How an expression uses the continuation `k`; `inClosure` says whether a closure surrounds it. -/
def Expr.usageFlow (k : LocalId) (inClosure : Bool) : Expr → UsageFlow
  | .node _ form _ _ => form.usageFlow k inClosure

def Form.usageFlow (k : LocalId) (inClosure : Bool) : Form → UsageFlow
  | .literal _ | .fn _ | .op _ _ | .breakLoop | .continueLoop | .intrinsic _ => .zero
  | .var l => if l = k then .escaped .leaked else .zero
  | .binary _ lhs rhs => (lhs.usageFlow k inClosure).followedBy (rhs.usageFlow k inClosure)
  | .unary _ operand => operand.usageFlow k inClosure
  | .call callee args =>
    let args := usageFlowAll k inClosure .zero args
    if callee.isVar k then
      if inClosure then args.escaping .captured else args.followedBy (.ofCount .once)
    else (callee.usageFlow k inClosure).followedBy args
  | .perform _ args _ => usageFlowAll k inClosure .zero args
  | .block stmts tail =>
    let before := usageFlowStmts k inClosure .zero stmts
    match tail with
    | some e => before.andStmt (e.usageFlow k inClosure)
    | none => before
  | .assign _ value => value.usageFlow k inClosure
  | .branch cond onTrue onFalse =>
    let onFalse := match onFalse with
      | some e => e.usageFlow k inClosure
      | none => .zero
    (cond.usageFlow k inClosure).followedBy ((onTrue.usageFlow k inClosure).orElse onFalse)
  | .select scrutinee arms =>
    let missing := if arms.any (·.pattern.isIrrefutable) then none else some UsageFlow.zero
    let arms := usageFlowArms k inClosure missing arms
    (scrutinee.usageFlow k inClosure).followedBy (arms.getD .zero)
  | .loop body => (body.usageFlow k inClosure).repeated
  | .whileLoop cond body =>
    ((cond.usageFlow k inClosure).followedBy (body.usageFlow k inClosure)).repeated
  | .ret value =>
    match value with
    | some e => (e.usageFlow k inClosure).returning
    | none => UsageFlow.zero.returning
  | .handle body clauses finalizer =>
    let handled := usageFlowClauses k inClosure (body.usageFlow k inClosure) clauses
    match finalizer with
    | some e => handled.followedBy (e.usageFlow k inClosure)
    | none => handled
  | .closure _ body => (body.usageFlow k true).asClosure
  | .tuple items => usageFlowAll k inClosure .zero items
  | .field base _ => base.usageFlow k inClosure

def usageFlowAll (k : LocalId) (inClosure : Bool) (before : UsageFlow) : List Expr → UsageFlow
  | [] => before
  | e :: es => usageFlowAll k inClosure (before.followedBy (e.usageFlow k inClosure)) es

def usageFlowStmts (k : LocalId) (inClosure : Bool) (before : UsageFlow) : List Stmt → UsageFlow
  | [] => before
  | .bind _ (some e) :: ss => usageFlowStmts k inClosure (before.andStmt (e.usageFlow k inClosure)) ss
  | .bind _ none :: ss => usageFlowStmts k inClosure before ss
  | .expr e :: ss => usageFlowStmts k inClosure (before.andStmt (e.usageFlow k inClosure)) ss

/-- The join of the arms and of the alternatives so far. -/
def usageFlowArms (k : LocalId) (inClosure : Bool) (others : Option UsageFlow) : List Arm → Option UsageFlow
  | [] => others
  | .mk _ body :: as =>
    let arm := body.usageFlow k inClosure
    usageFlowArms k inClosure (some (match others with | some o => o.orElse arm | none => arm)) as

def usageFlowClauses (k : LocalId) (inClosure : Bool) (before : UsageFlow) : List Clause → UsageFlow
  | [] => before
  | .mk _ body :: cs =>
    usageFlowClauses k inClosure (before.followedBy (body.usageFlow k inClosure).asClause) cs

end

/-- How a clause body uses the continuation `k`. -/
def Expr.usage (body : Expr) (k : LocalId) : Usage := (body.usageFlow k false).total

end Effectful
