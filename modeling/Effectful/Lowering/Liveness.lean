import Effectful.Lowering.Unit
/-!
# Liveness

Which locals are needed after each point at which a unit may suspend.  The analysis goes backwards:
from the locals that are live behind an expression it finds those that are live in front of it, and
notes what is live behind every call, every performed operation and every cut-out handler.

* Operands are evaluated from left to right and are evaluated again when the unit is entered again.
  So what an earlier operand reads stays live across the later ones.
* `break` goes to the end of its loop and `continue` to its head, in a `while` loop to the condition.
  Loops are iterated until nothing changes.
* `return` needs only what is live everywhere in the unit, and so does calling the continuation of a
  tail operation: it goes back to the dispatch of the drive unit.
-/

namespace Effectful

/-- What liveness knows of a unit. -/
structure LivenessContext where
  units : LiftedProgram
  /-- The locals that are live everywhere: the parameters of a drive unit. -/
  forced : LocalSet
  /-- The continuations whose call does not come back. -/
  transfers : LocalSet
  /-- More than the number of rounds that any loop needs. -/
  bound : Nat

/-- Where `break` and `continue` lead: what is live there. -/
structure LoopTargets where
  onBreak : LocalSet := []
  onContinue : LocalSet := []

/-- What is live in front of an expression, and behind the points inside it, the latest note first. -/
structure Liveness where
  before : LocalSet
  after : List (ExprId × LocalSet) := []
deriving Inhabited

namespace Liveness

/-- Adds the notes of what was looked at earlier. -/
def andThen (l : Liveness) (notes : List (ExprId × LocalSet)) : Liveness := { l with after := l.after ++ notes }

/-- Repeats a round from the locals live at the head of a loop until it adds none.  The notes of the
last round are kept. -/
def fixpoint (round : LocalSet → Liveness) : (bound : Nat) → (head : LocalSet) → Liveness
  | 0, head => { round head with before := head }
  | bound + 1, head =>
    let found := round head
    let next := found.before.union head
    if next = head then { found with before := head } else fixpoint round bound next

end Liveness

def Expr.reads (e : Expr) : LocalSet :=
  .ofList (e.walkPost.filterMap fun e => match e.form with | .var l => some l | _ => none)

def LivenessContext.transfer? (c : LivenessContext) (callee : Expr) : Option LocalId :=
  match callee.form with
  | .var k => if c.transfers.contains k then some k else none
  | _ => none

mutual

/-- Liveness of an expression, given what is live behind it. -/
def Expr.live (c : LivenessContext) : Expr → LoopTargets → LocalSet → Liveness
  | .node id form ty span, loop, out => form.live c id ty span loop out

def Form.live (c : LivenessContext) (id : ExprId) (ty : Ty) (span : Span) : Form → LoopTargets → LocalSet → Liveness
  | .literal _, _, out | .fn _, _, out | .op _ _, _, out | .intrinsic _, _, out => ⟨out, []⟩
  | .var l, _, out => ⟨LocalSet.insert l out, []⟩
  | .assign target value, loop, out => value.live c loop (LocalSet.erase out target)
  | .unary _ operand, loop, out => operand.live c loop out
  | .field base _, loop, out => base.live c loop out
  | .binary _ lhs rhs, loop, out =>
    let right := rhs.live c loop (LocalSet.union out lhs.reads)
    (lhs.live c loop right.before).andThen right.after
  | .tuple items, loop, out => liveOperands c items loop [] out
  | .perform _ args _, loop, out => (liveOperands c args loop [] out).andThen [(id, out)]
  | .call callee args, loop, out =>
    match c.transfer? callee with
    | some k =>
      let found := liveArgs c args loop c.forced
      { found with before := LocalSet.insert k found.before }
    | none =>
      let found := liveOperands c args loop callee.reads out
      (callee.live c loop found.before).andThen (found.after ++ [(id, out)])
  | .block stmts tail, loop, out =>
    let found := match tail with
      | some e => e.live c loop out
      | none => ⟨out, []⟩
    (liveStmts c stmts loop found.before).andThen found.after
  | .branch cond onTrue onFalse, loop, out =>
    let yes := onTrue.live c loop out
    let no := match onFalse with
      | some e => e.live c loop out
      | none => ⟨out, []⟩
    (cond.live c loop (LocalSet.union yes.before no.before)).andThen (no.after ++ yes.after)
  | .select scrutinee arms, loop, out =>
    let missed := if arms.any (·.pattern.isIrrefutable) then [] else out
    let found := liveArms c arms loop out missed
    (scrutinee.live c loop found.before).andThen found.after
  | .loop body, _, out => Liveness.fixpoint (fun head => body.live c ⟨out, head⟩ head) c.bound []
  | .whileLoop cond body, loop, out =>
    let round (head : LocalSet) : Liveness :=
      let found := body.live c ⟨out, head⟩ head
      (cond.live c loop (LocalSet.union found.before out)).andThen found.after
    Liveness.fixpoint round c.bound []
  | .breakLoop, loop, _ => ⟨loop.onBreak, []⟩
  | .continueLoop, loop, _ => ⟨loop.onContinue, []⟩
  | .ret value, loop, _ =>
    match value with
    | some e => e.live c loop c.forced
    | none => ⟨c.forced, []⟩
  | .handle body _ _, loop, out =>
    match c.units.handle? id with
    | some h => ⟨LocalSet.union (LocalSet.union out h.bodyArgs) h.driveArgs, [(id, out)]⟩
    | none => body.live c loop out
  | .closure params body, _, out =>
    ⟨LocalSet.union out (Expr.node id (.closure params body) ty span).freeLocals, []⟩

/-- Operands of which the earlier ones read the locals in `held`. -/
def liveOperands (c : LivenessContext) : List Expr → LoopTargets → (held out : LocalSet) → Liveness
  | [], _, _, out => ⟨out, []⟩
  | e :: es, loop, held, out =>
    let later := liveOperands c es loop (LocalSet.union held e.reads) out
    (e.live c loop (LocalSet.union later.before held)).andThen later.after

/-- The arguments of a transfer, which are not evaluated again. -/
def liveArgs (c : LivenessContext) : List Expr → LoopTargets → LocalSet → Liveness
  | [], _, out => ⟨out, []⟩
  | e :: es, loop, out =>
    let later := liveArgs c es loop out
    (e.live c loop later.before).andThen later.after

def liveStmts (c : LivenessContext) : List Stmt → LoopTargets → LocalSet → Liveness
  | [], _, out => ⟨out, []⟩
  | .bind target (some e) :: ss, loop, out =>
    let later := liveStmts c ss loop out
    (e.live c loop (LocalSet.erase later.before target)).andThen later.after
  | .bind target none :: ss, loop, out =>
    let later := liveStmts c ss loop out
    { later with before := LocalSet.erase later.before target }
  | .expr e :: ss, loop, out =>
    let later := liveStmts c ss loop out
    (e.live c loop later.before).andThen later.after

/-- The arms of a match together with what is live already. -/
def liveArms (c : LivenessContext) : List Arm → LoopTargets → (out live : LocalSet) → Liveness
  | [], _, _, live => ⟨live, []⟩
  | .mk pattern body :: as, loop, out, live =>
    let arm := body.live c loop out
    let before := match pattern with
      | .binding l => LocalSet.erase arm.before l
      | _ => arm.before
    (liveArms c as loop out (LocalSet.union live before)).andThen arm.after

end

/-- A bound on the rounds of the loops of an expression: every round but the last adds a local that
the expression mentions. -/
def Expr.roundBound (units : LiftedProgram) (e : Expr) : Nat :=
  (e.walk.map fun e =>
    e.form.usedLocals.length +
      (match units.handle? e.id with
        | some h => h.bodyArgs.length + h.driveArgs.length
        | none => 0)).foldl (· + ·) 0

/-- What is live behind the points of a unit, the latest note first. -/
def LoweringUnit.liveAfter (u : LoweringUnit) (units : LiftedProgram) (forced transfers : LocalSet) :
    List (ExprId × LocalSet) :=
  let c := { units, forced, transfers, bound := forced.length + u.body.roundBound units + 1 }
  match u.isDrive, u.body.form with
  | true, .handle _ clauses _ =>
    clauses.reverse.flatMap fun clause => (clause.body.live c {} forced).after
  | _, _ => (u.body.live c {} []).after

end Effectful
