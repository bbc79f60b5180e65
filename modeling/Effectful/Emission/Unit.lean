import Effectful.Emission.Expr
/-!
# Compiling units

A unit becomes one function.  One that is not effectful gives its plain value; an effectful one gives
outcomes.

A drive unit loops over the outcome of the guarded body.  A value ends the handler.  A request goes to
the clause for its operation, and a clause that resumes the tail continuation goes round again with
the new outcome.  A request without a clause is passed on, with the environment of the drive unit
around it; when it is answered, the guarded body is entered again and the loop goes on.
-/

namespace Effectful

open Target EmitM

/-- The number of the clause that answers a request, `-1` if none does. -/
def clauseByOrdinal (c : UnitContext) (plan : HandlerPlan) (count : Nat) : Instr :=
  (List.range count).foldr
    (fun i rest =>
      match (plan.clause? i).bind fun p => c.metadata.ordinalOf? p.op with
      | some ordinal =>
        .ifElse (.i32Eq (Header.outcome.get.effectPart .ordinal) (.nat ordinal.ordinal)) [.nat i] [rest]
      | none => rest)
    (.i32Const (-1))

/-- Takes the arguments of a request, from some position on, into the parameters of a clause. -/
def loadParams (c : UnitContext) (span : Span) : (position : Nat) → List LocalId → EmitM (List Instr)
  | _, [] => return []
  | position, l :: ls => do
    let arg := (Header.outcome.get.effectPart .args).item position
    let value ← unbox c (c.localTy l) arg.valueBits span
    let load ← EmitM.set c l value
    let rest ← loadParams c span (position + 1) ls
    return load :: rest

def compileClause (c : UnitContext) (s : Scope) (top : Label) (plan : ClausePlan) (clause : Clause) :
    EmitM (List Instr) := do
  let params ← loadParams c clause.head.span 0 clause.head.params
  let cont ← EmitM.set c clause.head.continuation Header.outcome.get
  let load := Instr.ifElse Header.started.get (cont :: params) []
  let body ← clause.body.compile c { s with clause := some ⟨plan.kind, top⟩ }
  match plan.kind with
  | .resume => return [load, .give (← valueOutcome c c.unit.result body clause.body.span)]
  | .tail => return [load, body, .unreachable .tailResumeMissing]

def compileClauses (c : UnitContext) (s : Scope) (top : Label) (plan : HandlerPlan) :
    (position : Nat) → List Clause → EmitM (List (List Instr))
  | _, [] => return []
  | position, clause :: rest => do
    let code ← match plan.clause? position with
      | some p => compileClause c s top p clause
      | none => pure [.unreachable .opMismatch]
    let more ← compileClauses c s top plan (position + 1) rest
    return code :: more

/-- Passes a request on, or takes its answer into the guarded body. -/
def forwardAt (c : UnitContext) (top : Label) (site : EffectSite) : Instr :=
  let outcome := Header.outcome.get
  .ifElse Header.started.get [.give (outcome.rewrapped (c.siteEnv site (outcome.effectPart .env)))]
    [Header.outcome.set c.resumeCallee, Header.start, .goto top]

def compileDrive (c : UnitContext) (s : Scope) (plan : HandlerPlan) (clauses : List Clause) : EmitM (List Instr) := do
  let top ← label
  let selected ← temp c .i32
  let alternatives ← compileClauses c s top plan 0 clauses
  let forward := match c.site? c.unit.body.id with
    | some site => forwardAt c top site
    | none => .unreachable .unreachable
  let outcome := Header.outcome.get
  let number := Instr.ifElse Header.started.get [clauseByOrdinal c plan clauses.length]
    [s.activePart (clauses.map Clause.body)]
  return [
    .loop top [
      .ifElse Header.started.get [.ifElse (outcome.hasStatus 0) [.give outcome] []] [],
      .localSet selected number,
      chooseBy selected forward alternatives],
    .unreachable .unreachable]

namespace UnitContext

def body (c : UnitContext) : EmitM (List Instr) := do
  let s : Scope := { ranges := c.ranges }
  if c.unit.effectful then
    touch c c.savedLocals
    match c.unit.kind, c.unit.body.form with
    | .drive handle, .handle _ clauses _ =>
      match c.analysis.handler? handle with
      | some plan => return c.prologue ++ (← compileDrive c s plan clauses)
      | none => return c.prologue ++ [.unreachable .unreachable]
    | .drive _, _ => return c.prologue ++ [.unreachable .unreachable]
    | _, _ =>
      let value ← c.unit.body.compile c s
      return c.prologue ++ [← valueOutcome c c.unit.result value c.unit.body.span]
  else return [← c.unit.body.compile c s]

def compile (c : UnitContext) : Function × EmitState :=
  let (body, s) := c.body.run {}
  let header := if c.unit.effectful then Header.types c.unit.isDrive else []
  let function := {
    name := c.unit.name
    params := header ++ (c.layout.unitParams[c.index]?).getD []
    locals := c.localTypes ++ s.temps
    result := some (if c.unit.effectful then Record.outcome.ref else c.unit.result.valTy)
    body }
  (function, s)

end UnitContext

end Effectful
