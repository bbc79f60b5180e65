import Effectful.Emission.Context
/-!
# Compiling expressions

Each expression becomes one instruction that gives its value.  A construct without sites is compiled
in the plain way.  In a construct with sites every part is guarded: it runs if the unit runs, or if
the active site lies in it.  Three things can happen at a site:

* An operation suspends the unit with a new effect outcome.  On the way back it gives the value that
  the unit was resumed with.
* A call of something effectful runs it, or enters it again on the way back.  If the outcome is an
  effect, the unit suspends too, with its own environment around that of the callee.
* A tail resumption goes back to the dispatch loop of the drive unit with the outcome of the resumed
  body; the clause is over.
-/

namespace Effectful

open Target EmitM

structure LoopLabels where
  exit : Label
  top : Label

/-- The clause around an expression. -/
structure ClauseScope where
  kind : ResumeKind
  top : Label

/-- What surrounds an expression within its unit. -/
structure Scope where
  ranges : List (ExprId × SiteRange)
  loop : Option LoopLabels := none
  clause : Option ClauseScope := none

namespace Scope

def range? (s : Scope) (expr : ExprId) : Option SiteRange := Assoc.get? s.ranges expr

def hasSites (s : Scope) (expr : ExprId) : Bool := (s.range? expr).isSome

def guard (s : Scope) (part : Expr) : Instr := SiteRange.guard (s.range? part.id)

def isActive (s : Scope) (part : Expr) : Instr := SiteRange.isActive (s.range? part.id)

end Scope

/-- Takes one of some alternatives by number, and `otherwise` if the number is none of theirs. -/
def chooseBy (selected : Nat) (otherwise : Instr) (alternatives : List (List Instr)) : Instr :=
  alternatives.zipIdx.foldr
    (fun (code, i) rest => .ifElse (.i32Eq (.localGet selected) (.nat i)) code [rest]) otherwise

/-- The number of the part that holds the active site, `-1` if there is none. -/
def Scope.activePart (s : Scope) (parts : List Expr) : Instr :=
  parts.zipIdx.foldr
    (fun (part, i) rest =>
      if s.hasSites part.id then .ifElse (s.isActive part) [.nat i] [rest] else rest) (.i32Const (-1))

/-! ### Pieces that need no recursion -/

/-- Runs a callee at a site.  A unit that is not effectful has no site; then no effect may escape. -/
def siteCall (c : UnitContext) (expr : ExprId) (ty : Ty) (span : Span) (fresh : Instr) : EmitM Instr := do
  let result ← temp c Record.outcome.ref
  let outcome := Instr.localGet result
  let value ← unbox c ty outcome.valueBits span
  match if c.unit.effectful then c.site? expr else none with
  | some site =>
    let env := c.siteEnv site (outcome.effectPart .env)
    block [
      .localSet result (.ifElse Header.started.get [fresh] [c.resumeCallee]),
      Header.start,
      .ifElse (outcome.hasStatus 1) [.give (outcome.rewrapped env)] [value]]
  | none =>
    block [
      .localSet result fresh,
      .ifElse (outcome.hasStatus 1) [.unreachable .unreachable] [value]]

/-- Suspends with a request, or gives the value that the unit was resumed with. -/
def performAt (c : UnitContext) (site : EffectSite) (ordinal : OpOrdinal) (ty : Ty) (span : Span)
    (args : List Instr) : EmitM Instr := do
  let outcome := Instr.structNew Record.effect.index
    [.nat 1, .nat ordinal.ordinal, .i64Const (.ofNat ordinal.effectId), .nat ordinal.opId,
      .nat ordinal.kind.code, .arrayNew args, c.siteEnv site .refNull, .nat 0]
  let resumed ← unbox c ty Header.resume.get span
  return .ifElse Header.started.get [.give outcome] [Header.start, resumed]

/-- Resumes a continuation with the given bits. -/
def resumeAt (c : UnitContext) (s : Scope) (expr : ExprId) (ty : Ty) (span : Span) (k : LocalId)
    (info : ContinuationInfo) (bits : Instr) : EmitM Instr := do
  let cont ← EmitM.get c k
  let resumed := Instr.call c.layout.dispatch [cont.effectPart .env, bits]
  match info.kind with
  | .tail =>
    match s.clause with
    | some clause =>
      let guard := if info.needsGuard then cont.countedOnce else []
      block (guard ++ [Header.outcome.set resumed, .goto clause.top])
    | none => unsupported c span "a tail resumption outside its clause"
  | .resume =>
    -- A new run of the drive unit takes the outcome, so the handler stays in place.
    siteCall c expr ty span (.call c.index (freshArgs (resumed :: (← getAll c c.unit.params))))

def Intrinsic.compile (which : Intrinsic) (c : UnitContext) (ty : Ty) (span : Span) (args : List Instr) :
    EmitM Instr := do
  match which, args with
  | .abs, [x] =>
    let t ← temp c ty.valTy
    let test := Instr.binary .lt ty.numTy (.localGet t) ((Literal.int 0).compile ty)
    block [.localSet t x, .ifElse test [.unary .neg ty.numTy (.localGet t)] [.localGet t]]
  | .abs, _ => unsupported c span s!"{which.caseName} with {args.length} arguments"
  | which, [x, y] =>
    let a ← temp c ty.valTy
    let b ← temp c ty.valTy
    let test := Instr.binary .le ty.numTy (.localGet a) (.localGet b)
    let (first, second) := if which = .min then (a, b) else (b, a)
    block [.localSet a x, .localSet b y, .ifElse test [.localGet first] [.localGet second]]
  | which, _ => unsupported c span s!"{which.caseName} with {args.length} arguments"

/-- The number of the first arm that accepts a value, `-1` if none does. -/
def armByValue (value : Nat) (ty : Ty) (arms : List Arm) : Instr :=
  arms.zipIdx.foldr
    (fun (arm, i) rest =>
      match arm.pattern with
      | .wildcard | .binding _ => .nat i
      | .literal l => .ifElse (.binary .eq ty.numTy (.localGet value) (l.compile ty)) [.nat i] [rest])
    (.i32Const (-1))

/-- What an arm does before its body: it binds the value, unless the unit is on its way back. -/
def armBinding (c : UnitContext) (guarded : Bool) (value : Nat) : Pattern → EmitM (List Instr)
  | .binding l => do
    let bind ← EmitM.set c l (.localGet value)
    return if guarded then [.ifElse Header.started.get [bind] []] else [bind]
  | _ => return []

/-- What a construct without compiled form is called. -/
def Form.describe : Form → String
  | .closure _ _ => "a closure"
  | .tuple _ => "a tuple"
  | .field _ _ => "a tuple projection"
  | .fn _ => "a function used as a value"
  | .op _ _ => "an operation used as a value"
  | .intrinsic _ => "an intrinsic used as a value"
  | .call _ _ => "a call through a value"
  | _ => "this expression"

/-! ### Expressions -/

mutual

def Expr.compile (c : UnitContext) (s : Scope) : Expr → EmitM Instr
  | .node id form ty span => form.compile c s id ty span

def Form.compile (c : UnitContext) (s : Scope) (id : ExprId) (ty : Ty) (span : Span) : Form → EmitM Instr
  | .literal value => return value.compile ty
  | .var source => EmitM.get c source
  | .binary operator lhs rhs => do
    let a ← lhs.compile c s
    let b ← rhs.compile c s
    return .binary operator.compile lhs.ty.numTy a b
  | .unary operator operand => do
    let v ← operand.compile c s
    return operator.compile operand.ty v
  | .call callee args =>
    match callee.form with
    | .fn target =>
      match c.program.units.functionUnit? target with
      | some unit => do
        let values ← compileAll c s args
        if (c.program.units.units[unit]?).any (·.effectful) then
          siteCall c id ty span (.call unit (freshArgs values))
        else return .call unit values
      | none => unsupported c callee.span s!"a call to unknown function {target.text}"
    | .op operation _ =>
      match c.site? id, c.metadata.ordinalOf? operation with
      | some site, some ordinal => do
        let values ← compileBoxed c s args
        performAt c site ordinal ty span values
      | _, _ => return .unreachable .unreachable
    | .intrinsic which => do
      let values ← compileAll c s args
      which.compile c ty span values
    | .var k =>
      match c.continuation? k with
      | some info => do
        if 1 < args.length then unsupported c span "resuming with more than one value"
        else
          let values ← compileAll c s args
          let bits ← box c ((args.head?.map (·.ty)).getD .unit) (values.headD (.nat 0)) span
          resumeAt c s id ty span k info bits
      | none => unsupported c span (Form.call callee args).describe
    | _ => unsupported c span (Form.call callee args).describe
  | .perform operation args _ =>
    match c.site? id, c.metadata.ordinalOf? operation with
    | some site, some ordinal => do
      let values ← compileBoxed c s args
      performAt c site ordinal ty span values
    | _, _ => return .unreachable .unreachable
  | .block stmts tail => do
    let body ← compileStmts c s (s.hasSites id) stmts
    let last ← match tail with
      | some e => e.compile c s
      | none => pure (.nat 0)
    block (body ++ [last])
  | .assign target value => do
    let v ← value.compile c s
    block [← EmitM.set c target v, .nat 0]
  | .branch cond onTrue onFalse => do
    let plain ← cond.compile c s
    let test := if s.hasSites id then Instr.ifElse (s.guard cond) [plain] [s.isActive onTrue] else plain
    let yes ← onTrue.compile c s
    let no ← match onFalse with
      | some e => e.compile c s
      | none => pure (.nat 0)
    return .ifElse test [yes] [no]
  | .select scrutinee arms => do
    let guarded := s.hasSites id
    let value ← temp c scrutinee.ty.valTy
    let selected ← temp c .i32
    let v ← scrutinee.compile c s
    let byValue := [Instr.localSet value v, armByValue value scrutinee.ty arms]
    let number ←
      if guarded then
        pure (Instr.ifElse (s.guard scrutinee) byValue [s.activePart (arms.map Arm.body)])
      else block byValue
    let alternatives ← compileArms c s guarded value arms
    block [.localSet selected number, chooseBy selected (.unreachable .unreachable) alternatives]
  | .loop body => do
    let exit ← label
    let top ← label
    let round ← body.compile c { s with loop := some ⟨exit, top⟩ }
    return .block exit [.loop top [round, .goto top], .nat 0]
  | .whileLoop cond body => do
    let exit ← label
    let top ← label
    let inner := { s with loop := some ⟨exit, top⟩ }
    let plain ← cond.compile c inner
    -- On the way back to the body the test is skipped: that round has begun already.
    let test := if s.hasSites id then Instr.ifElse (s.guard cond) [plain] [.nat 1] else plain
    let round ← body.compile c inner
    return .block exit [.loop top [.ifElse (.eqz test) [.br exit (some (.nat 0))] [], round, .goto top], .nat 0]
  | .breakLoop =>
    match s.loop with
    | some l => return .br l.exit (some (.nat 0))
    | none => unsupported c span "`break` outside a loop"
  | .continueLoop =>
    match s.loop with
    | some l => return .goto l.top
    | none => unsupported c span "`continue` outside a loop"
  | .ret value => do
    let v ← match value with
      | some e => e.compile c s
      | none => pure (.nat 0)
    if s.clause.any (·.kind == .tail) then
      -- A tail clause leaves only through its continuation.
      block [v, .unreachable .tailResumeMissing]
    else if c.unit.effectful then return .give (← valueOutcome c c.unit.result v span)
    else return .give v
  | .handle body _ _ =>
    match c.program.units.handle? id with
    | some lifted => do
      let guarded := Instr.call lifted.bodyUnit (freshArgs (← getAll c lifted.bodyArgs))
      siteCall c id ty span (.call lifted.driveUnit (freshArgs (guarded :: (← getAll c lifted.driveArgs))))
    | none =>
      -- Nothing in the body can reach the clauses.
      body.compile c s
  | .fn target => unsupported c span (Form.fn target).describe
  | .op operation typeArgs => unsupported c span (Form.op operation typeArgs).describe
  | .intrinsic which => unsupported c span (Form.intrinsic which).describe
  | .closure params body => unsupported c span (Form.closure params body).describe
  | .tuple items => unsupported c span (Form.tuple items).describe
  | .field base index => unsupported c span (Form.field base index).describe

def compileAll (c : UnitContext) (s : Scope) : List Expr → EmitM (List Instr)
  | [] => return []
  | e :: es => do
    let i ← e.compile c s
    let is ← compileAll c s es
    return i :: is

/-- Compiles the arguments of an operation, each as a value outcome. -/
def compileBoxed (c : UnitContext) (s : Scope) : List Expr → EmitM (List Instr)
  | [] => return []
  | e :: es => do
    let value ← e.compile c s
    let bits ← box c e.ty value e.span
    let arg := match e.ty.tag? with
      | some tag => Instr.newValue tag bits
      | none => .unreachable .unsupportedValue
    let args ← compileBoxed c s es
    return arg :: args

/-- Compiles the statements of a block; a declaration without a value does nothing. -/
def compileStmts (c : UnitContext) (s : Scope) (guarded : Bool) : List Stmt → EmitM (List Instr)
  | [] => return []
  | .bind target (some e) :: ss => do
    let v ← e.compile c s
    let plain ← EmitM.set c target v
    let rest ← compileStmts c s guarded ss
    return (if guarded then .ifElse (s.guard e) [plain] [] else plain) :: rest
  | .bind _ none :: ss => compileStmts c s guarded ss
  | .expr e :: ss => do
    let plain ← e.compile c s
    let rest ← compileStmts c s guarded ss
    return (if guarded then .ifElse (s.guard e) [plain] [] else plain) :: rest

def compileArms (c : UnitContext) (s : Scope) (guarded : Bool) (value : Nat) : List Arm → EmitM (List (List Instr))
  | [] => return []
  | .mk pattern body :: as => do
    let binding ← armBinding c guarded value pattern
    let i ← body.compile c s
    let rest ← compileArms c s guarded value as
    return (binding ++ [i]) :: rest

end

end Effectful
