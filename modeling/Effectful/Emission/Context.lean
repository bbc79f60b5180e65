import Effectful.Compiler.Lower
import Effectful.Emission.Representation
/-!
# The unit that is being compiled

An effectful unit becomes a function that can be entered again at any of its sites.  Four parameters
stand in front of its own:

* `started` is `1` when the unit runs and `0` while it finds its way back to a site;
* `active` is the number of that site;
* `env` is the environment that was saved there;
* `resume` are the bits of the value to go on with.

A drive unit has a fifth one, the outcome of the guarded body.  When the unit is entered again, it
first restores the saved locals, and then every construct that holds a site runs only the part with
the active one.  At the site `started` is set and everything goes on as usual.

The locals of the target function are the parameters, one place for every local of the source
function, and temporaries.
-/

namespace Effectful

open Target

/-! ### The module around the unit -/

/-- Where things stand in a module. -/
structure ModuleLayout where
  types : List StructTy
  siteTypes : List (Nat × Nat)
  unitParams : List (List ValTy)
  /-- The function that enters a unit again. -/
  dispatch : Nat
  /-- The function that hands an outcome to the host. -/
  handOver : Nat
deriving Inhabited

namespace ModuleLayout

/-- The environment types of a unit, of which the first one is the base of the others. -/
def unitTypes (l : UnitLayout) (position : Nat) (sites : List EffectSite) : List StructTy :=
  { name := l.baseEnv, supertype := some Record.env.index, fields := envHeader } ::
    sites.map fun s =>
      { name := s.envName
        supertype := some position
        fields := envHeader ++ s.captures.map fun (_, f) => ⟨f.name, f.ty.valTy, false⟩ }

/-- Adds the environment types of a unit. -/
def addUnit (l : ModuleLayout) (sites : SiteTable) (unit : UnitLayout) : ModuleLayout :=
  let own := sites.unitSites unit.unit
  let base := l.types.length
  { l with
    types := l.types ++ unitTypes unit base own
    siteTypes := l.siteTypes ++ own.zipIdx.map fun (s, i) => (s.id, base + 1 + i) }

def paramTypes (p : LoweredProgram) (u : LoweringUnit) : List ValTy :=
  match p.program.function? u.owner with
  | some f => u.params.map fun l => (f.localTy l).valTy
  | none => u.params.map fun _ => Ty.unit.valTy

def make (p : LoweredProgram) : ModuleLayout :=
  let units := p.units.units
  let start : ModuleLayout := {
    types := recordTypes
    siteTypes := []
    unitParams := units.map (paramTypes p)
    dispatch := units.length
    handOver := units.length + 1 }
  (units.zip p.sites.layouts).foldl (fun l (u, own) => if u.effectful then l.addUnit p.sites own else l) start

end ModuleLayout

/-! ### The unit -/

/-- What is known while a unit is compiled. -/
structure UnitContext where
  program : LoweredProgram
  analysis : EffectAnalysis
  metadata : EffectMetadata
  layout : ModuleLayout
  index : Nat
  unit : LoweringUnit

/-- The first and the last of some sites with consecutive numbers. -/
abbrev SiteRange := Nat × Nat

def SiteRange.join (r s : SiteRange) : SiteRange := (min r.1 s.1, max r.2 s.2)

/-- The range over ranges some of which may be missing. -/
def SiteRange.joinAll (rs : List (Option SiteRange)) : Option SiteRange :=
  rs.foldl (fun found r =>
    match found, r with
    | some a, some b => some (join a b)
    | none, r => r
    | found, none => found) none

/-- How a clause's continuation is resumed. -/
structure ContinuationInfo where
  kind : ResumeKind
  needsGuard : Bool
deriving DecidableEq, Repr

namespace UnitContext

def function? (c : UnitContext) : Option FnDecl := c.program.program.function? c.unit.owner

def localTy (c : UnitContext) (l : LocalId) : Ty := (c.function?.map (·.localTy l)).getD .unit

/-- The number of parameters in front of the unit's own. -/
def headerLength (c : UnitContext) : Nat := if c.unit.effectful then if c.unit.isDrive then 5 else 4 else 0

/-- The place of a source local: parameters have their own, the others stand behind them. -/
def place (c : UnitContext) (l : LocalId) : Nat :=
  match c.unit.params.idxOf? l with
  | some i => c.headerLength + i
  | none => c.headerLength + c.unit.params.length + l.index

def get (c : UnitContext) (l : LocalId) : Instr := .localGet (c.place l)

def set (c : UnitContext) (l : LocalId) (value : Instr) : Instr := .localSet (c.place l) value

def localTypes (c : UnitContext) : List ValTy := ((c.function?.map (·.locals)).getD []).map (·.ty.valTy)

def firstTemp (c : UnitContext) : Nat := c.headerLength + c.unit.params.length + c.localTypes.length

def site? (c : UnitContext) (expr : ExprId) : Option EffectSite := c.program.sites.at? c.index expr

def sites (c : UnitContext) : List EffectSite := c.program.sites.unitSites c.index

/-- Whether an expression is the handler that the drive unit stands for. -/
def isDriveRoot (c : UnitContext) (expr : ExprId) : Bool := c.unit.isDrive && expr == c.unit.body.id

/-- The ranges of the expressions that hold sites, found from the leaves up. -/
def ranges (c : UnitContext) : List (ExprId × SiteRange) :=
  if c.unit.effectful then
    c.unit.body.walkPost.foldl (fun found e =>
      if c.isDriveRoot e.id then found
      else
        let own := (c.site? e.id).map fun s => (s.id, s.id)
        match SiteRange.joinAll (own :: e.form.children.map fun child => Assoc.get? found child.id) with
        | some range => Assoc.set found e.id range
        | none => found) []
  else []

/-- The continuations of a drive unit; of two clauses with one local the last one counts. -/
def continuation? (c : UnitContext) (k : LocalId) : Option ContinuationInfo := do
  let kind ← (c.unit.continuations c.analysis).reverse.lookup k
  let .drive handle := c.unit.kind | none
  let .handle _ clauses _ := c.unit.body.form | none
  let plan ← c.analysis.handler? handle
  return {
    kind
    needsGuard := clauses.zipIdx.any fun (clause, i) =>
      clause.head.continuation == k && (plan.clause? i).any (·.needsGuard) }

/-- The environment that is saved at a site. -/
def siteEnv (c : UnitContext) (s : EffectSite) (handler : Instr) : Instr :=
  match Assoc.get? c.layout.siteTypes s.id with
  | some ty =>
    .structNew ty (.nat s.id :: handler :: s.captures.map fun (_, f) =>
      match f.source.local? with
      | some l => c.get l
      | none => .refNull)
  | none => .refNull

end UnitContext

/-! ### Entering a unit again -/

/-- The parameters in front of a unit's own. -/
inductive Header where
  | started
  | active
  | env
  | resume
  /-- The outcome of the guarded body, in drive units. -/
  | outcome
deriving DecidableEq, Repr

namespace Header

def place : Header → Nat
  | .started => 0
  | .active => 1
  | .env => 2
  | .resume => 3
  | .outcome => 4

def get (h : Header) : Instr := .localGet h.place

def set (h : Header) (value : Instr) : Instr := .localSet h.place value

def types (isDrive : Bool) : List ValTy :=
  [.i32, .i32, Record.env.ref, .i64] ++ (if isDrive then [Record.outcome.ref] else [])

/-- From here on the unit runs. -/
def start : Instr := Header.started.set (.nat 1)

end Header

def SiteRange.isActive : Option SiteRange → Instr
  | some (low, high) => Header.active.get.within low high
  | none => .nat 0

/-- Whether a part runs: the unit runs, or the active site lies in the part. -/
def SiteRange.guard : Option SiteRange → Instr
  | some range => .binary .or .i32 Header.started.get (isActive (some range))
  | none => Header.started.get

namespace UnitContext

/-- Restores the locals that were saved at a site. -/
def restore (c : UnitContext) (s : EffectSite) : List Instr :=
  match Assoc.get? c.layout.siteTypes s.id with
  | some ty =>
    s.captures.filterMap fun (field, f) =>
      f.source.local?.map fun l => c.set l (.structGet ty field Header.env.get)
  | none => []

def savedLocals (c : UnitContext) : List LocalId :=
  c.sites.flatMap fun s => s.captures.filterMap fun (_, f) => f.source.local?

/-- The start of an effectful unit: restores the locals of the active site. -/
def prologue (c : UnitContext) : List Instr :=
  let restores := c.sites.map fun s =>
    Instr.ifElse (.i32Eq Header.active.get (.nat s.id)) (c.restore s) []
  if restores.isEmpty then [] else [.ifElse (.eqz Header.started.get) restores []]

/-- Enters the callee again whose environment was saved. -/
def resumeCallee (c : UnitContext) : Instr :=
  .call c.layout.dispatch [Header.env.get.envHandler, Header.resume.get]

end UnitContext

/-! ### Fresh names and complaints -/

/-- What grows while a unit is compiled. -/
structure EmitState where
  temps : List ValTy := []
  nextLabel : Nat := 0
  /-- A bound above the places of the source locals so far. -/
  places : Nat := 0
  diagnostics : List Diagnostic := []
deriving Inhabited

abbrev EmitM := StateM EmitState

namespace EmitM

def temp (c : UnitContext) (ty : ValTy) : EmitM Nat :=
  modifyGet fun s => (c.firstTemp + s.temps.length, { s with temps := s.temps ++ [ty] })

def touch (c : UnitContext) (locals : List LocalId) : EmitM Unit :=
  modify fun s => { s with places := locals.foldl (fun n l => max n (c.place l + 1)) s.places }

def get (c : UnitContext) (l : LocalId) : EmitM Instr := do
  touch c [l]
  return c.get l

def getAll (c : UnitContext) (locals : List LocalId) : EmitM (List Instr) := do
  touch c locals
  return locals.map c.get

def set (c : UnitContext) (l : LocalId) (value : Instr) : EmitM Instr := do
  touch c [l]
  return c.set l value

def label : EmitM Label := modifyGet fun s => (⟨s.nextLabel⟩, { s with nextLabel := s.nextLabel + 1 })

/-- A block that nothing leaves by its label. -/
def block (body : List Instr) : EmitM Instr := do return .block (← label) body

/-- Complains about a construct and puts a trap in its place. -/
def unsupported (c : UnitContext) (span : Span) (what : String) : EmitM Instr := do
  modify fun s => { s with diagnostics := s.diagnostics ++ [⟨.unsupported what c.unit.name, span⟩] }
  return .unreachable .unreachable

/-- The instruction, or a complaint if there is none. -/
def orUnsupported (c : UnitContext) (span : Span) (what : String) : Option Instr → EmitM Instr
  | some i => return i
  | none => unsupported c span what

def valueOutcome (c : UnitContext) (ty : Ty) (value : Instr) (span : Span) : EmitM Instr :=
  orUnsupported c span s!"a `{ty.text}` result of an effectful unit" (ty.valueOutcome? value)

def box (c : UnitContext) (ty : Ty) (value : Instr) (span : Span) : EmitM Instr :=
  orUnsupported c span s!"passing a `{ty.text}` value through an effect" (ty.box? value)

def unbox (c : UnitContext) (ty : Ty) (bits : Instr) (span : Span) : EmitM Instr :=
  orUnsupported c span s!"resuming with a `{ty.text}` value" (ty.unbox? bits)

end EmitM

end Effectful
