import Effectful.Analysis.Metadata
import Effectful.Lowering.Liveness
/-!
# Effect sites

A site is a point at which an effectful unit may suspend.  Sites are numbered over the whole program:
the units in order, each unit in post-order, so that the sites inside any expression have consecutive
numbers.  A drive unit has one more site at its end, where it passes on a request that none of its
clauses answers.

At each site an environment is saved.  It starts with the number of the site and the environment of
the callee, followed by the locals that are live behind the site, in the order in which the unit
defines them.
-/

namespace Effectful

/-- Why a site suspends. -/
inductive SiteKind where
  | perform
  /-- An effectful function is called. -/
  | call (target : DefId)
  /-- A cut-out handler runs. -/
  | handle (target : ExprId)
  /-- A clause resumes the continuation of a `resume` operation. -/
  | resume
  /-- A drive unit passes a request on. -/
  | forward
deriving DecidableEq, Repr, Inhabited

def SiteKind.text : SiteKind → String
  | .perform => "Perform"
  | .call target => s!"Call(DefId({target.index}))"
  | .handle target => s!"Handle(ExprId({target.index}))"
  | .resume => "Resume"
  | .forward => "Forward"

/-- Where the value of an environment field comes from. -/
inductive FieldSource where
  | site
  /-- The environment of the callee. -/
  | handler
  | param (source : LocalId)
  | var (source : LocalId)
deriving DecidableEq, Repr, Inhabited

namespace FieldSource

def text : FieldSource → String
  | .site => "Site"
  | .handler => "Handler"
  | .param source => s!"Param(LocalId({source.index}))"
  | .var source => s!"Local(LocalId({source.index}))"

def local? : FieldSource → Option LocalId
  | .param source | .var source => some source
  | .site | .handler => none

end FieldSource

structure EnvField where
  name : String
  source : FieldSource
  ty : Ty
deriving DecidableEq, Inhabited

/-- The two fields of every environment. -/
def EnvField.header : List EnvField := [⟨"site", .site, .i32⟩, ⟨"handler", .handler, .unit⟩]

/-- A point of suspension. -/
structure EffectSite where
  id : Nat
  expr : ExprId
  unit : Nat
  owner : DefId
  kind : SiteKind
  op : Option OpRef
  ordinal : Option OpOrdinal
  /-- The number of arguments, which are evaluated from left to right. -/
  arity : Nat
  liveAfter : List LocalId
  fields : List EnvField
  envName : String
deriving Inhabited

namespace EffectSite

/-- The saved locals with their positions in the environment. -/
def captures (s : EffectSite) : List (Nat × EnvField) :=
  (s.fields.zipIdx.map fun (f, i) => (i, f)).drop EnvField.header.length

def text (s : EffectSite) : String :=
  s.envName ++ " " ++ s.kind.text ++ " \x7b" ++ String.intercalate ", " (s.fields.map (·.name)) ++ "\x7d"

end EffectSite

structure UnitLayout where
  unit : Nat
  name : String
  sites : List Nat
deriving DecidableEq, Inhabited

/-- The name of the type that all environments of the unit extend. -/
def UnitLayout.baseEnv (l : UnitLayout) : String := l.name ++ "$env"

/-- The first and the last site. -/
def UnitLayout.range? (l : UnitLayout) : Option (Nat × Nat) := do return (← l.sites.head?, ← l.sites.getLast?)

/-- The sites of a program; the position of a site is its number. -/
structure SiteTable where
  sites : List EffectSite := []
  layouts : List UnitLayout := []
deriving Inhabited

namespace SiteTable

def site? (t : SiteTable) (id : Nat) : Option EffectSite := t.sites[id]?

def at? (t : SiteTable) (unit : Nat) (expr : ExprId) : Option EffectSite :=
  (t.sites.filter fun s => s.unit == unit && s.expr == expr).getLast?

def unitSites (t : SiteTable) (unit : Nat) : List EffectSite := t.sites.filter (·.unit == unit)

end SiteTable

/-! ### Finding sites -/

namespace LoweringUnit

/-- The continuations of a drive unit with the kinds of their operations. -/
def continuations (u : LoweringUnit) (a : EffectAnalysis) : List (LocalId × ResumeKind) :=
  match u.kind, u.body.form with
  | .drive handle, .handle _ clauses _ =>
    match a.handler? handle with
    | some plan =>
      clauses.zipIdx.filterMap fun (c, i) => (plan.clause? i).map fun p => (c.head.continuation, p.kind)
    | none => []
  | _, _ => []

/-- The continuations that belong to operations of one kind. -/
def continuationsOf (u : LoweringUnit) (a : EffectAnalysis) (kind : ResumeKind) : LocalSet :=
  .ofList ((u.continuations a).filterMap fun (l, k) => if k = kind then some l else none)

/-- The locals that are live everywhere in the unit. -/
def forced (u : LoweringUnit) : LocalSet := if u.isDrive then .ofList u.params else []

/-- The locals that a construct itself defines. -/
def definedBy : Form → List LocalId
  | .assign target _ => [target]
  | form => form.declaredLocals

def definitionOrder (u : LoweringUnit) : List LocalId :=
  (u.params ++ u.body.walk.flatMap fun e => definedBy e.form).foldl
    (fun found l => if found.contains l then found else found ++ [l]) []

/-- Locals in the order of their definition; others follow by their numbers. -/
def sortByDefinition (u : LoweringUnit) (ls : List LocalId) : List LocalId :=
  let order := u.definitionOrder
  let place (l : LocalId) : Nat := order.idxOf l
  ls.mergeSort fun a b => decide (place a < place b ∨ place a = place b ∧ a.index ≤ b.index)

end LoweringUnit

structure SiteDraft where
  expr : ExprId
  kind : SiteKind
  op : Option OpRef := none
  arity : Nat := 0

/-- The site at an expression of a unit, if it is one; `resumes` holds the continuations whose call
suspends. -/
def Expr.siteDraft? (e : Expr) (a : EffectAnalysis) (units : LiftedProgram) (resumes : LocalSet) : Option SiteDraft :=
  match e.form with
  | .perform operation args _ => some { expr := e.id, kind := .perform, op := some operation, arity := args.length }
  | .call callee args =>
    match callee.form with
    | .op operation _ => some { expr := e.id, kind := .perform, op := some operation, arity := args.length }
    | .fn target =>
      if a.isEffectful target then some { expr := e.id, kind := .call target, arity := args.length } else none
    | .var k => if resumes.contains k then some { expr := e.id, kind := .resume, arity := args.length } else none
    | _ => none
  | .handle _ _ _ => if (units.handle? e.id).isSome then some { expr := e.id, kind := .handle e.id } else none
  | _ => none

def LoweringUnit.siteDrafts (u : LoweringUnit) (a : EffectAnalysis) (units : LiftedProgram) : List SiteDraft :=
  let resumes := u.continuationsOf a .resume
  let inside := u.body.walkPost.filter fun e => !(u.isDrive && e.id == u.body.id)
  inside.filterMap (·.siteDraft? a units resumes) ++
    (if u.isDrive then [{ expr := u.body.id, kind := .forward }] else [])

/-- The fields of an environment that saves the given locals of a function. -/
def LoweringUnit.envFields (u : LoweringUnit) (f : FnDecl) (live : List LocalId) : List EnvField :=
  EnvField.header ++ live.map fun l =>
    { name := f.localName l ++ s!"#{l.index}"
      source := if u.params.contains l then .param l else .var l
      ty := f.localTy l }

/-- The sites of the unit at a position; `first` is the number of the first one. -/
def LoweringUnit.sites (u : LoweringUnit) (f : FnDecl) (a : EffectAnalysis) (m : EffectMetadata)
    (units : LiftedProgram) (position first : Nat) : List EffectSite :=
  let forced := u.forced
  let live := u.liveAfter units forced (u.continuationsOf a .tail)
  (u.siteDrafts a units).zipIdx.map fun (d, i) =>
    let after := match d.kind with
      | .forward => forced
      | _ => LocalSet.union ((live.lookup d.expr).getD []) forced
    let liveAfter := u.sortByDefinition after
    { id := first + i
      expr := d.expr
      unit := position
      owner := u.owner
      kind := d.kind
      op := d.op
      ordinal := d.op.bind m.ordinalOf?
      arity := d.arity
      liveAfter
      fields := u.envFields f liveAfter
      envName := u.name ++ s!"$env{first + i}" }

/-- The sites of units from a position on, the first of which gets the given number. -/
def siteTableFrom (p : Program) (a : EffectAnalysis) (m : EffectMetadata) (units : LiftedProgram) :
    (position first : Nat) → List LoweringUnit → SiteTable
  | _, _, [] => {}
  | position, first, u :: us =>
    let sites := match u.effectful, p.function? u.owner with
      | true, some f => u.sites f a m units position first
      | _, _ => []
    let rest := siteTableFrom p a m units (position + 1) (first + sites.length) us
    { sites := sites ++ rest.sites
      layouts := { unit := position, name := u.name, sites := sites.map (·.id) } :: rest.layouts }

def Program.siteTable (p : Program) (a : EffectAnalysis) (m : EffectMetadata) (units : LiftedProgram) : SiteTable :=
  siteTableFrom p a m units 0 0 units.units

end Effectful
