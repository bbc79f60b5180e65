import Effectful.Program.Expr
import Effectful.Effect.ResumeKind
/-!
# Programs

A program is a list of effect declarations and a list of functions.  Where several declarations
share a name or an id, the first one counts.
-/

namespace Effectful

/-- An operation of an effect. -/
structure OpDecl where
  name : String
  generics : Nat
  params : List Ty
  ret : Ty
  kind : ResumeKind
deriving DecidableEq, Inhabited

/-- The signature as it is hashed into effect tables, for instance `State.get()->i32`. -/
def OpDecl.signature (op : OpDecl) (effectName : String) : String :=
  effectName ++ "." ++ op.name ++ "(" ++ String.intercalate "," (op.params.map Ty.text) ++ ")->" ++ op.ret.text

/-- An effect: a name and its operations, which are known by their positions. -/
structure EffectDecl where
  id : DefId
  name : String
  ops : List OpDecl
  span : Span := {}
deriving Inhabited

/-- The operations of some name with their positions: its overloads. -/
def EffectDecl.opsNamed (e : EffectDecl) (name : String) : List (Nat × OpDecl) :=
  (e.ops.zipIdx.filter (·.1.name == name)).map fun (op, i) => (i, op)

structure LocalDecl where
  name : String
  ty : Ty
deriving DecidableEq, Inhabited

/-- The effects that a function's signature allows. -/
structure DeclaredRow where
  /-- Labels such as `State.get`. -/
  labels : List String
  /-- Whether further effects may come from a row variable. -/
  isOpen : Bool := false
deriving DecidableEq, Inhabited

structure FnDecl where
  id : DefId
  name : String
  params : List LocalId
  ret : Ty
  /-- All locals of the body, the parameters first. -/
  locals : List LocalDecl
  body : Expr
  /-- The allowed effects; without them inference decides. -/
  effects : Option DeclaredRow := none
  /-- Whether the host may call the function. -/
  exported : Bool := false
  span : Span := {}
deriving Inhabited

namespace FnDecl

def localDecl? (f : FnDecl) (l : LocalId) : Option LocalDecl := f.locals[l.index]?

/-- The type of a local; an unknown one counts as unit. -/
def localTy (f : FnDecl) (l : LocalId) : Ty := ((f.localDecl? l).map (·.ty)).getD .unit

def localName (f : FnDecl) (l : LocalId) : String := ((f.localDecl? l).map (·.name)).getD "_"

def paramTys (f : FnDecl) : List Ty := f.params.map f.localTy

/-- Adds a local behind the others. -/
def addLocal (f : FnDecl) (name : String) (ty : Ty) : LocalId × FnDecl :=
  (⟨f.locals.length⟩, { f with locals := f.locals ++ [⟨name, ty⟩] })

end FnDecl

structure Program where
  effects : List EffectDecl := []
  functions : List FnDecl := []
deriving Inhabited

namespace Program

def effect? (p : Program) (d : DefId) : Option EffectDecl := p.effects.find? (·.id == d)

/-- The position of an effect among the declarations. -/
def effectPosition? (p : Program) (d : DefId) : Option Nat := p.effects.findIdx? (·.id == d)

def function? (p : Program) (d : DefId) : Option FnDecl := p.functions.find? (·.id == d)

def functionNamed? (p : Program) (name : String) : Option FnDecl := p.functions.find? (·.name == name)

def op? (p : Program) (op : OpRef) : Option OpDecl := (p.effect? op.effect).bind (·.ops[op.index]?)

/-- The label of an operation, `Effect.op`; one that is not declared is named by its numbers. -/
def opLabel (p : Program) (op : OpRef) : String :=
  match p.effect? op.effect, p.op? op with
  | some e, some decl => e.name ++ "." ++ decl.name
  | _, _ => s!"{op.effect.text}.#{op.index}"

/-- The largest expression id in use, zero if there is none. -/
def maxExprId (p : Program) : Nat :=
  (p.functions.flatMap fun f => f.body.walk.map (·.id.index)).foldl max 0

/-- The first id for a new expression, if there is one. -/
def nextExprId? (p : Program) : Option Nat :=
  if p.maxExprId + 1 < exprIdLimit then some (p.maxExprId + 1) else none

end Program

end Effectful
