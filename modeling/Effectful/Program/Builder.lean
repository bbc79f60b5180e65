import Effectful.Program.Basic
/-!
# Building programs

A builder hands out ids and works out types.  Definitions are numbered from zero in the order in
which they are declared, expressions from one in the order in which they are built; a declared
function takes one expression id for the body that it has until it is defined.

Bodies are built in `BodyM`: it knows the declarations made so far and keeps the function's locals
and the next expression id.  Parts are built before the node that holds them.
-/

namespace Effectful

/-! ### Declarations -/

structure ProgramBuilder where
  program : Program := {}
  nextDef : Nat := 0
  nextExpr : Nat := 1

/-- What building a body changes. -/
structure BodyState where
  locals : List LocalDecl
  nextExpr : Nat

/-- Building a body over fixed declarations. -/
abbrev BodyM := ReaderT Program (StateM BodyState)

namespace ProgramBuilder

def effect (b : ProgramBuilder) (name : String) (ops : List OpDecl) : DefId × ProgramBuilder :=
  let id : DefId := ⟨b.nextDef⟩
  (id, { b with
    program := { b.program with effects := b.program.effects ++ [{ id, name, ops }] }
    nextDef := b.nextDef + 1 })

/-- Declares a function; its body is the unit literal until it is defined. -/
def declareFn (b : ProgramBuilder) (name : String) (params : List (String × Ty)) (ret : Ty) :
    DefId × ProgramBuilder :=
  let id : DefId := ⟨b.nextDef⟩
  let f : FnDecl := {
    id, name, ret
    params := (List.range params.length).map .mk
    locals := params.map fun (name, ty) => ⟨name, ty⟩
    body := .unitAt ⟨b.nextExpr⟩ {} }
  (id, {
    program := { b.program with functions := b.program.functions ++ [f] }
    nextDef := b.nextDef + 1
    nextExpr := b.nextExpr + 1 })

/-- Changes the first function with the given id. -/
def modifyFn (b : ProgramBuilder) (id : DefId) (change : FnDecl → FnDecl) : ProgramBuilder :=
  let change (fs : List FnDecl) : List FnDecl :=
    match fs.findIdx? (·.id == id) with
    | some i => fs.modify i change
    | none => fs
  { b with program := { b.program with functions := change b.program.functions } }

/-- The state in which the body of a declared function starts. -/
def openBody? (b : ProgramBuilder) (id : DefId) : Option BodyState :=
  (b.program.function? id).map fun f => ⟨f.locals, b.nextExpr⟩

/-- Gives a declared function the body and the locals that were built. -/
def closeBody (b : ProgramBuilder) (id : DefId) (body : Expr) (s : BodyState) : ProgramBuilder :=
  { b.modifyFn id fun f => { f with locals := s.locals, body } with nextExpr := s.nextExpr }

def defineFn (b : ProgramBuilder) (id : DefId) (body : BodyM Expr) : ProgramBuilder :=
  match b.openBody? id with
  | some s =>
    let (e, s) := (body.run b.program).run s
    b.closeBody id e s
  | none => b

def exportFn (b : ProgramBuilder) (id : DefId) : ProgramBuilder := b.modifyFn id ({ · with exported := true })

def declareEffects (b : ProgramBuilder) (id : DefId) (labels : List String) (isOpen : Bool) : ProgramBuilder :=
  b.modifyFn id ({ · with effects := some ⟨labels, isOpen⟩ })

end ProgramBuilder

/-! ### Bodies -/

namespace BodyM

def addLocal (name : String) (ty : Ty) : BodyM LocalId :=
  modifyGet fun s => (⟨s.locals.length⟩, { s with locals := s.locals ++ [⟨name, ty⟩] })

def localTy (l : LocalId) : BodyM Ty := do
  return ((← get).locals[l.index]?.map (·.ty)).getD .unit

def expr (form : Form) (ty : Ty) : BodyM Expr :=
  modifyGet fun s => (.node ⟨s.nextExpr⟩ form ty {}, { s with nextExpr := s.nextExpr + 1 })

def unit : BodyM Expr := expr (.literal .unit) .unit

def bool (b : Bool) : BodyM Expr := expr (.literal (.bool b)) .bool

def i32 (n : Int32) : BodyM Expr := expr (.literal (.int n.toInt64)) .i32

def i64 (n : Int64) : BodyM Expr := expr (.literal (.int n)) .i64

def f32 (x : Binary32) : BodyM Expr := expr (.literal (.float x.widen)) .f32

def f64 (x : Binary64) : BodyM Expr := expr (.literal (.float x)) .f64

def var (l : LocalId) : BodyM Expr := do expr (.var l) (← localTy l)

/-- A comparison is a boolean; any other operator keeps the type of its left operand. -/
def binary (op : BinOp) (lhs rhs : Expr) : BodyM Expr :=
  expr (.binary op lhs rhs) (if op.isComparison then .bool else lhs.ty)

def unary (op : UnaryOp) (operand : Expr) : BodyM Expr := expr (.unary op operand) operand.ty

def call (target : DefId) (args : List Expr) : BodyM Expr := do
  let (params, ret) := match (← read).function? target with
    | some f => (f.paramTys, f.ret)
    | none => ([], .unit)
  let callee ← expr (.fn target) (.fn params ret)
  expr (.call callee args) ret

def callValue (callee : Expr) (args : List Expr) : BodyM Expr :=
  expr (.call callee args) <| match callee.ty with
    | .fn _ ret => ret
    | .continuation _ ret => ret
    | _ => .unit

/-- Resumes the continuation that a local holds. -/
def resume (k : LocalId) (value : Expr) : BodyM Expr := do callValue (← var k) [value]

def perform (op : OpRef) (typeArgs : List Ty) (args : List Expr) : BodyM Expr := do
  let ret := ((← read).op? op).map (·.ret.substitute typeArgs)
  expr (.perform op args typeArgs) (ret.getD .unit)

def opValue (op : OpRef) : BodyM Expr := do
  let ty := ((← read).op? op).map fun decl => Ty.fn decl.params decl.ret
  expr (.op op []) (ty.getD .unit)

def intrinsic (which : Intrinsic) (ty : Ty) : BodyM Expr := expr (.intrinsic which) ty

def block (stmts : List Stmt) (tail : Option Expr) : BodyM Expr :=
  expr (.block stmts tail) ((tail.map (·.ty)).getD .unit)

def assign (target : LocalId) (value : Expr) : BodyM Expr := expr (.assign target value) .unit

def branch (cond onTrue : Expr) (onFalse : Option Expr) : BodyM Expr :=
  expr (.branch cond onTrue onFalse) (if onFalse.isSome then onTrue.ty else .unit)

def select (scrutinee : Expr) (arms : List (Pattern × Expr)) : BodyM Expr :=
  expr (.select scrutinee (arms.map fun (pattern, body) => .mk pattern body))
    ((arms.head?.map (·.2.ty)).getD .unit)

def loop (body : Expr) : BodyM Expr := expr (.loop body) .unit

def whileLoop (cond body : Expr) : BodyM Expr := expr (.whileLoop cond body) .unit

def breakLoop : BodyM Expr := expr .breakLoop .unit

def continueLoop : BodyM Expr := expr .continueLoop .unit

def ret (value : Option Expr) : BodyM Expr := expr (.ret value) .unit

def handle (body : Expr) (clauses : List Clause) (finalizer : Option Expr) : BodyM Expr :=
  expr (.handle body clauses finalizer) body.ty

/-- The locals of a clause: the continuation, whose argument is what the first operation of that
name gives, then the parameters. -/
def clauseLocals (effect : DefId) (op : String) (params : List (String × Ty)) (result : Ty) :
    BodyM (LocalId × List LocalId) := do
  let decl := ((← read).effect? effect).bind fun e => (e.opsNamed op).head?.map (·.2)
  let k ← addLocal "k" (.continuation ((decl.map (·.ret)).getD .unit) result)
  return (k, ← params.mapM fun (name, ty) => addLocal name ty)

/-- A clause for `effect.op` over locals made by `clauseLocals`. -/
def clause (effect : DefId) (op : String) (annotations : Option (List Ty)) (k : LocalId)
    (params : List LocalId) (body : Expr) : Clause :=
  .mk { effect, op, annotations, params, continuation := k, span := body.span } body

/-- A closure over parameters that are already locals. -/
def closure (params : List LocalId) (paramTys : List Ty) (ret : Ty) (body : Expr) : BodyM Expr :=
  expr (.closure params body) (.fn paramTys ret)

def tuple (items : List Expr) : BodyM Expr := expr (.tuple items) (.tuple (items.map (·.ty)))

def field (base : Expr) (index : Nat) : BodyM Expr :=
  expr (.field base index) <| match base.ty with
    | .tuple items => (items[index]?).getD .unit
    | _ => .unit

end BodyM

end Effectful
