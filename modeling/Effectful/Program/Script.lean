import Effectful.Program.Builder
import Effectful.Program.Json
import Effectful.Text.Hex
/-!
# Program scripts

A script is a compact JSON notation for a program.  It names effects, functions and locals by their
names and leaves ids and types to the builder: `["add", ["var", "x"], ["i32", 1]]` is a sum, and
`["perform", ["Async", 0], ["var", "x"]]` performs the first operation of the effect `Async`.

A script is a list of effects and a list of functions.  All functions are declared before the first
body is built, so bodies may call any function.  A name stands for what was declared under it last; in
a body, every binding replaces an earlier one of the same name for all nodes that are built later.
A number in the place of a name is an id.  Nodes are built parts first, from left to right.
-/

namespace Effectful.Script

/-- What the nodes of a body are read against. -/
structure State where
  program : Program
  defs : List (String × DefId)
  body : BodyState
  names : List (String × LocalId) := []

/-- Reading a body; a node that is none has no result. -/
abbrev ScriptM := StateT State Option

def build {α : Type} (step : BodyM α) : ScriptM α := do
  let s ← get
  let (a, body) := (step.run s.program).run s.body
  set { s with body }
  return a

def bindName (name : String) (l : LocalId) : ScriptM Unit := modify fun s => { s with names := (name, l) :: s.names }

def newLocal (name : String) (ty : Ty) : ScriptM LocalId := do
  let l ← build (.addLocal name ty)
  bindName name l
  return l

/-! ### Names and small parts -/

def findLocal : Json → ScriptM LocalId
  | .str name => do ((← get).names.find? (·.1 == name)).map (·.2)
  | j => LocalId.ofJson? j

def findDef : Json → ScriptM DefId
  | .str name => do ((← get).defs.find? (·.1 == name)).map (·.2)
  | j => DefId.ofJson? j

def findOp : Json → ScriptM OpRef
  | .arr [effect, index] => do return ⟨← findDef effect, ← index.nat32?⟩
  | _ => failure

def ty? (j : Json) : Option Ty := Ty.ofJson? (j.depth + 1) j

def types? (j : Json) : Option (List Ty) := j.list? ty?

def typedName? : Json → Option (String × Ty)
  | .arr [name, t] => do return (← name.str?, ← ty? t)
  | _ => none

def typedNames? (j : Json) : Option (List (String × Ty)) := j.list? typedName?

def hex? (limit : Nat) (j : Json) : Option Nat := do
  let n ← Hex.number? (← j.str?)
  if n < limit then some n else none

def optional? {α : Type} (read : Json → Option α) (j : Json) (name : String) : Option (Option α) :=
  match j.get? name with
  | none | some .null => some none
  | some v => (read v).map some

def pattern : Json → ScriptM Pattern
  | .str "_" => return .wildcard
  | .arr [.str "bind", l] => do return .binding (← findLocal l)
  | .arr [.str "lit", v] => do return .literal (← Literal.ofJson? v)
  | _ => failure

/-! ### Nodes -/

def optionalNode (node : Json → ScriptM Expr) : List Json → ScriptM (Option Expr)
  | [] | [.null] => return none
  | [x] => some <$> node x
  | _ => failure

def binary (node : Json → ScriptM Expr) (op : BinOp) (x y : Json) : ScriptM Expr := do
  let x ← node x
  build (.binary op x (← node y))

def stmt (node : Json → ScriptM Expr) : Json → ScriptM Stmt
  | .arr (.str "let" :: l :: init) => do
    let l ← findLocal l
    return .bind l (← optionalNode node init)
  | .arr [.str "expr", x] => do return .expr (← node x)
  | _ => failure

def arm (node : Json → ScriptM Expr) : Json → ScriptM (Pattern × Expr)
  | .arr [p, body] => do
    let p ← pattern p
    return (p, ← node body)
  | _ => failure

/-- A clause; without `annotations` its parameter types count as spelled out if `annotate` says so. -/
def clause (node : Json → ScriptM Expr) (j : Json) : ScriptM Clause := do
  let effect ← findDef (← j.get? "effect")
  let op ← (← j.get? "op").str?
  let params ← typedNames? (← j.get? "params")
  let result ← ty? (← j.get? "result")
  let kName := (← optional? Json.str? j "k").getD "k"
  let annotate := (← optional? Json.bool? j "annotate").getD false
  let (k, locals) ← build (.clauseLocals effect op params result)
  bindName kName k
  (params.zip locals).forM fun ((name, _), l) => bindName name l
  let body ← node (← j.get? "body")
  let annotations ← match j.get? "annotations" with
    | none => pure (if annotate then some (params.map (·.2)) else none)
    | some .null => pure none
    | some v => some <$> types? v
  return BodyM.clause effect op annotations k locals body

/-- A node with its parts, which `node` reads. -/
def form (node : Json → ScriptM Expr) (kind : String) (args : List Json) : ScriptM Expr := do
  match kind, args with
  | "unit", [] => build .unit
  | "bool", [b] => build (.bool (← b.bool?))
  | "i32", [n] => build (.i32 (← n.int32?))
  | "i64", [n] => build (.i64 (← n.int64?))
  | "f32", [h] => build (.f32 ⟨.ofNat (← hex? UInt32.size h)⟩)
  | "f64", [h] => build (.f64 ⟨.ofNat (← hex? UInt64.size h)⟩)
  | "var", [l] => build (.var (← findLocal l))
  | "bin", [op, x, y] => binary node (← BinOp.ofJson? op) x y
  | "add", [x, y] => binary node .add x y
  | "sub", [x, y] => binary node .sub x y
  | "mul", [x, y] => binary node .mul x y
  | "lt", [x, y] => binary node .lt x y
  | "eq", [x, y] => binary node .eq x y
  | "un", [op, x] =>
    let op ← UnaryOp.ofJson? op
    build (.unary op (← node x))
  | "call", target :: args =>
    let target ← findDef target
    build (.call target (← args.mapM node))
  | "callv", callee :: args =>
    let callee ← node callee
    build (.callValue callee (← args.mapM node))
  | "resume", [l, x] =>
    let l ← findLocal l
    build (.resume l (← node x))
  | "perform", op :: args =>
    let op ← findOp op
    build (.perform op [] (← args.mapM node))
  | "performg", op :: types :: args =>
    let op ← findOp op
    let types ← types? types
    build (.perform op types (← args.mapM node))
  | "op", [op] => build (.opValue (← findOp op))
  | "intr", [which, t] => build (.intrinsic (← Intrinsic.ofJson? which) (← ty? t))
  | "block", .arr stmts :: tail =>
    let stmts ← stmts.mapM (stmt node)
    build (.block stmts (← optionalNode node tail))
  | "assign", [l, x] =>
    let l ← findLocal l
    build (.assign l (← node x))
  | "if", c :: t :: e =>
    let c ← node c
    let t ← node t
    build (.branch c t (← optionalNode node e))
  | "loop", [x] => build (.loop (← node x))
  | "while", [c, x] =>
    let c ← node c
    build (.whileLoop c (← node x))
  | "break", [] => build .breakLoop
  | "continue", [] => build .continueLoop
  | "ret", x => build (.ret (← optionalNode node x))
  | "match", [x, .arr arms] =>
    let x ← node x
    build (.select x (← arms.mapM (arm node)))
  | "handle", body :: .arr clauses :: finalizer =>
    let body ← node body
    let clauses ← clauses.mapM (clause node)
    build (.handle body clauses (← optionalNode node finalizer))
  | "closure", [params, ret, body] =>
    let params ← typedNames? params
    let ret ← ty? ret
    let locals ← params.mapM fun (name, t) => newLocal name t
    build (.closure locals (params.map (·.2)) ret (← node body))
  | "tuple", xs => build (.tuple (← xs.mapM node))
  | "field", [x, n] =>
    let n ← n.nat32?
    build (.field (← node x) n)
  | "def", [d, t] => build (.expr (.fn (← findDef d)) (← ty? t))
  | "at", [start, stop, x] => return (← node x).withSpan ⟨← start.nat64?, ← stop.nat64?⟩
  | "ty", [t, x] => return (← node x).withTy (← ty? t)
  | _, _ => failure

/-- A node; `depth` bounds its nesting. -/
def node : (depth : Nat) → Json → ScriptM Expr
  | depth + 1, .arr (.str kind :: args) => form (node depth) kind args
  | _, _ => failure

/-- The locals and the body of a function or fragment. -/
def body (j : Json) : ScriptM Expr := do
  for (name, t) in (← optional? typedNames? j "locals").getD [] do
    let _ ← newLocal name t
  node (j.depth + 1) (← j.get? "body")

/-! ### Declarations -/

/-- A program under construction and the names of its definitions, the latest first. -/
structure Declarations where
  builder : ProgramBuilder := {}
  defs : List (String × DefId) := []

namespace Declarations

def addEffect (d : Declarations) (j : Json) : Option Declarations := do
  let name ← (← j.get? "name").str?
  let ops ← (← j.get? "ops").list? fun op => OpDecl.ofJson? (Ty.ofJson? (op.depth + 1)) op
  let (id, builder) := d.builder.effect name ops
  return ⟨builder, (name, id) :: d.defs⟩

def addFn (d : Declarations) (j : Json) : Option (DefId × Declarations) := do
  let name ← (← j.get? "name").str?
  let params ← typedNames? (← j.get? "params")
  let ret ← ty? (← j.get? "ret")
  let (id, builder) := d.builder.declareFn name params ret
  return (id, ⟨builder, (name, id) :: d.defs⟩)

def addFns (d : Declarations) : List Json → Option (List (DefId × Json) × Declarations)
  | [] => some ([], d)
  | j :: js => do
    let (id, d) ← d.addFn j
    let (rest, d) ← d.addFns js
    return ((id, j) :: rest, d)

def define (d : Declarations) (id : DefId) (j : Json) : Option Declarations := do
  let state ← d.builder.openBody? id
  let params ← typedNames? (← j.get? "params")
  let names := (params.zipIdx.map fun ((name, _), i) => (name, (⟨i⟩ : LocalId))).reverse
  let (e, s) ← (body j).run { program := d.builder.program, defs := d.defs, body := state, names }
  let b := d.builder.closeBody id e s.body
  let b := if (← optional? Json.bool? j "export").getD false then b.exportFn id else b
  match j.get? "effects" with
  | none | some .null => return { d with builder := b }
  | some row =>
    let labels ← (← row.get? "ops").list? Json.str?
    return { d with builder := b.declareEffects id labels (← (← row.get? "open").bool?) }

end Declarations

def program? (j : Json) : Option Program := do
  let .arr effects ← j.get? "effects" | none
  let .arr fns ← j.get? "fns" | none
  let d ← effects.foldlM Declarations.addEffect {}
  let (fns, d) ← d.addFns fns
  let d ← fns.foldlM (fun d (id, j) => d.define id j) d
  return d.builder.program

/-- Reads the body of a clause outside of any program; its continuation `k` takes and gives a 32-bit
integer and is the first local. -/
def fragment? (j : Json) : Option (LocalId × Expr) := do
  let (id, b) := ({} : ProgramBuilder).declareFn "f" [] .unit
  let state ← b.openBody? id
  let fill : ScriptM (LocalId × Expr) := do
    let k ← newLocal "k" (.continuation .i32 .i32)
    return (k, ← body j)
  return (← fill.run { program := b.program, defs := [], body := state }).1

end Effectful.Script
