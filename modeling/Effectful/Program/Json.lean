import Effectful.Program.Basic
import Effectful.Json.Decode
/-!
# Programs as JSON

Records are objects by field name, cases without data are strings, cases with data are objects with
one member.  Reading takes a bound on the nesting, which every level of expressions, types and
statements lowers; `Program.ofJson?` takes the depth of the value itself, which is always enough.
-/

namespace Effectful

open Json (record? required? defaulted? missing? optional? list? case? name?)

/-! ### Writing -/

namespace Ty

mutual

def toJson : Ty → Json
  | .unit => .str "Unit"
  | .bool => .str "Bool"
  | .i32 => .str "I32"
  | .i64 => .str "I64"
  | .f32 => .str "F32"
  | .f64 => .str "F64"
  | .tuple items => .obj [("Tuple", .arr (listToJson items))]
  | .fn params ret => .obj [("Fn", .obj [("params", .arr (listToJson params)), ("ret", ret.toJson)])]
  | .continuation arg ret =>
    .obj [("Continuation", .obj [("param", arg.toJson), ("ret", ret.toJson)])]
  | .param i => .obj [("Param", .nat i)]

def listToJson : List Ty → List Json
  | [] => []
  | t :: ts => t.toJson :: listToJson ts

end

end Ty

def Span.toJson (s : Span) : Json := .obj [("start", .nat s.start), ("end", .nat s.stop)]

def OpRef.toJson (op : OpRef) : Json := .obj [("effect", .nat op.effect.index), ("index", .nat op.index)]

def ResumeKind.caseName : ResumeKind → String
  | .resume => "Resume"
  | .tail => "Tail"

def Literal.toJson : Literal → Json
  | .unit => .str "Unit"
  | .bool b => .obj [("Bool", .bool b)]
  | .int n => .obj [("Int", .int n.toInt)]
  | .float x => .obj [("Float", .real x)]

def Pattern.toJson : Pattern → Json
  | .wildcard => .str "Wildcard"
  | .binding target => .obj [("Binding", .nat target.index)]
  | .literal value => .obj [("Literal", value.toJson)]

def localsToJson (ls : List LocalId) : Json := .nats (ls.map (·.index))

mutual

def Expr.toJson : Expr → Json
  | .node id form ty span =>
    .obj [("id", .nat id.index), ("kind", form.toJson), ("ty", ty.toJson), ("span", span.toJson)]

def Form.toJson : Form → Json
  | .literal value => .obj [("Literal", value.toJson)]
  | .var source => .obj [("Local", .nat source.index)]
  | .fn target => .obj [("Def", .nat target.index)]
  | .binary op lhs rhs =>
    .obj [("Binary", .obj [("op", .str op.caseName), ("lhs", lhs.toJson), ("rhs", rhs.toJson)])]
  | .unary op operand => .obj [("Unary", .obj [("op", .str op.caseName), ("operand", operand.toJson)])]
  | .call callee args =>
    .obj [("Call", .obj [("callee", callee.toJson), ("args", .arr (exprsToJson args))])]
  | .perform op args typeArgs =>
    .obj [("Perform", .obj [("op", op.toJson), ("args", .arr (exprsToJson args)),
      ("type_args", .arr (typeArgs.map Ty.toJson))])]
  | .op op typeArgs => .obj [("Op", .obj [("op", op.toJson), ("type_args", .arr (typeArgs.map Ty.toJson))])]
  | .block stmts tail =>
    .obj [("Block", .obj [("stmts", .arr (stmtsToJson stmts)),
      ("tail", match tail with | some e => e.toJson | none => .null)])]
  | .assign target value => .obj [("Assign", .obj [("local", .nat target.index), ("value", value.toJson)])]
  | .branch cond onTrue onFalse =>
    .obj [("If", .obj [("cond", cond.toJson), ("then_branch", onTrue.toJson),
      ("else_branch", match onFalse with | some e => e.toJson | none => .null)])]
  | .select scrutinee arms =>
    .obj [("Match", .obj [("scrutinee", scrutinee.toJson), ("arms", .arr (armsToJson arms))])]
  | .loop body => .obj [("Loop", .obj [("body", body.toJson)])]
  | .whileLoop cond body => .obj [("While", .obj [("cond", cond.toJson), ("body", body.toJson)])]
  | .breakLoop => .str "Break"
  | .continueLoop => .str "Continue"
  | .ret value => .obj [("Return", match value with | some e => e.toJson | none => .null)]
  | .handle body clauses finalizer =>
    .obj [("Handle", .obj [("body", body.toJson), ("clauses", .arr (clausesToJson clauses)),
      ("finally", match finalizer with | some e => e.toJson | none => .null)])]
  | .closure params body => .obj [("Closure", .obj [("params", localsToJson params), ("body", body.toJson)])]
  | .tuple items => .obj [("Tuple", .arr (exprsToJson items))]
  | .field base index => .obj [("Field", .obj [("base", base.toJson), ("index", .nat index)])]
  | .intrinsic which => .obj [("Intrinsic", .str which.caseName)]

def exprsToJson : List Expr → List Json
  | [] => []
  | e :: es => e.toJson :: exprsToJson es

def stmtsToJson : List Stmt → List Json
  | [] => []
  | .bind target init :: ss =>
    .obj [("Let", .obj [("local", .nat target.index),
      ("init", match init with | some e => e.toJson | none => .null)])] :: stmtsToJson ss
  | .expr e :: ss => .obj [("Expr", e.toJson)] :: stmtsToJson ss

def armsToJson : List Arm → List Json
  | [] => []
  | .mk pattern body :: as =>
    .obj [("pattern", pattern.toJson), ("body", body.toJson)] :: armsToJson as

def clausesToJson : List Clause → List Json
  | [] => []
  | .mk head body :: cs =>
    .obj [("effect", .nat head.effect.index), ("op", .str head.op),
      ("annotations", .ofOption (fun ts => .arr (ts.map Ty.toJson)) head.annotations),
      ("params", localsToJson head.params), ("continuation", .nat head.continuation.index),
      ("body", body.toJson), ("span", head.span.toJson)] :: clausesToJson cs

end

def OpDecl.toJson (op : OpDecl) : Json :=
  .obj [("name", .str op.name), ("generics", .nat op.generics), ("params", .arr (op.params.map Ty.toJson)),
    ("ret", op.ret.toJson), ("kind", .str op.kind.caseName)]

def EffectDecl.toJson (e : EffectDecl) : Json :=
  .obj [("def", .nat e.id.index), ("name", .str e.name), ("ops", .arr (e.ops.map OpDecl.toJson)),
    ("span", e.span.toJson)]

def LocalDecl.toJson (l : LocalDecl) : Json := .obj [("name", .str l.name), ("ty", l.ty.toJson)]

def DeclaredRow.toJson (r : DeclaredRow) : Json := .obj [("ops", .strs r.labels), ("open", .bool r.isOpen)]

def FnDecl.toJson (f : FnDecl) : Json :=
  .obj [("def", .nat f.id.index), ("name", .str f.name), ("params", localsToJson f.params),
    ("ret", f.ret.toJson), ("locals", .arr (f.locals.map LocalDecl.toJson)), ("body", f.body.toJson),
    ("effects", .ofOption DeclaredRow.toJson f.effects), ("exported", .bool f.exported),
    ("span", f.span.toJson)]

def Program.toJson (p : Program) : Json :=
  .obj [("effects", .arr (p.effects.map EffectDecl.toJson)),
    ("functions", .arr (p.functions.map FnDecl.toJson))]

/-! ### Reading -/

/-- Finds the value with a given case name. -/
def caseNamed? {α : Type} (caseName : α → String) (values : List α) (j : Json) : Option α :=
  (name? j).bind fun name => values.find? (caseName · == name)

def BinOp.all : List BinOp := [.add, .sub, .mul, .div, .rem, .and, .or, .eq, .ne, .lt, .le, .gt, .ge]

def BinOp.ofJson? : Json → Option BinOp := caseNamed? BinOp.caseName BinOp.all

def UnaryOp.ofJson? : Json → Option UnaryOp := caseNamed? UnaryOp.caseName [.neg, .not]

def Intrinsic.ofJson? : Json → Option Intrinsic := caseNamed? Intrinsic.caseName [.abs, .min, .max]

def ResumeKind.ofJson? : Json → Option ResumeKind := caseNamed? ResumeKind.caseName [.resume, .tail]

def DefId.ofJson? (j : Json) : Option DefId := j.nat32?.map .mk

def LocalId.ofJson? (j : Json) : Option LocalId := j.nat32?.map .mk

def ExprId.ofJson? (j : Json) : Option ExprId := j.nat32?.map .mk

def Span.ofJson? (j : Json) : Option Span := do
  let [start, stop] ← j.record? [⟨"start", false⟩, ⟨"end", false⟩] | none
  return ⟨← required? Json.nat64? start, ← required? Json.nat64? stop⟩

def OpRef.ofJson? (j : Json) : Option OpRef := do
  let [effect, index] ← j.record? [⟨"effect", false⟩, ⟨"index", false⟩] | none
  return ⟨← required? DefId.ofJson? effect, ← required? Json.nat32? index⟩

/-- Reads a type with at most `depth` levels of nesting. -/
def Ty.ofJson? : (depth : Nat) → Json → Option Ty
  | 0, _ => none
  | depth + 1, j => do
    match ← case? j with
    | ("Unit", none) | ("Unit", some .null) => return .unit
    | ("Bool", none) | ("Bool", some .null) => return .bool
    | ("I32", none) | ("I32", some .null) => return .i32
    | ("I64", none) | ("I64", some .null) => return .i64
    | ("F32", none) | ("F32", some .null) => return .f32
    | ("F64", none) | ("F64", some .null) => return .f64
    | ("Tuple", some data) => return .tuple (← list? (Ty.ofJson? depth) data)
    | ("Fn", some data) =>
      let [params, ret] ← data.parts? ["params", "ret"] | none
      return .fn (← required? (list? (Ty.ofJson? depth)) params) (← required? (Ty.ofJson? depth) ret)
    | ("Continuation", some data) =>
      let [arg, ret] ← data.parts? ["param", "ret"] | none
      return .continuation (← required? (Ty.ofJson? depth) arg) (← required? (Ty.ofJson? depth) ret)
    | ("Param", some data) => return .param (← data.nat32?)
    | _ => none

def Literal.ofJson? (j : Json) : Option Literal := do
  match ← case? j with
  | ("Unit", none) | ("Unit", some .null) => return .unit
  | ("Bool", some data) => return .bool (← data.bool?)
  | ("Int", some data) => return .int (← data.int64?)
  | ("Float", some data) => return .float (← data.binary64?)
  | _ => none

def Pattern.ofJson? (j : Json) : Option Pattern := do
  match ← case? j with
  | ("Wildcard", none) | ("Wildcard", some .null) => return .wildcard
  | ("Binding", some data) => return .binding (← LocalId.ofJson? data)
  | ("Literal", some data) => return .literal (← Literal.ofJson? data)
  | _ => none

/-- The fields of a record that are all required. -/
def fields (names : List String) : List Json.Field := names.map fun name => ⟨name, false⟩

/-- Reads a statement whose expressions are read by `expr`. -/
def Stmt.ofJson? (expr : Json → Option Expr) (j : Json) : Option Stmt := do
  match ← case? j with
  | ("Let", some data) =>
    let [target, init] ← data.parts? ["local", "init"] | none
    return .bind (← required? LocalId.ofJson? target) (← missing? expr init)
  | ("Expr", some data) => return .expr (← expr data)
  | _ => none

/-- Reads an arm whose body is read by `expr`. -/
def Arm.ofJson? (expr : Json → Option Expr) (j : Json) : Option Arm := do
  let [pattern, body] ← j.record? (fields ["pattern", "body"]) | none
  return .mk (← required? Pattern.ofJson? pattern) (← required? expr body)

/-- Reads a clause whose types and body are read by `ty` and `expr`. -/
def Clause.ofJson? (ty : Json → Option Ty) (expr : Json → Option Expr) (j : Json) : Option Clause := do
  match ← j.record? (fields ["effect", "op", "annotations", "params", "continuation", "body", "span"]) with
  | [effect, op, annotations, params, continuation, body, span] =>
    let head : ClauseHead := {
      effect := ← required? DefId.ofJson? effect
      op := ← required? Json.str? op
      annotations := ← missing? (list? ty) annotations
      params := ← required? (list? LocalId.ofJson?) params
      continuation := ← required? LocalId.ofJson? continuation
      span := ← required? Span.ofJson? span }
    return .mk head (← required? expr body)
  | _ => none

/-- Reads a construct whose types and parts are read by `ty` and `expr`. -/
def Form.ofJson? (ty : Json → Option Ty) (expr : Json → Option Expr) (j : Json) : Option Form := do
  match ← case? j with
  | ("Literal", some data) => return .literal (← Literal.ofJson? data)
  | ("Local", some data) => return .var (← LocalId.ofJson? data)
  | ("Def", some data) => return .fn (← DefId.ofJson? data)
  | ("Binary", some data) =>
    let [operator, lhs, rhs] ← data.parts? ["op", "lhs", "rhs"] | none
    return .binary (← required? BinOp.ofJson? operator) (← required? expr lhs) (← required? expr rhs)
  | ("Unary", some data) =>
    let [operator, operand] ← data.parts? ["op", "operand"] | none
    return .unary (← required? UnaryOp.ofJson? operator) (← required? expr operand)
  | ("Call", some data) =>
    let [callee, args] ← data.parts? ["callee", "args"] | none
    return .call (← required? expr callee) (← required? (list? expr) args)
  | ("Perform", some data) =>
    let [operation, args, typeArgs] ← data.parts? ["op", "args", "type_args"] | none
    return .perform (← required? OpRef.ofJson? operation) (← required? (list? expr) args)
      (← required? (list? ty) typeArgs)
  | ("Op", some data) =>
    let [operation, typeArgs] ← data.parts? ["op", "type_args"] | none
    return .op (← required? OpRef.ofJson? operation) (← required? (list? ty) typeArgs)
  | ("Block", some data) =>
    let [stmts, tail] ← data.parts? ["stmts", "tail"] | none
    return .block (← required? (list? (Stmt.ofJson? expr)) stmts) (← missing? expr tail)
  | ("Assign", some data) =>
    let [target, value] ← data.parts? ["local", "value"] | none
    return .assign (← required? LocalId.ofJson? target) (← required? expr value)
  | ("If", some data) =>
    let [cond, onTrue, onFalse] ← data.parts? ["cond", "then_branch", "else_branch"] | none
    return .branch (← required? expr cond) (← required? expr onTrue) (← missing? expr onFalse)
  | ("Match", some data) =>
    let [scrutinee, arms] ← data.parts? ["scrutinee", "arms"] | none
    return .select (← required? expr scrutinee) (← required? (list? (Arm.ofJson? expr)) arms)
  | ("Loop", some data) =>
    let [body] ← data.parts? ["body"] | none
    return .loop (← required? expr body)
  | ("While", some data) =>
    let [cond, body] ← data.parts? ["cond", "body"] | none
    return .whileLoop (← required? expr cond) (← required? expr body)
  | ("Break", none) | ("Break", some .null) => return .breakLoop
  | ("Continue", none) | ("Continue", some .null) => return .continueLoop
  | ("Return", some data) => return .ret (← optional? expr data)
  | ("Handle", some data) =>
    let [body, clauses, finalizer] ← data.parts? ["body", "clauses", "finally"] | none
    return .handle (← required? expr body) (← required? (list? (Clause.ofJson? ty expr)) clauses)
      (← missing? expr finalizer)
  | ("Closure", some data) =>
    let [params, body] ← data.parts? ["params", "body"] | none
    return .closure (← required? (list? LocalId.ofJson?) params) (← required? expr body)
  | ("Tuple", some data) => return .tuple (← list? expr data)
  | ("Field", some data) =>
    let [base, index] ← data.parts? ["base", "index"] | none
    return .field (← required? expr base) (← required? Json.nat32? index)
  | ("Intrinsic", some data) => return .intrinsic (← Intrinsic.ofJson? data)
  | _ => none

/-- Reads an expression with at most `depth` levels of nesting. -/
def Expr.ofJson? : (depth : Nat) → Json → Option Expr
  | 0, _ => none
  | depth + 1, j => do
    let [id, form, ty, span] ← j.record? (fields ["id", "kind", "ty", "span"]) | none
    return .node (← required? ExprId.ofJson? id)
      (← required? (Form.ofJson? (Ty.ofJson? depth) (Expr.ofJson? depth)) form)
      (← required? (Ty.ofJson? depth) ty) (← required? Span.ofJson? span)

def OpDecl.ofJson? (ty : Json → Option Ty) (j : Json) : Option OpDecl := do
  match ← j.record? [⟨"name", false⟩, ⟨"generics", true⟩, ⟨"params", false⟩, ⟨"ret", false⟩, ⟨"kind", false⟩] with
  | [name, generics, params, ret, kind] =>
    return {
      name := ← required? Json.str? name
      generics := ← defaulted? 0 Json.nat32? generics
      params := ← required? (list? ty) params
      ret := ← required? ty ret
      kind := ← required? ResumeKind.ofJson? kind }
  | _ => none

def EffectDecl.ofJson? (ty : Json → Option Ty) (j : Json) : Option EffectDecl := do
  let [id, name, ops, span] ← j.record? [⟨"def", false⟩, ⟨"name", false⟩, ⟨"ops", false⟩, ⟨"span", true⟩] | none
  return {
    id := ← required? DefId.ofJson? id
    name := ← required? Json.str? name
    ops := ← required? (list? (OpDecl.ofJson? ty)) ops
    span := ← defaulted? {} Span.ofJson? span }

def LocalDecl.ofJson? (ty : Json → Option Ty) (j : Json) : Option LocalDecl := do
  let [name, t] ← j.record? (fields ["name", "ty"]) | none
  return ⟨← required? Json.str? name, ← required? ty t⟩

def DeclaredRow.ofJson? (j : Json) : Option DeclaredRow := do
  let [labels, isOpen] ← j.record? [⟨"ops", false⟩, ⟨"open", true⟩] | none
  return ⟨← required? (list? Json.str?) labels, ← defaulted? false Json.bool? isOpen⟩

def FnDecl.ofJson? (ty : Json → Option Ty) (expr : Json → Option Expr) (j : Json) : Option FnDecl := do
  match ← j.record? [⟨"def", false⟩, ⟨"name", false⟩, ⟨"params", false⟩, ⟨"ret", false⟩, ⟨"locals", false⟩,
      ⟨"body", false⟩, ⟨"effects", true⟩, ⟨"exported", true⟩, ⟨"span", true⟩] with
  | [id, name, params, ret, locals, body, effects, exported, span] =>
    return {
      id := ← required? DefId.ofJson? id
      name := ← required? Json.str? name
      params := ← required? (list? LocalId.ofJson?) params
      ret := ← required? ty ret
      locals := ← required? (list? (LocalDecl.ofJson? ty)) locals
      body := ← required? expr body
      effects := ← missing? DeclaredRow.ofJson? effects
      exported := ← defaulted? false Json.bool? exported
      span := ← defaulted? {} Span.ofJson? span }
  | _ => none

def Program.ofJson? (j : Json) : Option Program := do
  let depth := j.depth + 1
  let ty := Ty.ofJson? depth
  let [effects, functions] ← j.record? (fields ["effects", "functions"]) | none
  return {
    effects := ← required? (list? (EffectDecl.ofJson? ty)) effects
    functions := ← required? (list? (FnDecl.ofJson? ty (Expr.ofJson? depth))) functions }

/-- The cases of types, expressions and statements that have named parts, with the parts in order. -/
def Program.caseParts : List (String × List String) :=
  [("Fn", ["params", "ret"]), ("Continuation", ["param", "ret"]), ("Let", ["local", "init"]),
    ("Binary", ["op", "lhs", "rhs"]), ("Unary", ["op", "operand"]), ("Call", ["callee", "args"]),
    ("Perform", ["op", "args", "type_args"]), ("Op", ["op", "type_args"]), ("Block", ["stmts", "tail"]),
    ("Assign", ["local", "value"]), ("If", ["cond", "then_branch", "else_branch"]),
    ("Match", ["scrutinee", "arms"]), ("Loop", ["body"]), ("While", ["cond", "body"]),
    ("Handle", ["body", "clauses", "finally"]), ("Closure", ["params", "body"]), ("Field", ["base", "index"])]

end Effectful
