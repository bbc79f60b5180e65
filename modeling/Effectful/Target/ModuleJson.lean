import Effectful.Json.Decode
import Effectful.Target.Module
/-!
# Modules as JSON

The same conventions as for programs: records are objects by field name, cases are strings or objects
with one member.  A case with several parts without names is a list.
-/

namespace Effectful.Target

open Json (record? required? missing? optional? list? case? name? nat32?)

/-! ### Names of cases -/

def named? {α : Type} (values : List (String × α)) (j : Json) : Option α := (name? j).bind fun name => values.lookup name

def NumTy.names : List (String × NumTy) := [("I32", .i32), ("I64", .i64), ("F32", .f32), ("F64", .f64)]

def BinOp.names : List (String × BinOp) :=
  [.add, .sub, .mul, .div, .rem, .and, .or, .xor, .eq, .ne, .lt, .le, .gt, .ge].map fun op => (op.caseName, op)

def UnOp.names : List (String × UnOp) := [("Neg", .neg), ("Eqz", .eqz)]

def Conversion.names : List (String × Conversion) :=
  [("WrapI64", .wrapI64), ("ExtendI32S", .extendI32S), ("ExtendI32U", .extendI32U), ("F32FromBits", .f32FromBits),
    ("F32ToBits", .f32ToBits), ("F64FromBits", .f64FromBits), ("F64ToBits", .f64ToBits)]

def trapNames : List (String × TrapCode) :=
  [.unreachable, .tailResumeExhausted, .tailResumeMissing, .unsupportedValue, .bufferOverflow, .unknownSite,
    .opMismatch, .arityMismatch].map fun code => (code.caseName, code)

def nameIn {α : Type} [BEq α] (values : List (String × α)) (a : α) : Json :=
  .ofOption (fun (name, _) => .str name) (values.find? (·.2 == a))

/-! ### Writing -/

def ValTy.toJson : ValTy → Json
  | .i32 => .str "I32"
  | .i64 => .str "I64"
  | .f32 => .str "F32"
  | .f64 => .str "F64"
  | .ref target => .obj [("Ref", .ofOption .nat target)]

mutual

def Instr.toJson : Instr → Json
  | .i32Const n => .obj [("I32Const", .int n.toInt)]
  | .i64Const n => .obj [("I64Const", .int n.toInt)]
  | .f32Const x => .obj [("F32Const", .single x)]
  | .f64Const x => .obj [("F64Const", .real x)]
  | .refNull => .str "RefNull"
  | .localGet index => .obj [("LocalGet", .nat index)]
  | .localSet index value => .obj [("LocalSet", .arr [.nat index, value.toJson])]
  | .binary op ty lhs rhs =>
    .obj [("Binary", .arr [nameIn BinOp.names op, nameIn NumTy.names ty, lhs.toJson, rhs.toJson])]
  | .unary op ty operand => .obj [("Unary", .arr [nameIn UnOp.names op, nameIn NumTy.names ty, operand.toJson])]
  | .convert op operand => .obj [("Convert", .arr [nameIn Conversion.names op, operand.toJson])]
  | .block label body => .obj [("Block", .obj [("label", .nat label.index), ("body", .arr (listToJson body))])]
  | .loop label body => .obj [("Loop", .obj [("label", .nat label.index), ("body", .arr (listToJson body))])]
  | .ifElse cond onTrue onFalse =>
    .obj [("If", .obj [("cond", cond.toJson), ("then", .arr (listToJson onTrue)),
      ("else_", .arr (listToJson onFalse))])]
  | .br label value =>
    .obj [("Br", .obj [("label", .nat label.index),
      ("value", match value with | some v => v.toJson | none => .null)])]
  | .ret value => .obj [("Return", match value with | some v => v.toJson | none => .null)]
  | .unreachable code => .obj [("Unreachable", .str code.caseName)]
  | .drop value => .obj [("Drop", value.toJson)]
  | .call func args => .obj [("Call", .obj [("func", .nat func), ("args", .arr (listToJson args))])]
  | .callImport target args =>
    .obj [("CallImport", .obj [("import", .nat target), ("args", .arr (listToJson args))])]
  | .structNew ty fields => .obj [("StructNew", .obj [("ty", .nat ty), ("fields", .arr (listToJson fields))])]
  | .structGet ty field obj =>
    .obj [("StructGet", .obj [("ty", .nat ty), ("field", .nat field), ("obj", obj.toJson)])]
  | .structSet ty field obj value =>
    .obj [("StructSet", .obj [("ty", .nat ty), ("field", .nat field), ("obj", obj.toJson), ("value", value.toJson)])]
  | .refIsNull value => .obj [("RefIsNull", value.toJson)]
  | .arrayNew items => .obj [("ArrayNew", .arr (listToJson items))]
  | .arrayGet array index => .obj [("ArrayGet", .obj [("array", array.toJson), ("index", index.toJson)])]
  | .arrayLen array => .obj [("ArrayLen", array.toJson)]
  | .memLoad32 addr => .obj [("MemLoad32", addr.toJson)]
  | .memStore32 addr value => .obj [("MemStore32", .obj [("addr", addr.toJson), ("value", value.toJson)])]
  | .memLoad64 addr => .obj [("MemLoad64", addr.toJson)]
  | .memStore64 addr value => .obj [("MemStore64", .obj [("addr", addr.toJson), ("value", value.toJson)])]

def listToJson : List Instr → List Json
  | [] => []
  | i :: is => i.toJson :: listToJson is

end

def StructTy.toJson (t : StructTy) : Json :=
  let field (f : FieldTy) : Json := .obj [("name", .str f.name), ("ty", f.ty.toJson), ("mutable", .bool f.mutable)]
  .obj [("name", .str t.name), ("supertype", .ofOption .nat t.supertype), ("fields", .arr (t.fields.map field))]

def HostImport.toJson (i : HostImport) : Json :=
  .obj [("module", .str i.module), ("name", .str i.name), ("params", .arr (i.params.map ValTy.toJson)),
    ("result", .ofOption ValTy.toJson i.result)]

def Function.toJson (f : Function) : Json :=
  .obj [("name", .str f.name), ("params", .arr (f.params.map ValTy.toJson)),
    ("locals", .arr (f.locals.map ValTy.toJson)), ("result", .ofOption ValTy.toJson f.result),
    ("body", .arr (listToJson f.body))]

def Module.toJson (m : Module) : Json :=
  .obj [("types", .arr (m.types.map StructTy.toJson)), ("imports", .arr (m.imports.map HostImport.toJson)),
    ("functions", .arr (m.functions.map Function.toJson)),
    ("exports", .arr (m.exports.map fun e => .obj [("name", .str e.name), ("func", .nat e.func)])),
    ("custom_sections", .arr (m.sections.map fun s =>
      .obj [("name", .str s.name), ("data", .nats (s.data.map UInt8.toNat))])),
    ("memory_size", .nat m.memorySize)]

/-! ### Reading -/

def ValTy.ofJson? (j : Json) : Option ValTy := do
  match ← case? j with
  | ("Ref", some target) => return .ref (← optional? nat32? target)
  | _ =>
    match ← named? NumTy.names j with
    | .i32 => return .i32
    | .i64 => return .i64
    | .f32 => return .f32
    | .f64 => return .f64

/-- The fields of a record none of which may be left out at its end. -/
def places (names : List String) : List Json.Field := names.map (⟨·, false⟩)

def Label.ofJson? (j : Json) : Option Label := do return ⟨← j.nat32?⟩

/-- Reads an instruction whose parts are read by `instr`. -/
def Instr.partsOfJson? (instr : Json → Option Instr) (j : Json) : Option Instr := do
  let code := list? instr
  match ← case? j with
  | ("I32Const", some n) => return .i32Const (← n.int32?)
  | ("I64Const", some n) => return .i64Const (← n.int64?)
  | ("F32Const", some x) => return .f32Const (← x.binary32?)
  | ("F64Const", some x) => return .f64Const (← x.binary64?)
  | ("RefNull", none) | ("RefNull", some .null) => return .refNull
  | ("LocalGet", some index) => return .localGet (← index.nat32?)
  | ("LocalSet", some (.arr [index, value])) => return .localSet (← index.nat32?) (← instr value)
  | ("Binary", some (.arr [op, ty, lhs, rhs])) =>
    return .binary (← named? BinOp.names op) (← named? NumTy.names ty) (← instr lhs) (← instr rhs)
  | ("Unary", some (.arr [op, ty, operand])) =>
    return .unary (← named? UnOp.names op) (← named? NumTy.names ty) (← instr operand)
  | ("Convert", some (.arr [op, operand])) => return .convert (← named? Conversion.names op) (← instr operand)
  | ("Block", some data) =>
    let [label, body] ← data.parts? ["label", "body"] | none
    return .block (← required? Label.ofJson? label) (← required? code body)
  | ("Loop", some data) =>
    let [label, body] ← data.parts? ["label", "body"] | none
    return .loop (← required? Label.ofJson? label) (← required? code body)
  | ("If", some data) =>
    let [cond, onTrue, onFalse] ← data.parts? ["cond", "then", "else_"] | none
    return .ifElse (← required? instr cond) (← required? code onTrue) (← required? code onFalse)
  | ("Br", some data) =>
    let [label, value] ← data.parts? ["label", "value"] | none
    return .br (← required? Label.ofJson? label) (← missing? instr value)
  | ("Return", some value) => return .ret (← optional? instr value)
  | ("Unreachable", some trap) => return .unreachable (← named? trapNames trap)
  | ("Drop", some value) => return .drop (← instr value)
  | ("Call", some data) =>
    let [func, args] ← data.parts? ["func", "args"] | none
    return .call (← required? nat32? func) (← required? code args)
  | ("CallImport", some data) =>
    let [target, args] ← data.parts? ["import", "args"] | none
    return .callImport (← required? nat32? target) (← required? code args)
  | ("StructNew", some data) =>
    let [ty, fields] ← data.parts? ["ty", "fields"] | none
    return .structNew (← required? nat32? ty) (← required? code fields)
  | ("StructGet", some data) =>
    let [ty, field, obj] ← data.parts? ["ty", "field", "obj"] | none
    return .structGet (← required? nat32? ty) (← required? nat32? field) (← required? instr obj)
  | ("StructSet", some data) =>
    let [ty, field, obj, value] ← data.parts? ["ty", "field", "obj", "value"] | none
    return .structSet (← required? nat32? ty) (← required? nat32? field) (← required? instr obj)
      (← required? instr value)
  | ("RefIsNull", some value) => return .refIsNull (← instr value)
  | ("ArrayNew", some items) => return .arrayNew (← code items)
  | ("ArrayGet", some data) =>
    let [array, index] ← data.parts? ["array", "index"] | none
    return .arrayGet (← required? instr array) (← required? instr index)
  | ("ArrayLen", some array) => return .arrayLen (← instr array)
  | ("MemLoad32", some addr) => return .memLoad32 (← instr addr)
  | ("MemStore32", some data) =>
    let [addr, value] ← data.parts? ["addr", "value"] | none
    return .memStore32 (← required? instr addr) (← required? instr value)
  | ("MemLoad64", some addr) => return .memLoad64 (← instr addr)
  | ("MemStore64", some data) =>
    let [addr, value] ← data.parts? ["addr", "value"] | none
    return .memStore64 (← required? instr addr) (← required? instr value)
  | _ => none

/-- Reads an instruction with at most `depth` levels of nesting. -/
def Instr.ofJson? : (depth : Nat) → Json → Option Instr
  | 0, _ => none
  | depth + 1, j => Instr.partsOfJson? (Instr.ofJson? depth) j

def FieldTy.ofJson? (j : Json) : Option FieldTy := do
  let [name, ty, mutable] ← j.record? (places ["name", "ty", "mutable"]) | none
  return ⟨← required? Json.str? name, ← required? ValTy.ofJson? ty, ← required? Json.bool? mutable⟩

def StructTy.ofJson? (j : Json) : Option StructTy := do
  let [name, supertype, fields] ← j.record? (places ["name", "supertype", "fields"]) | none
  return ⟨← required? Json.str? name, ← missing? nat32? supertype, ← required? (list? FieldTy.ofJson?) fields⟩

def HostImport.ofJson? (j : Json) : Option HostImport := do
  let [module, name, params, result] ← j.record? (places ["module", "name", "params", "result"]) | none
  return ⟨← required? Json.str? module, ← required? Json.str? name, ← required? (list? ValTy.ofJson?) params,
    ← missing? ValTy.ofJson? result⟩

def Function.ofJson? (instr : Json → Option Instr) (j : Json) : Option Function := do
  let [name, params, locals, result, body] ← j.record? (places ["name", "params", "locals", "result", "body"]) | none
  return ⟨← required? Json.str? name, ← required? (list? ValTy.ofJson?) params,
    ← required? (list? ValTy.ofJson?) locals, ← missing? ValTy.ofJson? result, ← required? (list? instr) body⟩

def HostExport.ofJson? (j : Json) : Option HostExport := do
  let [name, func] ← j.record? (places ["name", "func"]) | none
  return ⟨← required? Json.str? name, ← required? nat32? func⟩

def byte? (j : Json) : Option UInt8 := (j.int? 0 255).map fun n => .ofNat n.toNat

def Section.ofJson? (j : Json) : Option Section := do
  let [name, data] ← j.record? (places ["name", "data"]) | none
  return ⟨← required? Json.str? name, ← required? (list? byte?) data⟩

def Module.ofJson? (j : Json) : Option Module := do
  let instr := Instr.ofJson? (j.depth + 1)
  match ← j.record? (places
      ["types", "imports", "functions", "exports", "custom_sections", "memory_size"]) with
  | [types, imports, functions, exports, sections, memorySize] =>
    return {
      types := ← required? (list? StructTy.ofJson?) types
      imports := ← required? (list? HostImport.ofJson?) imports
      functions := ← required? (list? (Function.ofJson? instr)) functions
      exports := ← required? (list? HostExport.ofJson?) exports
      sections := ← required? (list? Section.ofJson?) sections
      memorySize := ← required? Json.nat64? memorySize }
  | _ => none

end Effectful.Target
