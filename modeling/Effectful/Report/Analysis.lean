import Effectful.Compiler.Check
import Effectful.Program.LocalSet
import Effectful.Report.Wire
/-!
# Reports on effect analysis
-/

namespace Effectful

def Span.report (s : Span) : Json := .nats [s.start, s.stop]

def Diagnostic.report (d : Diagnostic) : Json :=
  let code := d.problem.code
  .obj [("kind", .str "Error"), ("code", .str code.text), ("slug", .str code.slug), ("text", .str d.text),
    ("span", d.span.report), ("labels", .nat 0), ("suggestions", .strs code.help?.toList)]

def reportDiagnostics (ds : List Diagnostic) : Json := .arr (ds.map Diagnostic.report)

def OpRef.report (op : OpRef) : Json := .nats [op.effect.index, op.index]

def reportLocals (ls : List LocalId) : Json := .nats (ls.map (·.index))

def reportTypes (ts : List Ty) : Json := .strs (ts.map Ty.text)

/-! ### Rows and usage -/

def RowOp.report (op : RowOp) : Json := .arr [.str op.label, .nat op.effect.index, op.kind.report]

def Escape.report : Escape → Json
  | .none => .str "None"
  | .captured => .str "Captured"
  | .leaked => .str "Leaked"

def Enforcement.report : Enforcement → Json
  | .static => .str "Static"
  | .runtime => .str "Runtime"

def Usage.report (u : Usage) : Json :=
  .obj [("min", .nat u.count.least), ("max", .str u.count.mostText), ("escape", u.escape.report),
    ("text", .str u.count.text), ("escapes", .bool u.escapes), ("once", .bool u.isExactlyOnce),
    ("enforcement", u.enforcement.report)]

/-! ### Programs -/

/-- The walks, free locals and names of a function. -/
def FnDecl.report (f : FnDecl) : Json :=
  let ids (es : List Expr) : Json := .nats (es.map (·.id.index))
  .obj [("walk", ids f.body.walk), ("post", ids f.body.walkPost), ("performs", .bool f.body.containsPerform),
    ("literal", .bool f.body.isLiteral), ("params", reportTypes f.paramTys),
    ("free", reportLocals f.body.freeLocals),
    ("names", .strs ((List.range (f.locals.length + 1)).map fun i => f.localName ⟨i⟩))]

/-- What a program knows of an operation. -/
def Program.reportOp (p : Program) (op : OpRef) : Json :=
  let known := do return (← p.effect? op.effect, ← p.op? op)
  .obj [("label", .str (p.opLabel op)), ("position", .ofOption .nat (p.effectPosition? op.effect)),
    ("signature", .ofOption (fun (e, d) => .str (d.signature e.name)) known),
    ("overloads", .ofOption (fun (e, d) => .nats ((e.opsNamed d.name).map (·.1))) known)]

/-! ### Analysis -/

def ContinuationTy.report (c : ContinuationTy) : Json :=
  .obj [("param", .str c.param.text), ("ret", .str c.ret.text), ("row", .str c.row.text)]

def ClausePlan.report (c : ClausePlan) : Json :=
  .obj [("op", c.op.report), ("label", .str c.label), ("kind", c.kind.report), ("params", reportTypes c.params),
    ("type_args", reportTypes c.typeArgs), ("cont", c.continuation.report),
    ("usage", .ofOption Usage.report c.usage), ("enforcement", .ofOption Enforcement.report c.enforcement),
    ("guard", .bool c.needsGuard)]

def HandlerPlan.report (h : HandlerPlan) : Json :=
  .obj [("handle", .nat h.handle.index), ("body_row", .str h.bodyRow.text),
    ("continuation_row", .str h.continuationRow.text), ("result_row", .str h.resultRow.text),
    ("clauses", .arr (h.clauses.map (.ofOption ClausePlan.report)))]

/-- The rows of a program's functions, the plans of its handlers by their ids, and the diagnostics. -/
def EffectAnalysis.report (a : EffectAnalysis) (p : Program) : Json :=
  let function (f : FnDecl) : Json :=
    let row := a.functionRow f.id
    .obj [("def", .nat f.id.index), ("name", .str f.name), ("row", .str row.text),
      ("effectful", .bool (a.isEffectful f.id)), ("open", .bool row.isOpen)]
  let handlers := a.handlers.mergeSort fun x y => decide (x.1.index ≤ y.1.index)
  .obj [("fns", .arr (p.functions.map function)), ("handlers", .arr (handlers.map (·.2.report))),
    ("diagnostics", reportDiagnostics a.diagnostics), ("errors", .bool a.hasErrors)]

/-! ### Metadata -/

def EffectMetadata.report (m : EffectMetadata) : Json :=
  let ordinal (o : OpOrdinal) : Json :=
    .obj [("ordinal", .nat o.ordinal), ("op", o.op.report), ("label", .str o.label), ("effect", .str o.effectName),
      ("effect_id", .str (Hex.word 16 o.effectId)), ("op_id", .nat o.opId), ("kind", o.kind.report),
      ("signature", .str o.signature), ("sig", .str (Hex.word 8 o.tableEntry.signatureHash)),
      ("params", reportTypes o.decl.params), ("ret", .str o.decl.ret.text),
      ("lookup", .ofOption (fun o => .nat o.ordinal) (m.ordinalOf? o.op))]
  let function (f : FunctionSummary) : Json :=
    .obj [("def", .nat f.id.index), ("name", .str f.name), ("pure", .bool f.isPure), ("open", .bool f.row.isOpen),
      ("exported", .bool f.exported), ("is_pure", .bool (m.isPure f.id)),
      ("raises", .arr (f.row.ops.map RowOp.report))]
  .obj [("ops", .nat m.ordinals.length), ("ordinals", .arr (m.ordinals.map ordinal)),
    ("fns", .arr (m.functions.map function)), ("table", .str (Hex.ofBytes m.table.encode))]

end Effectful
