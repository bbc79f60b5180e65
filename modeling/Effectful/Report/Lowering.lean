import Effectful.Compiler.Lower
import Effectful.Program.Json
import Effectful.Report.Analysis
/-!
# Reports on lowered programs
-/

namespace Effectful

def LoweringUnit.report (u : LoweringUnit) : Json :=
  .obj [("name", .str u.name), ("kind", .str u.kind.text), ("owner", .nat u.owner.index),
    ("params", reportLocals u.params), ("result", .str u.result.text), ("effectful", .bool u.effectful),
    ("drive", .bool u.isDrive), ("body", u.body.toJson)]

def EffectSite.report (s : EffectSite) : Json :=
  .obj [("id", .nat s.id), ("expr", .nat s.expr.index), ("unit", .nat s.unit), ("fn", .nat s.owner.index),
    ("kind", .str s.kind.text), ("op", .ofOption OpRef.report s.op),
    ("effect", .ofOption (fun op => .nat op.effect.index) s.op),
    ("op_index", .ofOption (fun o => .nat o.ordinal) s.ordinal),
    ("resume", .ofOption (fun o => o.kind.report) s.ordinal),
    ("live", reportLocals s.liveAfter), ("args", .nats (List.range s.arity)), ("env", .str s.envName),
    ("text", .str s.text),
    ("fields", .arr (s.fields.map fun f => .strs [f.name, f.source.text, f.ty.text])),
    ("captures", .nats (s.captures.map (·.1)))]

def LiftedHandle.report (h : LiftedHandle) (id : ExprId) : Json :=
  .obj [("handle", .nat id.index), ("body_unit", .nat h.bodyUnit), ("drive_unit", .nat h.driveUnit),
    ("body_args", reportLocals h.bodyArgs), ("drive_args", reportLocals h.driveArgs)]

def UnitLayout.report (l : UnitLayout) : Json :=
  .obj [("unit", .nat l.unit), ("name", .str l.name), ("base", .str l.baseEnv), ("sites", .nats l.sites),
    ("range", .ofOption (fun (a, b) => .nats [a, b]) l.range?)]

/-- The functions in normal form, the units, the cut-out handlers by their ids, and the sites. -/
def LoweredProgram.report (l : LoweredProgram) : Json :=
  let function (f : FnDecl) : Json :=
    .obj [("name", .str f.name), ("locals", .arr (f.locals.map fun d => .strs [d.name, d.ty.text])),
      ("body", f.body.toJson)]
  let lifted := l.units.lifted.mergeSort fun x y => decide (x.1.index ≤ y.1.index)
  .obj [("fns", .arr (l.program.functions.map function)), ("units", .arr (l.units.units.map LoweringUnit.report)),
    ("lifted", .arr (lifted.map fun (id, h) => h.report id)),
    ("layouts", .arr (l.sites.layouts.map UnitLayout.report)),
    ("sites", .arr (l.sites.sites.map EffectSite.report)), ("diagnostics", reportDiagnostics l.diagnostics)]

end Effectful
