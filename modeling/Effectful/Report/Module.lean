import Effectful.Compiler.Compile
import Effectful.Report.Analysis
import Effectful.Target.ModuleJson
/-!
# Reports on modules
-/

namespace Effectful

namespace Target

/-- The name of a function with the types of its parameters, locals and result. -/
def Function.report (f : Function) : Json :=
  .arr [.str f.name, .strs (f.params.map ValTy.text), .strs (f.locals.map ValTy.text),
    .ofOption (fun ty => .str ty.text) f.result]

/-- A module, with what some names stand for in it: a type, a function, an export. -/
def Module.report (m : Module) (names : List String) (info : Json) : Json :=
  let lookup (name : String) : Json :=
    .arr ([m.typeNamed? name, m.functionNamed? name, m.findExport? name].map (.ofOption .nat))
  .obj [("info", info), ("functions", .arr (m.functions.map Function.report)),
    ("lookups", .arr (names.map lookup)), ("module", m.toJson)]

end Target

/-- What goes with a compiled module. -/
def CompiledProgram.reportInfo (c : CompiledProgram) : Json :=
  .obj [("table", .arr (c.table.entries.map TableEntry.report)), ("warnings", .arr []),
    ("sites", .strs (c.lowered.sites.sites.map EffectSite.text))]

/-- What goes with a module that may have complaints. -/
def EmittedModule.reportInfo (m : EmittedModule) : Json :=
  .obj [("diagnostics", reportDiagnostics m.diagnostics), ("buffer", m.buffer.report)]

end Effectful
