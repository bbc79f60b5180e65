import Effectful.Execution
import Effectful.Report.Machine
/-!
# Reports on runs

A failed run is named by its cause; the causes of a cause are joined to it by dots.
-/

namespace Effectful

def Host.HandlerCall.report (c : Host.HandlerCall) : Json :=
  .obj [("label", .str c.label), ("effect", .str c.effectName), ("effect_id", .str (Hex.word 16 c.effectId)),
    ("op_id", .nat c.opId), ("op_index", .nat c.opIndex), ("kind", c.kind.report),
    ("sig", .str (Hex.word 8 c.signatureHash)), ("handle", .nat c.handle), ("args", .arr (c.args.map WireValue.report))]

def Host.RunError.caseName : Host.RunError → String
  | .missingHandler _ => "MissingHandler"
  | .opMismatch _ _ => "OpMismatch"
  | .resumeKindMismatch _ _ _ => "ResumeKindMismatch"
  | .stepLimit _ => "StepLimit"
  | .handler _ _ => "Handler"
  | .badInit _ _ | .badOutcome _ | .badStatus _ => "UnexpectedResult"
  | .trap why => "Trap." ++ why.caseName
  | .wire why => "Wire." ++ why.caseName
  | .table why => "Table." ++ why.caseName
  | .memoryTooSmall => "MemoryTooSmall"
  | .memoryTooLarge => "MemoryTooLarge"
  | .outOfRounds => "OutOfRounds"

end Effectful
