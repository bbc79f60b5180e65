import Effectful.Effect.Table
import Effectful.Program.Json
/-!
# Effect tables as JSON

Hashes are plain integers there.
-/

namespace Effectful

def TableEntry.toJson (e : TableEntry) : Json :=
  .obj [("effect_id", .nat e.effectId), ("effect_name", .str e.effectName), ("op_id", .nat e.opId),
    ("resume_kind", .str e.kind.caseName), ("signature_hash", .nat e.signatureHash), ("label", .str e.label)]

def EffectTable.toJson (t : EffectTable) : Json := .obj [("entries", .arr (t.entries.map TableEntry.toJson))]

end Effectful
