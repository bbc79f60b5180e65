import Effectful.Analysis.Inference
import Effectful.Effect.Table
/-!
# Numbering of operations

The operations that a program performs are numbered by the declaration order of their effects and,
within an effect, by their positions.  Compiled code, the effect table and the host refer to an
operation by this number, its ordinal.
-/

namespace Effectful

/-- An operation with its number. -/
structure OpOrdinal where
  ordinal : Nat
  op : OpRef
  label : String
  effectName : String
  /-- The hash of the effect's name. -/
  effectId : Nat
  decl : OpDecl
deriving DecidableEq, Inhabited

namespace OpOrdinal

def opId (o : OpOrdinal) : Nat := o.op.index

def kind (o : OpOrdinal) : ResumeKind := o.decl.kind

def signature (o : OpOrdinal) : String := o.decl.signature o.effectName

def tableEntry (o : OpOrdinal) : TableEntry where
  effectId := o.effectId
  effectName := o.effectName
  opId := o.opId
  kind := o.kind
  signatureHash := signatureHash o.signature
  label := o.label

end OpOrdinal

/-- The effects of a function in short. -/
structure FunctionSummary where
  id : DefId
  name : String
  row : Row
  exported : Bool
deriving DecidableEq, Inhabited

/-- Whether the function performs nothing that is known. -/
def FunctionSummary.isPure (f : FunctionSummary) : Bool := f.row.isEmpty

/-- What later stages need to know about the effects of a program. -/
structure EffectMetadata where
  ordinals : List OpOrdinal
  functions : List FunctionSummary
deriving Inhabited

/-- The operation that a construct itself performs or mentions. -/
def Form.op? : Form → Option OpRef
  | .perform operation _ _ => some operation
  | .op operation _ => some operation
  | _ => none

namespace Program

/-- The operations that occur in the bodies, each once. -/
def mentionedOps (p : Program) : List OpRef :=
  (p.functions.flatMap fun f => f.body.walk.filterMap (·.form.op?)).foldl
    (fun found op => if found.contains op then found else found ++ [op]) []

/-- Whether an operation is numbered before another or with it. -/
def opBefore (p : Program) (a b : OpRef) : Bool :=
  let place (op : OpRef) : Nat := (p.effectPosition? op.effect).getD p.effects.length
  decide (place a < place b ∨ place a = place b ∧ a.index ≤ b.index)

/-- The declared operations that the program performs, in the order of their numbers. -/
def orderedOps (p : Program) : List OpRef :=
  (p.mentionedOps.filter fun op => (p.op? op).isSome).mergeSort p.opBefore

/-- An operation under a number, if it is declared. -/
def ordinal? (p : Program) (ordinal : Nat) (op : OpRef) : Option OpOrdinal := do
  let effect ← p.effect? op.effect
  let decl ← p.op? op
  return { ordinal, op, decl, label := p.opLabel op, effectName := effect.name
           effectId := effectIdHash effect.name }

def metadata (p : Program) (a : EffectAnalysis) : EffectMetadata where
  ordinals := p.orderedOps.zipIdx.filterMap fun (op, i) => p.ordinal? i op
  functions := p.functions.map fun f =>
    { id := f.id, name := f.name, row := a.functionRow f.id, exported := f.exported }

end Program

namespace EffectMetadata

/-- The number of an operation with all that goes with it. -/
def ordinalOf? (m : EffectMetadata) (op : OpRef) : Option OpOrdinal := m.ordinals.find? (·.op == op)

def function? (m : EffectMetadata) (d : DefId) : Option FunctionSummary := m.functions.find? (·.id == d)

/-- Whether a function performs nothing; an unknown one does not. -/
def isPure (m : EffectMetadata) (d : DefId) : Bool := ((m.function? d).map (·.isPure)).getD true

def table (m : EffectMetadata) : EffectTable := ⟨m.ordinals.map (·.tableEntry)⟩

end EffectMetadata

end Effectful
