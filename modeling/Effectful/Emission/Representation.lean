import Effectful.Program.Basic
import Effectful.Target.Module
/-!
# How programs are represented in the target

Unit, booleans and 32-bit integers are 32-bit integers of the target, the other scalars are what they
are, and a continuation is the outcome that carries it.  Between units a scalar travels as its 64 bits.

Four record types stand at the start of every module:

* an *environment* remembers where a unit was suspended: the number of the site, the environment of
  the callee, and in its extensions the saved locals;
* an *outcome* is what an effectful unit gives, and starts with a status;
* a *value outcome*, with status `0`, has the tag and the bits of the value;
* an *effect outcome*, with status `1`, describes a request, with the environment to go on from and a
  count of its resumptions.
-/

namespace Effectful

open Target

/-! ### Types and values -/

namespace Ty

def valTy : Ty → ValTy
  | .unit | .bool | .i32 => .i32
  | .i64 => .i64
  | .f32 => .f32
  | .f64 => .f64
  | .continuation _ _ => .ref (some 1)
  | .tuple _ | .fn _ _ | .param _ => .ref none

def numTy (t : Ty) : NumTy :=
  match t.valTy with
  | .i64 => .i64
  | .f32 => .f32
  | .f64 => .f64
  | .i32 | .ref _ => .i32

/-- Turns a value of the type into its 64 bits, if it is a scalar. -/
def box? (t : Ty) (value : Instr) : Option Instr :=
  match t with
  | .unit | .bool | .i32 => some (.convert .extendI32U value)
  | .i64 => some value
  | .f32 => some (.convert .extendI32U (.convert .f32ToBits value))
  | .f64 => some (.convert .f64ToBits value)
  | _ => none

/-- Turns 64 bits back into a value of the type, if it is a scalar. -/
def unbox? (t : Ty) (bits : Instr) : Option Instr :=
  match t with
  | .unit | .bool | .i32 => some (.convert .wrapI64 bits)
  | .i64 => some bits
  | .f32 => some (.convert .f32FromBits (.convert .wrapI64 bits))
  | .f64 => some (.convert .f64FromBits bits)
  | _ => none

end Ty

def Target.Instr.nat (n : Nat) : Instr := .i32Const (.ofNat n)

def Literal.compile (ty : Ty) : Literal → Instr
  | .unit => .nat 0
  | .bool b => .nat (if b then 1 else 0)
  | .int n =>
    match ty with
    | .i64 => .i64Const n
    | .f32 => .f32Const (.ofInt n.toInt)
    | .f64 => .f64Const (.ofInt n.toInt)
    | _ => .i32Const n.toInt32
  | .float x =>
    match ty with
    | .f32 => .f32Const x.narrow
    | _ => .f64Const x

/-- What a parameter of a type is given when its value does not matter. -/
def Target.ValTy.filler : ValTy → Instr
  | .i32 => .i32Const 0
  | .i64 => .i64Const 0
  | .f32 => .f32Const .zero
  | .f64 => .f64Const .zero
  | .ref _ => .refNull

def BinOp.compile : BinOp → Target.BinOp
  | .add => .add
  | .sub => .sub
  | .mul => .mul
  | .div => .div
  | .rem => .rem
  | .and => .and
  | .or => .or
  | .eq => .eq
  | .ne => .ne
  | .lt => .lt
  | .le => .le
  | .gt => .gt
  | .ge => .ge

/-- A unary operator on a value of a type; `not` is a test for zero. -/
def UnaryOp.compile (op : UnaryOp) (ty : Ty) (value : Instr) : Instr :=
  match op with
  | .neg => .unary .neg ty.numTy value
  | .not => .eqz value

/-- A test whether a number lies between two bounds; it is evaluated twice. -/
def Target.Instr.within (value : Instr) (low high : Nat) : Instr :=
  .binary .and .i32 (.binary .ge .i32 value (.nat low)) (.binary .le .i32 value (.nat high))

/-! ### Records -/

/-- The record types of every module. -/
inductive Record where
  | env
  | outcome
  | value
  | effect
deriving DecidableEq, Repr

def Record.index : Record → Nat
  | .env => 0
  | .outcome => 1
  | .value => 2
  | .effect => 3

def Record.ref (r : Record) : ValTy := .ref (some r.index)

/-- The fields that environments start with. -/
def envHeader : List FieldTy := [⟨"site", .i32, false⟩, ⟨"handler", .ref none, false⟩]

def recordTypes : List StructTy :=
  let status : FieldTy := ⟨"status", .i32, false⟩
  [{ name := "$env", supertype := none, fields := envHeader },
    { name := "$outcome", supertype := none, fields := [status] },
    { name := "$outcome.value", supertype := some Record.outcome.index
      fields := [status, ⟨"tag", .i32, false⟩, ⟨"bits", .i64, false⟩] },
    { name := "$outcome.effect", supertype := some Record.outcome.index
      fields := [status, ⟨"ordinal", .i32, false⟩, ⟨"effect_id", .i64, false⟩, ⟨"op_id", .i32, false⟩,
        ⟨"kind", .i32, false⟩, ⟨"args", .ref none, false⟩, ⟨"env", Record.env.ref, false⟩,
        ⟨"count", .i32, true⟩] }]

/-- The fields of an effect outcome behind its status. -/
inductive EffectPart where
  | ordinal
  | effectId
  | opId
  | kind
  | args
  | env
  | count
deriving DecidableEq, Repr

def EffectPart.index : EffectPart → Nat
  | .ordinal => 1
  | .effectId => 2
  | .opId => 3
  | .kind => 4
  | .args => 5
  | .env => 6
  | .count => 7

namespace Target.Instr

def status (outcome : Instr) : Instr := .structGet Record.outcome.index 0 outcome

def hasStatus (outcome : Instr) (n : Nat) : Instr := .i32Eq outcome.status (.nat n)

def valueTag (outcome : Instr) : Instr := .structGet Record.value.index 1 outcome

def valueBits (outcome : Instr) : Instr := .structGet Record.value.index 2 outcome

def effectPart (part : EffectPart) (outcome : Instr) : Instr := .structGet Record.effect.index part.index outcome

def envSite (env : Instr) : Instr := .structGet Record.env.index 0 env

/-- The callee's environment inside an environment. -/
def envHandler (env : Instr) : Instr := .structGet Record.env.index 1 env

def newValue (tag : ValueTag) (bits : Instr) : Instr := .structNew Record.value.index [.nat 0, .nat tag.code, bits]

/-- The same request with another environment. -/
def rewrapped (outcome env : Instr) : Instr :=
  .structNew Record.effect.index
    [.nat 1, outcome.effectPart .ordinal, outcome.effectPart .effectId, outcome.effectPart .opId,
      outcome.effectPart .kind, outcome.effectPart .args, env, outcome.effectPart .count]

/-- A trap if the request was resumed before, and otherwise one more resumption. -/
def countedOnce (outcome : Instr) : List Instr :=
  let count := outcome.effectPart .count
  [.ifElse (.binary .ge .i32 count (.nat 1)) [.unreachable .tailResumeExhausted] [],
    .structSet Record.effect.index EffectPart.count.index outcome (.binary .add .i32 count (.nat 1))]

end Target.Instr

def Ty.valueOutcome? (t : Ty) (value : Instr) : Option Instr := do
  let tag ← t.tag?
  let bits ← t.box? value
  return .newValue tag bits

/-- The arguments of a call that starts an effectful unit, in front of which the unit is told so. -/
def freshArgs (args : List Instr) : List Instr := .nat 1 :: .nat 0 :: .refNull :: .i64Const 0 :: args

end Effectful
