import Effectful.Effect.Table
import Effectful.Interp.Step
/-!
# Running programs

A call runs until it ends with a value or an operation reaches the host.  The host may resume a
suspended call, any number of times for a `resume` operation and once for a `tail` operation.
`Setting.run` answers every request until the call ends.

Programs need not terminate, so everything here takes fuel and gives `none` when it is used up.
-/

namespace Effectful.Interp

/-- An operation that reached the host. -/
structure Request where
  effectName : String
  op : OpRef
  label : String
  kind : ResumeKind
  args : List Value
  suspension : SuspensionId
deriving Inhabited

/-- The hash by which the host knows the effect. -/
def Request.effectId (r : Request) : Nat := effectIdHash r.effectName

/-- The position of the operation in its effect. -/
def Request.opId (r : Request) : Nat := r.op.index

/-- How a call or a resumption ends. -/
inductive Outcome where
  | value (v : Value)
  | request (r : Request)
deriving Inhabited

/-- A result together with the store that it leaves behind. -/
structure After (α : Type) where
  result : Except EvalError α
  store : Store

namespace Setting

/-- What the end of a computation means to the host. -/
def outcome (s : Setting) (c : Control) (store : Store) : After Outcome :=
  match c with
  | .value v | .exit (.ret v) | .exit (.transfer _ v) => ⟨.ok (.value v), store⟩
  | .exit .breakLoop | .exit .continueLoop => ⟨.error .strayExit, store⟩
  | .request op args rest =>
    match s.program.effect? op.effect, s.program.op? op with
    | none, _ => ⟨.error (.typeMismatch (.unknownEffect op.effect)), store⟩
    | some _, none => ⟨.error (.typeMismatch (.unknownOp (s.program.opLabel op))), store⟩
    | some effect, some decl =>
      let request := {
        op, args
        effectName := effect.name
        label := s.program.opLabel op
        kind := decl.kind
        suspension := ⟨store.suspensions.size⟩ }
      ⟨.ok (.request request),
        { store with suspensions := store.suspensions.push { rest, kind := decl.kind } }⟩
  | .eval _ _ => ⟨.error (.trap .unreachable), store⟩

/-- Steps until the computation ends. -/
def settle (s : Setting) : (fuel : Nat) → Step → Option (After Outcome)
  | 0, _ => none
  | _, .fail e store => some ⟨.error e, store⟩
  | _, .done c store => some (s.outcome c store)
  | fuel + 1, .next st => s.settle fuel (s.step st)

def startCall (s : Setting) (store : Store) (name : String) (args : List Value) : Step :=
  match s.program.functionNamed? name with
  | some f => s.callFn f.id args [] store
  | none => .fail (.unknownFunction name) store

def startResume (store : Store) (id : SuspensionId) (v : Value) : Step :=
  match store.suspensions[id.index]? with
  | none => .fail (.trap .unreachable) store
  | some k =>
    if k.kind = .tail ∧ 1 ≤ k.resumed then .fail (.trap .tailResumeExhausted) store
    else .of (.value v) (k.rest.reverseAux []) { store with
      suspensions := store.suspensions.setIfInBounds id.index { k with resumed := k.resumed + 1 } }

def call (s : Setting) (fuel : Nat) (store : Store) (name : String) (args : List Value) : Option (After Outcome) :=
  s.settle fuel (s.startCall store name args)

def resume (s : Setting) (fuel : Nat) (store : Store) (id : SuspensionId) (v : Value) : Option (After Outcome) :=
  s.settle fuel (startResume store id v)

/-- Answers requests until the call ends.  The host has a state of its own; `answered` counts the
requests so far, and `limit` bounds them unless it is zero. -/
def answer (s : Setting) {σ : Type} (host : σ → Request → Except EvalError Value × σ) (limit : Nat) :
    (fuel answered : Nat) → σ → After Outcome → Option (After Value × σ)
  | 0, _, _, _ => none
  | fuel + 1, answered, state, ⟨result, store⟩ =>
    match result with
    | .error e => some (⟨.error e, store⟩, state)
    | .ok (.value v) => some (⟨.ok v, store⟩, state)
    | .ok (.request r) =>
      if limit ≠ 0 ∧ limit ≤ answered then some (⟨.error (.stepLimit limit), store⟩, state)
      else
        match host state r with
        | (.error e, state) => some (⟨.error e, store⟩, state)
        | (.ok v, state) => do s.answer host limit fuel (answered + 1) state (← s.resume fuel store r.suspension v)

/-- Calls a function by name and answers its requests. -/
def run (s : Setting) {σ : Type} (host : σ → Request → Except EvalError Value × σ) (limit fuel : Nat) (state : σ)
    (store : Store) (name : String) (args : List Value) : Option (After Value × σ) := do
  s.answer host limit fuel 0 state (← s.call fuel store name args)

end Setting

end Effectful.Interp
