import Effectful.Assoc
import Effectful.Host.Key
import Effectful.Wire.Value
/-!
# Host handlers

A handler answers requests that reach the host.  It sees a `HandlerCall`, may have state that it
shares with other handlers, and gives a value or a message that says why it has none.
-/

namespace Effectful.Host

/-- A request as a handler sees it. -/
structure HandlerCall where
  label : String
  effectName : String
  effectId : Nat
  opId : Nat
  opIndex : Nat
  kind : ResumeKind
  signatureHash : Nat
  handle : Nat
  args : List WireValue
deriving DecidableEq, Inhabited

def HandlerCall.ofEntry (e : TableEntry) (opIndex handle : Nat) (args : List WireValue) : HandlerCall where
  label := e.label
  effectName := e.effectName
  effectId := e.effectId
  opId := e.opId
  opIndex
  kind := e.kind
  signatureHash := e.signatureHash
  handle
  args

/-- A handler whose state is a `σ`. -/
abbrev Handler (σ : Type) := σ → HandlerCall → Except String WireValue × σ

abbrev Registry (σ : Type) := List (HandlerKey × Handler σ)

namespace Registry

/-- Registers a handler, in place of one that has the same key. -/
def register {σ : Type} (r : Registry σ) (key : HandlerKey) (handler : Handler σ) : Registry σ :=
  Assoc.set r key handler

/-- The first of some keys that is registered, with its handler. -/
def resolve? {σ : Type} (r : Registry σ) (keys : List HandlerKey) : Option (Handler σ) := do
  Assoc.get? r (← HandlerKey.resolve? (r.map (·.1)) keys)

end Registry

/-! ### Fixed answers -/

/-- An answer that is known beforehand. -/
inductive Answer where
  | value (v : WireValue)
  /-- The first argument, or no value. -/
  | echo
  | fail (message : String)
deriving DecidableEq, Inhabited

def Answer.reply (call : HandlerCall) : Answer → Except String WireValue
  | .value v => .ok v
  | .echo => .ok (call.args.headD .none)
  | .fail message => .error message

/-- Answers the `n`th request of some kind, counted from zero, with the `n`th answer; the last answer
repeats. -/
def replyFrom (answers : List Answer) (n : Nat) (call : HandlerCall) : Except String WireValue :=
  match answers[min n (answers.length - 1)]? with
  | some a => a.reply call
  | none => .error s!"no answer given for `{call.label}`"

end Effectful.Host
