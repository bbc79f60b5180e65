import Effectful.Effect.Table
import Effectful.Text.Hex
/-!
# Keys of host handlers

A host registers a handler under the number it gave an operation or under a name.  Several names fit
an operation; `HandlerKey.candidates` lists them with the most specific first, and the first one that
is registered is used.
-/

namespace Effectful

/-- What a handler is registered under. -/
inductive HandlerKey where
  | handle (number : Nat)
  | name (text : String)
deriving DecidableEq, Repr, Inhabited

namespace HandlerKey

def text : HandlerKey → String
  | .handle number => s!"#{number}"
  | .name text => text

/-- All keys that fit an operation with this table entry and handle, most specific first. -/
def candidates (e : TableEntry) (handle : Nat) : List HandlerKey :=
  let effect := Hex.word 16 e.effectId
  let kind := toString e.kind.code
  let op := toString e.opId
  [.handle handle,
    .name (effect ++ ":" ++ op ++ ":" ++ kind ++ ":" ++ Hex.word 8 e.signatureHash),
    .name (effect ++ ":" ++ op ++ ":" ++ kind),
    .name (effect ++ ":" ++ op),
    .name (e.effectName ++ ":" ++ op ++ ":" ++ kind),
    .name (e.effectName ++ ":" ++ op),
    .name e.label]

/-- The first of some keys that is registered. -/
def resolve? (registered : List HandlerKey) (keys : List HandlerKey) : Option HandlerKey :=
  keys.find? registered.contains

end HandlerKey

end Effectful
