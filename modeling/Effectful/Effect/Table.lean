import Effectful.Effect.ResumeKind
import Effectful.Hash.Blake3
/-!
# Effect tables

A compiled module carries a table of the operations it may request; the place of an operation there
is its ordinal.  In bytes a table is a header with a version and a count, then 28 bytes for each
entry, then the texts that entries refer to by their offsets, each ended by a zero byte.  A text that
occurs again is stored once.

Effects are identified by a hash of their name, operations by a hash of their signature.
-/

namespace Effectful

/-- The identifier of an effect: the first eight bytes of the hash of its name. -/
def effectIdHash (name : String) : Nat := ofLittleEndian ((Blake3.hash (utf8 name)).take 8)

/-- The hash of a signature: the first four bytes of the hash of its text. -/
def signatureHash (signature : String) : Nat := ofLittleEndian ((Blake3.hash (utf8 signature)).take 4)

structure TableEntry where
  effectId : Nat
  effectName : String
  opId : Nat
  kind : ResumeKind
  signatureHash : Nat
  /-- The operation as `Effect.op`. -/
  label : String
deriving DecidableEq, Repr, Inhabited

inductive TableError where
  | truncated (needed available : Nat)
  | unsupportedVersion (version : Nat)
  | badOffset (entry offset : Nat)
  | invalidUtf8 (entry : Nat)
  | unknownResumeKind (entry kind : Nat)
  | effectIdMismatch (entry : Nat)
deriving DecidableEq, Repr

namespace EffectTable

def sectionName : String := "rill.effects"

def version : Nat := 2

def headerSize : Nat := 8

def entrySize : Nat := 28

end EffectTable

def TableError.message : TableError → String
  | .truncated needed available => s!"effect table truncated: need {needed} bytes, have {available}"
  | .unsupportedVersion version =>
    s!"unsupported effect table version {version} (expected {EffectTable.version})"
  | .badOffset entry offset => s!"bad string offset {offset} in entry {entry}"
  | .invalidUtf8 entry => s!"entry {entry} references a string that is not valid UTF-8"
  | .unknownResumeKind entry kind => s!"entry {entry} has unknown resume kind {kind}"
  | .effectIdMismatch entry => s!"entry {entry}: effect id does not match its effect name"

/-- An effect table; the position of an entry is its ordinal. -/
structure EffectTable where
  entries : List TableEntry := []
deriving DecidableEq, Inhabited

namespace EffectTable

def push (t : EffectTable) (e : TableEntry) : EffectTable := ⟨t.entries ++ [e]⟩

def get? (t : EffectTable) (ordinal : Nat) : Option TableEntry := t.entries[ordinal]?

/-- The ordinal of the first entry for an operation. -/
def find? (t : EffectTable) (effectId opId : Nat) : Option Nat :=
  t.entries.findIdx? fun e => e.effectId == effectId && e.opId == opId

/-! ### Encoding -/

/-- The texts of a table: the bytes so far and where each text starts. -/
structure Texts where
  blob : List UInt8 := []
  offsets : List (String × Nat) := []

/-- The offset of a text, which is added unless it is there. -/
def Texts.place (t : Texts) (s : String) : Nat × Texts :=
  match t.offsets.lookup s with
  | some offset => (offset, t)
  | none => (t.blob.length, ⟨t.blob ++ utf8 s ++ [0], (s, t.blob.length) :: t.offsets⟩)

def entryBytes (e : TableEntry) (nameOffset labelOffset : Nat) : List UInt8 :=
  littleEndian 8 e.effectId ++ littleEndian 4 nameOffset ++ littleEndian 4 e.opId
    ++ littleEndian 4 e.kind.code ++ littleEndian 4 e.signatureHash ++ littleEndian 4 labelOffset

/-- The bytes of entries, and their texts behind those that are placed already. -/
def encodeEntries : Texts → List TableEntry → List UInt8 × Texts
  | texts, [] => ([], texts)
  | texts, e :: es =>
    let (nameOffset, texts) := texts.place e.effectName
    let (labelOffset, texts) := texts.place e.label
    let (rest, texts) := encodeEntries texts es
    (entryBytes e nameOffset labelOffset ++ rest, texts)

def encode (t : EffectTable) : List UInt8 :=
  let (entries, texts) := encodeEntries {} t.entries
  littleEndian 4 version ++ littleEndian 4 t.entries.length ++ entries ++ texts.blob

/-! ### Decoding -/

/-- The text at an offset of the blob, up to its zero byte. -/
def readText (blob : List UInt8) (entry offset : Nat) : Except TableError String :=
  let bytes := (blob.drop offset).takeWhile (· != 0)
  if blob.length ≤ offset + bytes.length then .error (.badOffset entry offset)
  else match ofUtf8? bytes with
    | some s => .ok s
    | none => .error (.invalidUtf8 entry)

def decodeEntry (blob : List UInt8) (index : Nat) (bytes : List UInt8) : Except TableError TableEntry := do
  let word (at_ count : Nat) := ofLittleEndian ((bytes.drop at_).take count)
  let effectId := word 0 8
  let code := word 16 4
  match ResumeKind.ofCode? code with
  | none => .error (.unknownResumeKind index code)
  | some kind =>
    let effectName ← readText blob index (word 8 4)
    let label ← readText blob index (word 24 4)
    if effectId = effectIdHash effectName then
      return { effectId, effectName, opId := word 12 4, kind, signatureHash := word 20 4, label }
    else .error (.effectIdMismatch index)

/-- Reads `count` entries, the first of which has the given index. -/
def decodeEntries (blob : List UInt8) : (index count : Nat) → List UInt8 → Except TableError (List TableEntry)
  | _, 0, _ => .ok []
  | index, count + 1, bytes => do
    let e ← decodeEntry blob index (bytes.take entrySize)
    return e :: (← decodeEntries blob (index + 1) count (bytes.drop entrySize))

def decode (bytes : List UInt8) : Except TableError EffectTable := do
  if bytes.length < headerSize then .error (.truncated headerSize bytes.length)
  let found := ofLittleEndian (bytes.take 4)
  if found ≠ version then .error (.unsupportedVersion found)
  let count := ofLittleEndian ((bytes.drop 4).take 4)
  let blobStart := headerSize + count * entrySize
  if bytes.length < blobStart then .error (.truncated blobStart bytes.length)
  return ⟨← decodeEntries (bytes.drop blobStart) 0 count (bytes.drop headerSize)⟩

end EffectTable

end Effectful
