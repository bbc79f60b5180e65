/-!
# How an operation may be resumed

Every operation of an effect fixes the discipline of its continuations.
-/

namespace Effectful

/-- The resumption discipline of an operation. -/
inductive ResumeKind where
  /-- The continuation may be called any number of times. -/
  | resume
  /-- The continuation must be called exactly once, in tail position. -/
  | tail
deriving DecidableEq, Repr, Inhabited, Hashable

namespace ResumeKind

def text : ResumeKind → String
  | .resume => "resume"
  | .tail => "tail"

/-- The number that stands for a kind in tables and envelopes. -/
def code : ResumeKind → Nat
  | .resume => 0
  | .tail => 1

def ofCode? : Nat → Option ResumeKind
  | 0 => some .resume
  | 1 => some .tail
  | _ => none

@[simp]
theorem ofCode?_code (k : ResumeKind) : ofCode? k.code = some k := by cases k <;> rfl

end ResumeKind

end Effectful
