/-!
# Trap codes

Reasons for which running code stops by itself.
-/

namespace Effectful

/-- Why code stopped. -/
inductive TrapCode where
  | unreachable
  | tailResumeExhausted
  | tailResumeMissing
  | unsupportedValue
  | bufferOverflow
  | unknownSite
  | opMismatch
  | arityMismatch
deriving DecidableEq, Repr, Inhabited

namespace TrapCode

def message : TrapCode → String
  | .unreachable => "unreachable executed"
  | .tailResumeExhausted => "tail continuation resumed more than once"
  | .tailResumeMissing => "tail continuation never resumed"
  | .unsupportedValue => "value shape not supported at the boundary"
  | .bufferOverflow => "serialization buffer too small"
  | .unknownSite => "unknown continuation site"
  | .opMismatch => "continuation does not match a compiled operation"
  | .arityMismatch => "wrong number of arguments"

def caseName : TrapCode → String
  | .unreachable => "Unreachable"
  | .tailResumeExhausted => "TailResumeExhausted"
  | .tailResumeMissing => "TailResumeMissing"
  | .unsupportedValue => "UnsupportedValue"
  | .bufferOverflow => "BufferOverflow"
  | .unknownSite => "UnknownSite"
  | .opMismatch => "OpMismatch"
  | .arityMismatch => "ArityMismatch"

end TrapCode

end Effectful
