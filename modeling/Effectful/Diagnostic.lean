import Effectful.Analysis.Usage
import Effectful.Program.Basic
/-!
# Diagnostics

What the compiler reports about a program.  A problem is a cause; its code, its wording and its
advice follow from the cause.  Every problem is an error.
-/

namespace Effectful

/-- The class of a problem. -/
inductive DiagnosticCode where
  | unhandledEffects
  | handlerOverload
  | genericMismatch
  | tailResumeCount
  | tailResumeEscape
  | mistypedClause
  | unknownOperation
  | undeclaredEffects
  | structuralUnsupported
  | internalError
deriving DecidableEq, Repr, Inhabited

namespace DiagnosticCode

def text : DiagnosticCode → String
  | .unhandledEffects => "E0400"
  | .handlerOverload => "E0401"
  | .genericMismatch => "E0402"
  | .tailResumeCount => "E0403"
  | .tailResumeEscape => "E0404"
  | .mistypedClause => "E0405"
  | .unknownOperation => "E0406"
  | .undeclaredEffects => "E0407"
  | .structuralUnsupported => "E0408"
  | .internalError => "E0499"

/-- The class in words. -/
def slug : DiagnosticCode → String
  | .unhandledEffects => "unhandled-effects"
  | .handlerOverload => "effect-handler-overload"
  | .genericMismatch => "effect-generic-mismatch"
  | .tailResumeCount => "tail-resume-count"
  | .tailResumeEscape => "tail-resume-escape"
  | .mistypedClause => "effect-handler-annotation"
  | .unknownOperation => "effect-unknown-operation"
  | .undeclaredEffects => "undeclared-effects"
  | .structuralUnsupported => "structural-unsupported"
  | .internalError => "internal-error"

/-- What to do about it, where there is general advice. -/
def help? : DiagnosticCode → Option String
  | .unhandledEffects =>
    some "add a clause for the operation, re-raise it from a clause, or make the row open"
  | .handlerOverload => some "annotate the clause parameters with the exact types of one overload"
  | .tailResumeCount =>
    some "a tail-resumptive clause must call its continuation exactly once on every path"
  | .tailResumeEscape => some "call the continuation directly instead of passing it on"
  | .undeclaredEffects => some "add the operation to the function's effect row"
  | _ => none

end DiagnosticCode

/-- A cause for complaint. -/
inductive Problem where
  /-- An exhaustive handler lets operations through. -/
  | unhandledEffects (labels : List String)
  /-- The annotations of a clause fit none or several of the overloads. -/
  | ambiguousOverload (fitting : Nat) (label : String) (annotations : List Ty)
  /-- A generic operation is performed at different types under one clause. -/
  | genericMismatch (label : String) (instances : List (List Ty))
  | tailResumeCount (label : String) (count : CallCount)
  | tailResumeEscape (label : String)
  | annotationMismatch (label : String) (annotations : List Ty)
  | annotationMissing (label : String) (overloads : Nat)
  | clauseArity (label : String) (bound expected : Nat)
  | unknownEffect (effect : DefId)
  | unknownOperation (effectName op : String)
  /-- A function performs what its declared row does not allow. -/
  | undeclaredEffects (function : String) (labels : List String)
  /-- Code that cannot leave the function around its handler. -/
  | confinedRegion (what function : String)
  /-- A construct without compiled form. -/
  | unsupported (what unit : String)
  | uncallableExport (function : String)
  | undeclaredPerform (op : OpRef)
deriving DecidableEq, Inhabited

namespace Problem

def code : Problem → DiagnosticCode
  | .unhandledEffects _ => .unhandledEffects
  | .ambiguousOverload _ _ _ => .handlerOverload
  | .genericMismatch _ _ => .genericMismatch
  | .tailResumeCount _ _ => .tailResumeCount
  | .tailResumeEscape _ => .tailResumeEscape
  | .annotationMismatch _ _ | .annotationMissing _ _ | .clauseArity _ _ _ => .mistypedClause
  | .unknownEffect _ | .unknownOperation _ _ => .unknownOperation
  | .undeclaredEffects _ _ => .undeclaredEffects
  | .confinedRegion _ _ | .unsupported _ _ | .uncallableExport _ => .structuralUnsupported
  | .undeclaredPerform _ => .internalError

/-- Types in a row. -/
def tyList (ts : List Ty) : String := String.intercalate ", " (ts.map Ty.text)

def message : Problem → String
  | .unhandledEffects labels =>
    "handler leaves operations unhandled: " ++ String.intercalate ", " labels
  | .ambiguousOverload fitting label annotations =>
    s!"{fitting} overloads of `{label}` match (" ++ tyList annotations ++ ")"
  | .genericMismatch label instances =>
    s!"`{label}` is performed at inconsistent instantiations " ++
      String.intercalate ", " (instances.map fun ts => "<" ++ tyList ts ++ ">")
  | .tailResumeCount label count =>
    let observed := if count.isExact then "count " else "range "
    s!"tail operation `{label}` must resume exactly once; observed " ++ observed ++ count.text
  | .tailResumeEscape label => s!"the continuation of tail operation `{label}` escapes its clause"
  | .annotationMismatch label annotations =>
    "clause annotations (" ++ tyList annotations ++ s!") do not match `{label}`"
  | .annotationMissing label overloads =>
    s!"`{label}` has {overloads} overloads; the clause must annotate its parameter types"
  | .clauseArity label bound expected =>
    s!"clause for `{label}` binds {bound} parameters, the operation takes {expected}"
  | .unknownEffect effect => "clause names unknown effect " ++ effect.text
  | .unknownOperation effectName op => s!"effect `{effectName}` has no operation `{op}`"
  | .undeclaredEffects function labels =>
    s!"`{function}` performs operations outside its declared row: " ++ String.intercalate ", " labels
  | .confinedRegion what function => s!"{what} inside a handled region of `{function}`"
  | .unsupported what unit => s!"{what} is not supported by the structural backend (in `{unit}`)"
  | .uncallableExport function =>
    s!"exported function `{function}` has a signature the host cannot call"
  | .undeclaredPerform op =>
    s!"perform of undeclared operation OpRef \x7b effect: DefId({op.effect.index}), index: {op.index} \x7d"

end Problem

structure Diagnostic where
  problem : Problem
  span : Span
deriving DecidableEq, Inhabited

def Diagnostic.text (d : Diagnostic) : String :=
  let code := d.problem.code
  code.text ++ "[" ++ code.slug ++ "]: " ++ d.problem.message

end Effectful
