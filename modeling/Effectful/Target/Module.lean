import Effectful.Target.Instr
/-!
# Modules

A module holds record types, functions, imports from the host and exports to it, named sections of
bytes, and the size of its linear memory.  Types, functions and imports are known by their positions.
A record type may extend another one, whose fields it repeats first.
-/

namespace Effectful.Target

structure FieldTy where
  name : String
  ty : ValTy
  mutable : Bool := false
deriving DecidableEq, Inhabited

structure StructTy where
  name : String
  supertype : Option Nat
  fields : List FieldTy
deriving DecidableEq, Inhabited

/-- A function; its parameters are its first locals. -/
structure Function where
  name : String
  params : List ValTy
  locals : List ValTy
  result : Option ValTy
  body : List Instr
deriving Inhabited

structure HostImport where
  module : String
  name : String
  params : List ValTy
  result : Option ValTy
deriving DecidableEq, Inhabited

/-- A name under which the host may call a function. -/
structure HostExport where
  name : String
  func : Nat
deriving DecidableEq, Inhabited

structure Section where
  name : String
  data : List UInt8
deriving DecidableEq, Inhabited

structure Module where
  types : List StructTy := []
  imports : List HostImport := []
  functions : List Function := []
  exports : List HostExport := []
  sections : List Section := []
  memorySize : Nat := 0
deriving Inhabited

namespace Module

def typeNamed? (m : Module) (name : String) : Option Nat := m.types.findIdx? (·.name == name)

def functionNamed? (m : Module) (name : String) : Option Nat := m.functions.findIdx? (·.name == name)

/-- The function that is exported first under a name. -/
def findExport? (m : Module) (name : String) : Option Nat := (m.exports.find? (·.name == name)).map (·.func)

/-- The bytes of the first section of a name. -/
def section? (m : Module) (name : String) : Option (List UInt8) := (m.sections.find? (·.name == name)).map (·.data)

/-- Whether the type at `super` is among `sub` and the types that it extends, `bound` of them at most. -/
def extendsWithin (m : Module) (super : Nat) : (bound sub : Nat) → Bool
  | 0, sub => sub == super
  | bound + 1, sub =>
    sub == super ||
      (match (m.types[sub]?).bind (·.supertype) with
        | some next => m.extendsWithin super bound next
        | none => false)

/-- Whether a type is another one or extends it, directly or not. -/
def isSubtype (m : Module) (sub super : Nat) : Bool := m.extendsWithin super m.types.length sub

end Module

end Effectful.Target
