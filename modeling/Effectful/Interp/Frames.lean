import Effectful.Assoc
import Effectful.Interp.Value
/-!
# Frames of locals

Every call, closure call and clause has a frame for its locals.  The frame of a closure or a clause
has a parent, in which locals are looked up that the frame does not bind.

A frame is used again once its call is over, unless something that outlives the call can reach it: a
suspended request, a closure or a continuation.  Such frames are pinned together with their
ancestors, and pinned frames stay for good.  Without `recycle`, frames are never used again.
-/

namespace Effectful.Interp

structure Frame where
  locals : List (LocalId × Value) := []
  parent : Option FrameId := none
  /-- Whether the frame must stay. -/
  pinned : Bool := false
deriving Inhabited

/-- All frames, and those among them that are free. -/
structure Frames where
  cells : Array Frame := #[]
  free : List FrameId := []
deriving Inhabited

namespace Frames

def inUse (fs : Frames) : Nat := fs.cells.size - fs.free.length

/-- A frame without locals. -/
def push (fs : Frames) (recycle : Bool) (parent : Option FrameId) : FrameId × Frames :=
  match recycle, fs.free with
  | true, id :: rest =>
    (id, { cells := fs.cells.modify id.index ({ · with parent, pinned := false }), free := rest })
  | _, _ => (⟨fs.cells.size⟩, { fs with cells := fs.cells.push { parent } })

/-- Pins a frame and its ancestors up to the first that is pinned; `bound` limits their number. -/
def pinFrom : (bound : Nat) → Option FrameId → Array Frame → Array Frame
  | 0, _, cells => cells
  | _, none, cells => cells
  | bound + 1, some id, cells =>
    match cells[id.index]? with
    | none => cells
    | some f =>
      if f.pinned then cells
      else pinFrom bound f.parent (cells.setIfInBounds id.index { f with pinned := true })

/-- Keeps a frame and its ancestors for good. -/
def pin (fs : Frames) (id : FrameId) : Frames :=
  { fs with cells := pinFrom fs.cells.size (some id) fs.cells }

/-- Gives back the frame of a call that is over, unless it is pinned. -/
def release (fs : Frames) (id : FrameId) : Frames :=
  match fs.cells[id.index]? with
  | none => fs
  | some f => if f.pinned then fs else { cells := fs.cells.setIfInBounds id.index {}, free := id :: fs.free }

/-- The first frame from the given one upwards that binds a local; `bound` limits their number. -/
def ownerFrom (cells : Array Frame) (source : LocalId) : (bound : Nat) → Option FrameId → Option (FrameId × Value)
  | 0, _ => none
  | _, none => none
  | bound + 1, some id =>
    match cells[id.index]? with
    | none => none
    | some f =>
      match Assoc.get? f.locals source with
      | some v => some (id, v)
      | none => ownerFrom cells source bound f.parent

/-- The frame that binds a local, as seen from a frame, and its value. -/
def owner? (fs : Frames) (id : FrameId) (source : LocalId) : Option (FrameId × Value) :=
  ownerFrom fs.cells source fs.cells.size (some id)

def read? (fs : Frames) (id : FrameId) (source : LocalId) : Option Value := (fs.owner? id source).map (·.2)

def define (fs : Frames) (id : FrameId) (target : LocalId) (v : Value) : Frames :=
  { fs with cells := fs.cells.modify id.index fun f => { f with locals := Assoc.set f.locals target v } }

/-- Binds locals to values in order, as far as there are both. -/
def defineAll (fs : Frames) (id : FrameId) (targets : List LocalId) (vs : List Value) : Frames :=
  (targets.zip vs).foldl (fun fs (target, v) => fs.define id target v) fs

/-- Assigns a local in the frame that binds it, or else in the given one. -/
def assign (fs : Frames) (id : FrameId) (target : LocalId) (v : Value) : Frames :=
  fs.define (((fs.owner? id target).map (·.1)).getD id) target v

end Frames

end Effectful.Interp
