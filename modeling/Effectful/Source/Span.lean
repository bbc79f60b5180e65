/-!
# Places in a source text

A span is a range of byte offsets.  Lines and columns count from one and are measured in bytes; an
offset behind the end of the text belongs to its last line.
-/

namespace Effectful

/-- A range of byte offsets, the end excluded. -/
structure Span where
  start : Nat := 0
  stop : Nat := 0
deriving DecidableEq, Repr, Inhabited

namespace Span

/-- The span of code that no source text shows. -/
def synthetic : Span := {}

/-- The number of bytes, unless the span ends before it starts. -/
def length? (s : Span) : Option Nat := if s.stop < s.start then none else some (s.stop - s.start)

def isEmpty (s : Span) : Bool := s.start == s.stop

/-- The least span that covers both. -/
def merge (s t : Span) : Span := ⟨min s.start t.start, max s.stop t.stop⟩

end Span

/-- The byte offsets behind each line feed among the characters from `offset` on. -/
def lineStartsFrom : (offset : Nat) → List Char → List Nat
  | _, [] => []
  | offset, c :: cs =>
    let next := offset + c.utf8Size
    if c == '\n' then next :: lineStartsFrom next cs else lineStartsFrom next cs

/-- The byte offsets at which the lines of a text start. -/
def lineStarts (source : String) : List Nat := 0 :: lineStartsFrom 0 source.toList

/-- The line and the column of a byte offset, reduced to 32 bits.  There are none if the column does
not fit 64 bits. -/
def lineColumn? (source : String) (offset : Nat) : Option (Nat × Nat) :=
  let before := (lineStarts source).filter (· ≤ offset)
  let column := offset - before.getLastD 0 + 1
  if column < UInt64.size then some (before.length % UInt32.size, column % UInt32.size) else none

end Effectful
