import Exemplar.Text.Chars

/-!
# Lines and columns

A `LineIndex` is a text cut at its newlines. It turns a byte offset into a
line and a column, both counted from one, and gives back the text of a line.
A newline belongs to the line it ends.

Lines and columns are 32-bit: they wrap for texts of four gigabytes and for
offsets that far beyond the end of a text.
-/

namespace Exemplar

/-- A line and a column, both counted from one. -/
structure Position where
  line : UInt32
  column : UInt32
deriving Repr, DecidableEq

/-- The lines of a text, without their newlines. There is always one. -/
structure LineIndex where
  lines : List String
deriving Repr, DecidableEq

namespace LineIndex

/-- Cut a text at its newlines. -/
def ofText (text : String) : LineIndex :=
  ⟨(Chars.splitOn '\n' text.toList).map String.ofList⟩

/-- Where each line starts when the first one starts at `offset`. -/
def startsFrom (offset : Nat) : List String → List Nat
  | [] => []
  | line :: rest => offset :: startsFrom (offset + line.utf8ByteSize + 1) rest

/-- The byte offset at which each line starts. -/
def starts (index : LineIndex) : List Nat := startsFrom 0 index.lines

def count (index : LineIndex) : UInt32 := index.lines.length.toUInt32

/-- The lines that start at or before `offset`, as their offsets. -/
def startsUpTo (index : LineIndex) (offset : Nat) : List Nat :=
  index.starts.takeWhile (· ≤ offset)

/-- The position of a byte offset. An offset beyond the end of the text is on
the last line. -/
def position (index : LineIndex) (offset : Nat) : Position :=
  let begun := index.startsUpTo offset
  ⟨(max begun.length 1).toUInt32,
    (offset - begun.getLast?.getD 0 + 1).toUInt32⟩

/-- The text of a line, without its newline. -/
def line? (index : LineIndex) (line : UInt32) : Option String :=
  if line = 0 then none else index.lines[line.toNat - 1]?

end LineIndex

end Exemplar
