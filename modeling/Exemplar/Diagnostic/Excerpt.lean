import Exemplar.Diagnostic.Basic
import Exemplar.Text.LineIndex
import Exemplar.Text.Rich

/-!
# Diagnostics as text

A diagnostic is shown as a header, an excerpt of the source with the labels
underlined, and a footer of notes and advice:

```text
error[E0300]: `Add` expects 2 arguments, found 1
  --> main.vl:4:15
    |
  4 |     let sum = Add(1);
    |               ^^^^^^ expected 2
    = help: ...
```

Labels are grouped by the line they start on. A label that goes on past its
line is underlined to the end of that line, and every label is underlined by
at least one mark. Marks are painted primary ones first, so where labels
overlap the secondary mark shows.
-/

namespace Exemplar

def Emphasis.style : Emphasis → Style
  | .primary => .boldColour .red
  | .secondary => .colour .blue

def Emphasis.glyph : Emphasis → Char
  | .primary => '^'
  | .secondary => '-'

def Severity.style : Severity → Style
  | .error => .boldColour .red
  | .warning => .boldColour .yellow
  | .note => .boldColour .blue

/-- One underlined stretch of a line: columns from `first`, counted from one,
up to but not including `past`. -/
structure Underline where
  first : Nat
  past : Nat
  emphasis : Emphasis
  message : Option String
deriving Repr, DecidableEq

/-- A line of the source with what is underlined in it. -/
structure ExcerptLine where
  number : Nat
  text : String
  underlines : List Underline
deriving Repr, DecidableEq

namespace ExcerptLine

/-- Add an underline to the line with the given number, in lines that stand
in increasing order. -/
def insert (number : Nat) (text : String) (u : Underline) :
    List ExcerptLine → List ExcerptLine
  | [] => [⟨number, text, [u]⟩]
  | line :: rest =>
    if number = line.number then
      { line with underlines := line.underlines ++ [u] } :: rest
    else if number < line.number then ⟨number, text, [u]⟩ :: line :: rest
    else line :: insert number text u rest

/-- The line a label starts on, and its underline there; none for a label
that starts beyond the end of the text. -/
def ofLabel? (source : String) (index : LineIndex) (label : Label) :
    Option (Nat × String × Underline) :=
  let size := source.utf8ByteSize
  if size < label.span.start then none
  else
    let start := index.position label.span.start
    let stop := index.position (min label.span.stop size)
    let text := (index.line? start.line).getD ""
    let past := if stop.line = start.line then stop.column.toNat
      else text.utf8ByteSize + 1
    let first := start.column.toNat
    some (start.line.toNat, text,
      ⟨first, max past (first + 1), label.emphasis, label.message⟩)

/-- The lines the labels start on, in order. -/
def ofLabels (source : String) (labels : List Label) : List ExcerptLine :=
  let index := LineIndex.ofText source
  (labels.filterMap (ofLabel? source index)).foldl
    (fun lines (number, text, u) => insert number text u lines) []

/-! ## The row of marks -/

/-- Primary underlines first, then by column; equal ones keep their order. -/
def paintedBefore (a b : Underline) : Bool :=
  match a.emphasis, b.emphasis with
  | .primary, .secondary => true
  | .secondary, .primary => false
  | _, _ => a.first ≤ b.first

def painted (line : ExcerptLine) : List Underline :=
  line.underlines.mergeSort paintedBefore

/-- A row of marks: for each column, what marks it. -/
abbrev Row := List (Option Emphasis)

/-- Paint an underline over a row whose first column has the given number. -/
def paint (u : Underline) (column : Nat) : Row → Row
  | [] => []
  | cell :: cells =>
    (if u.first ≤ column ∧ column < u.past then some u.emphasis else cell)
      :: paint u (column + 1) cells

/-- The row of marks under a line, which reaches ten columns past its end. -/
def fullRow (line : ExcerptLine) : Row :=
  line.painted.foldl (fun row u => paint u 1 row)
    (List.replicate (line.text.utf8ByteSize + 10) none)

/-- The row of marks without the blanks at its end. -/
def row (line : ExcerptLine) : Row :=
  (line.fullRow.reverse.dropWhile Option.isNone).reverse

def runs : Row → List (Option Emphasis × Nat)
  | [] => []
  | cell :: cells =>
    match runs cells with
    | (mark, n) :: rest =>
      if mark = cell then (mark, n + 1) :: rest
      else (cell, 1) :: (mark, n) :: rest
    | [] => [(cell, 1)]

def richRun : Option Emphasis × Nat → Piece
  | (none, n) => ⟨none, String.ofList (List.replicate n ' ')⟩
  | (some e, n) => ⟨some e.style, String.ofList (List.replicate n e.glyph)⟩

def richRow (cells : Row) : Rich := (runs cells).map richRun

/-! ## Lines of an excerpt -/

def blanks (n : Nat) : String := String.ofList (List.replicate n ' ')

/-- The left margin of rows without a line number. -/
def bar (gutter : Nat) : Rich :=
  .raw (blanks (gutter + 1) ++ " ") ++ .styled (.colour .blue) "|"

/-- The messages under a line: where each is hung, and its text. -/
def messages (line : ExcerptLine) : List (Nat × Emphasis × String) :=
  line.painted.filterMap fun u => u.message.map fun m =>
    (u.past - 1, u.emphasis, m)

/-- A message on a row of its own, hung under the last mark of its label. -/
def hanging (gutter : Nat) : Nat × Emphasis × String → Rich
  | (column, emphasis, message) =>
    bar gutter ++ .raw (" " ++ blanks (column - 1))
      ++ .styled emphasis.style "|"
      ++ .raw " " ++ .styled emphasis.style message ++ .raw "\n"

/-- The rows under a line: the marks, with the message beside them when there
is only one, and all messages below, last one first, when there are more. -/
def richUnderlines (gutter : Nat) (line : ExcerptLine) : Rich :=
  match line.row, line.messages with
  | [], _ => []
  | cells, [] => bar gutter ++ .raw " " ++ richRow cells ++ .raw "\n"
  | cells, [(_, emphasis, message)] =>
    bar gutter ++ .raw " " ++ richRow cells ++ .raw " "
      ++ .styled emphasis.style message ++ .raw "\n"
  | cells, messages =>
    bar gutter ++ .raw " " ++ richRow cells ++ .raw "\n"
      ++ messages.reverse.flatMap (hanging gutter)

/-- A number with blanks before it, up to a width. -/
def padded (width n : Nat) : String :=
  let digits := Nat.repr n
  blanks (width - digits.length) ++ digits

/-- A line with its number and the rows under it. -/
def rich (gutter : Nat) (line : ExcerptLine) : Rich :=
  .styled (.boldColour .blue) (padded (gutter + 1) line.number) ++ .raw " "
    ++ .styled (.colour .blue) "|" ++ .raw (" " ++ line.text ++ "\n")
    ++ line.richUnderlines gutter

/-- The dots that stand for lines left out. -/
def dots (gutter : Nat) : Rich :=
  .raw (blanks gutter ++ " ") ++ .styled (.colour .blue) "..." ++ .raw "\n"

/-- Lines after the one with number `previous`, with dots for lines left out
between them. -/
def richAfter (gutter previous : Nat) : List ExcerptLine → Rich
  | [] => []
  | line :: rest =>
    (if previous + 1 < line.number then dots gutter else [])
      ++ line.rich gutter ++ richAfter gutter line.number rest

def richAll (gutter : Nat) : List ExcerptLine → Rich
  | [] => []
  | line :: rest => line.rich gutter ++ richAfter gutter line.number rest

/-- The width of the margin: that of the last line number, and at least two. -/
def gutterOf (lines : List ExcerptLine) : Nat :=
  max (Nat.repr ((lines.getLast?.map ExcerptLine.number).getD 1)).length 2

end ExcerptLine

namespace Diagnostic

open ExcerptLine

/-- The first line: severity, code and message. -/
def header (d : Diagnostic) : Rich :=
  let code := match d.code with
    | some code => .raw "[" ++ .styled (.boldColour .red) code ++ .raw "]: "
    | none => .raw ": "
  .styled d.severity.style d.severity.text ++ code ++ .styled .bold d.message
    ++ .raw "\n"

def footerLine (kind text : String) : Rich :=
  .raw "    " ++ .styled (.colour .cyan) "=" ++ .raw " "
    ++ .styled (.boldColour .cyan) kind
    ++ .raw (": " ++ text ++ "\n")

/-- The last lines: notes and advice. -/
def footer (d : Diagnostic) : Rich :=
  d.notes.flatMap (footerLine "note") ++ d.help.toList.flatMap
    (footerLine "help")

/-- The line that says where to look. -/
def pointer (place : String) : Rich :=
  .raw "  " ++ .styled (.colour .blue) "-->" ++ .raw (" " ++ place ++ "\n")

/-- The place and the lines the labels are about; nothing when no label starts
in the text. The place is that of the first label. -/
def excerpt (d : Diagnostic) (name source : String) : Rich :=
  match d.labels.head?, ofLabels source d.labels with
  | none, _ | _, [] => []
  | some label, lines =>
    let spot := (LineIndex.ofText source).position label.span.start
    let place := name ++ ":" ++ Nat.repr spot.line.toNat ++ ":"
      ++ Nat.repr spot.column.toNat
    let gutter := gutterOf lines
    pointer place ++ bar gutter ++ .raw "\n" ++ richAll gutter lines

/-- The diagnostic about a text with the given name. -/
def richIn (d : Diagnostic) (name source : String) : Rich :=
  d.header ++ d.excerpt name source ++ d.footer

/-- The diagnostic about a text without a name. -/
def richUnnamed (d : Diagnostic) (source : String) : Rich :=
  d.richIn "<source>" source

/-- The diagnostic about whichever text it points into. When that text is not
at hand, only its name is shown. -/
def rich (d : Diagnostic) (texts : SourceTexts) : Rich :=
  match d.origin with
  | none => d.header ++ d.footer
  | some origin =>
    match texts.get? origin with
    | some source => d.richIn origin.text source
    | none => d.header ++ pointer origin.text ++ d.footer

end Diagnostic

end Exemplar
