import Exemplar.Docs.Fences
import Exemplar.Tree.Declaration

/-!
# Sections of documentation

Documentation is a summary followed by sections, each under a heading
`# Title`. Deeper headings belong to the section they stand in, and a heading
inside fenced code is ordinary text.
-/

namespace Exemplar

/-- What stands under a heading. -/
structure Section where
  title : String
  lines : List String
deriving Repr, DecidableEq

def Section.text (s : Section) : String := String.intercalate "\n" s.lines

/-- Documentation as a summary and sections. -/
structure Sections where
  opening : List String
  sections : List Section
deriving Repr, DecidableEq

namespace Sections

/-- The title in a heading line: one `#`, a blank, and some text. -/
def heading? (line : String) : Option String :=
  match Chars.trimStart line.toList with
  | '#' :: c :: rest =>
    let title := Chars.trim rest
    if Chars.isBlank c ∧ title ≠ [] then some (String.ofList title) else none
  | _ => none

/-- Fenced code opens or closes on this line and is left that way. -/
def togglesFence (line : String) : Bool := Fences.count line.toList % 2 == 1

/-- The lines up to the next heading, and the sections from there on.
`fenced` says whether the lines start inside fenced code. -/
def split : Bool → List String → List String × List Section
  | _, [] => ([], [])
  | fenced, line :: rest =>
    match if fenced then none else heading? line with
    | some title =>
      let (lines, sections) := split false rest
      ([], ⟨title, lines⟩ :: sections)
    | none =>
      let (lines, sections) := split (fenced != togglesFence line) rest
      (line :: lines, sections)

def ofDoc (doc : Doc) : Sections :=
  let (opening, sections) := split false doc
  ⟨opening, sections⟩

/-- What stands before the first heading, without blanks around it. -/
def summary (s : Sections) : String :=
  Chars.trimmed (String.intercalate "\n" s.opening)

/-- The first section with the given title, in any case of its letters. -/
def find? (s : Sections) (title : String) : Option Section :=
  s.sections.find? fun sec => Chars.equalIgnoringCase sec.title title

/-- The text of the section `Example`, or else of the section `Examples`. -/
def exampleText (s : Sections) : String :=
  match (s.find? "Example").or (s.find? "Examples") with
  | some sec => sec.text
  | none => ""

end Sections

end Exemplar
