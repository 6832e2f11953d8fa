import Exemplar.Origin
import Exemplar.Text.Span

/-!
# Diagnostics

What every stage reports to the user: a message with a severity, the source
it is about, labelled spans of that source, notes, and advice.
-/

namespace Exemplar

inductive Severity where
  | error
  | warning
  | note
deriving Repr, DecidableEq

def Severity.text : Severity → String
  | .error => "error"
  | .warning => "warning"
  | .note => "note"

/-- A label marks the place of the problem or a place related to it. -/
inductive Emphasis where
  | primary
  | secondary
deriving Repr, DecidableEq

def Emphasis.text : Emphasis → String
  | .primary => "primary"
  | .secondary => "secondary"

structure Label where
  span : Span
  emphasis : Emphasis
  message : Option String
deriving Repr, DecidableEq

structure Diagnostic where
  severity : Severity
  code : Option String
  message : String
  /-- The source the labels point into. -/
  origin : Option Origin
  labels : List Label
  notes : List String
  help : Option String
deriving Repr, DecidableEq

namespace Diagnostic

/-- A diagnostic with a code and nothing else but its message. -/
def coded (severity : Severity) (code message : String) : Diagnostic :=
  ⟨severity, some code, message, none, [], [], none⟩

def about (d : Diagnostic) (origin : Origin) : Diagnostic :=
  { d with origin := some origin }

def labelled (d : Diagnostic) (emphasis : Emphasis) (span : Span)
    (message : String) :
    Diagnostic :=
  { d with labels := d.labels ++ [⟨span, emphasis, some message⟩] }

def primary (d : Diagnostic) (span : Span) (message : String) : Diagnostic :=
  d.labelled .primary span message

def secondary (d : Diagnostic) (span : Span) (message : String) : Diagnostic :=
  d.labelled .secondary span message

def noted (d : Diagnostic) (note : String) : Diagnostic :=
  { d with notes := d.notes ++ [note] }

def advised (d : Diagnostic) (help : Option String) : Diagnostic :=
  { d with help := help }

def isError (d : Diagnostic) : Bool := d.severity == .error

/-- The label that says where the problem is: the first primary one, or the
first one when none is primary. -/
def mainLabel? (d : Diagnostic) : Option Label :=
  (d.labels.find? fun l => l.emphasis == .primary).or d.labels.head?

end Diagnostic

def hasErrors (ds : List Diagnostic) : Bool := ds.any Diagnostic.isError

def countSeverity (ds : List Diagnostic) (severity : Severity) : Nat :=
  ds.countP fun d => d.severity == severity

/-- There are errors exactly when their number is not zero. -/
theorem hasErrors_eq_false_iff (ds : List Diagnostic) :
    hasErrors ds = false ↔ countSeverity ds .error = 0 := by
  simp [hasErrors, countSeverity, Diagnostic.isError, List.countP_eq_zero]

/-! ## Source texts -/

/-- The texts diagnostics point into, by origin; each origin once. -/
abbrev SourceTexts := List (Origin × String)

namespace SourceTexts

/-- Add a text, or replace the one there is. -/
def insert (texts : SourceTexts) (origin : Origin) (text : String) :
    SourceTexts :=
  match texts with
  | [] => [(origin, text)]
  | (o, t) :: rest =>
    if o = origin then (origin, text) :: rest
    else (o, t) :: insert rest origin text

def insertAll (texts : SourceTexts) (more : List (Origin × String)) :
    SourceTexts :=
  more.foldl (fun texts (origin, text) => insert texts origin text) texts

def get? (texts : SourceTexts) (origin : Origin) : Option String :=
  List.lookup origin texts

theorem get?_insert_self (texts : SourceTexts) (origin : Origin)
    (text : String) :
    get? (insert texts origin text) origin = some text := by
  induction texts with
  | nil => simp [insert, get?]
  | cons p rest ih =>
    obtain ⟨o, t⟩ := p
    by_cases h : o = origin
    · simp [insert, get?, h]
    · have h' : (origin == o) = false := by simpa using fun e => h e.symm
      simp only [get?] at ih
      simp [insert, get?, h, List.lookup_cons, h', ih]

end SourceTexts

end Exemplar
