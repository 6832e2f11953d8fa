import Exemplar.Diagnostic.Basic
import Exemplar.Diagnostic.Code
import Exemplar.Text.Json
import Exemplar.Text.LineIndex

/-!
# Diagnostics as a report

The machine-readable form of the diagnostics of a command. Places are given
as line, column and byte offset; without the text of the source, line and
column are zero and the location is left out. Fields without a value are left
out as well.
-/

namespace Exemplar

namespace Report

def ofOrigin (origin : Origin) : Json :=
  let role := match origin.role with
    | .primary => "primary"
    | .reference => "reference"
    | .synthetic => "synthetic"
  .obj [("role", .str role), ("name", .str origin.name)]

/-- The line and column of an offset, when there is a text. -/
def place (index : Option LineIndex) (offset : Nat) : List (String × Json) :=
  let (line, column) := match index with
    | some index =>
      let p := index.position offset
      (p.line.toNat, p.column.toNat)
    | none => (0, 0)
  [("line", .num line), ("column", .num column), ("byte_offset", .num offset)]

def ofLabel (index : Option LineIndex) (label : Label) : Json :=
  .obj (("role", .str label.emphasis.text)
    :: Json.optional "message" (label.message.map .str)
    ++ [("start", .obj (place index label.span.start)),
      ("end", .obj (place index label.span.stop))])

/-- Where the main label starts, with the text of its line. -/
def location (index : LineIndex) (label : Label) : Json :=
  let p := index.position label.span.start
  .obj (place (some index) label.span.start
    ++ [("source_line", .str ((index.line? p.line).getD ""))])

def ofDiagnostic (texts : SourceTexts) (d : Diagnostic) : Json :=
  let index := (d.origin.bind texts.get?).map LineIndex.ofText
  let category := (d.code.bind CodeInfo.find?).map fun info =>
    Json.str info.category.text
  let spot := index.bind fun index => d.mainLabel?.map (location index)
  let notes := if d.notes.isEmpty then none
    else some (Json.arr (d.notes.map .str))
  .obj (("severity", .str d.severity.text)
    :: Json.optional "code" (d.code.map .str)
    ++ Json.optional "category" category
    ++ [("message", .str d.message)]
    ++ Json.optional "source" (d.origin.map ofOrigin)
    ++ Json.optional "location" spot
    ++ [("labels", .arr (d.labels.map (ofLabel index)))]
    ++ Json.optional "notes" notes
    ++ Json.optional "help" (d.help.map .str))

/-- The report on everything a command had to say. It is a success when
nothing is an error. -/
def ofDiagnostics (ds : List Diagnostic) (texts : SourceTexts)
    (command : String) : Json :=
  let errors := countSeverity ds .error
  .obj [("version", .num 1), ("command", .str command),
    ("success", .bool (errors == 0)),
    ("diagnostics", .arr (ds.map (ofDiagnostic texts))),
    ("error_count", .num errors),
    ("warning_count", .num (countSeverity ds .warning))]

end Report

end Exemplar
