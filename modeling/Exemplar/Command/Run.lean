import Exemplar.Command.Files
import Exemplar.Command.Request
import Exemplar.Diagnostic.Excerpt
import Exemplar.Diagnostic.Report
import Exemplar.Example.Pipeline
import Exemplar.Headers
import Exemplar.Toml.Document

/-!
# Running commands

Every command first compiles its files against the standard headers, and goes
on only if that gives no errors. `Command.perform` is the work itself, on texts
and settings; `Request.run` gets these from files.

A command that cannot even report fails with a `CommandError`. Otherwise it
has a `CommandResult`: what to print, and whether it succeeded.
-/

namespace Exemplar

/-! ## Results -/

/-- What a command prints, and whether it succeeded. -/
structure CommandResult where
  output : Rich
  succeeded : Bool
deriving Repr, DecidableEq

/-- Why a command has no result. -/
inductive CommandError where
  | unreadable (path : String) (fault : ReadFault)
  | configMissing (path : String)
  | configInvalid (path : String)
  | workspace (error : WorkspaceError)
  | harvest (error : HarvestError)
deriving Repr, DecidableEq

def CommandError.message : CommandError → String
  | .unreadable path fault => "failed to read " ++ path ++ ": " ++ fault.message
  | .configMissing path => "missing configuration file: " ++ path
  | .configInvalid path => "failed to parse TOML configuration " ++ path
  | .workspace error => error.message
  | .harvest error => error.message

/-! ## Parts of the output -/

namespace Output

def line (text : Rich) : Rich := text ++ Rich.raw "\n"

/-- A line with a message in its middle. -/
def banner (colour : Colour) (message : String) : Rich :=
  let bars := Rich.styled .dimmed "==="
  line (bars ++ Rich.raw " " ++ Rich.styled (.boldColour colour) message
    ++ Rich.raw " " ++ bars)

def success (phase detail : String) : Rich :=
  banner .green (phase ++ " OK" ++ detail)

def failure (phase : String) (errors : Nat) : Rich :=
  let count := if errors = 1 then "1 error" else Nat.repr errors ++ " errors"
  banner .red (phase ++ " FAILED: " ++ count)

def diagnostics (ds : List Diagnostic) (texts : SourceTexts) : Rich :=
  ds.flatMap fun d => line (d.rich texts)

def document (doc : Json) : Rich := line (Rich.raw doc.pretty)

end Output

/-- Print diagnostics, and succeed unless one is an error. For people, a
failure ends with a line that says so. -/
def CommandResult.ofDiagnostics (format : OutputFormat) (ds : List Diagnostic)
    (texts : SourceTexts) (command : Command) (phase : String) :
    CommandResult :=
  let errors := countSeverity ds .error
  let output := match format with
    | .json => Output.document (Report.ofDiagnostics ds texts command.text)
    | .text =>
      Output.diagnostics ds texts ++ if errors = 0 then []
        else Output.failure phase errors
  ⟨output, errors == 0⟩

/-- The result is a success exactly when no diagnostic is an error. -/
@[simp] theorem CommandResult.succeeded_ofDiagnostics (format : OutputFormat)
    (ds : List Diagnostic) (texts : SourceTexts) (command : Command)
    (phase : String) :
    (ofDiagnostics format ds texts command phase).succeeded
      = !hasErrors ds := by
  have h := hasErrors_eq_false_iff ds
  cases hds : hasErrors ds with
  | false => exact beq_iff_eq.2 (h.1 hds)
  | true =>
    have hne : countSeverity ds .error ≠ 0 := fun h0 => by
      rw [h.2 h0] at hds
      cases hds
    exact beq_eq_false_iff_ne.2 hne

/-! ## The files of the user -/

structure Host where
  build : Build
  /-- The texts of the files and of the standard headers. -/
  texts : SourceTexts

/-- Compile texts, which are given by path, against the standard headers. -/
def Host.compile (sources : List (String × String)) :
    Except WorkspaceError Host := do
  let units := sources.map fun (path, text) =>
    (⟨.primary path, text⟩ : SourceUnit)
  let own := units.map fun u => (u.origin, u.text)
  let texts := SourceTexts.insertAll [] (Headers.sources ++ own)
  let ws ← Workspace.empty.link Headers.library
  let ws ← ws.add units false
  return ⟨ws.build.1, texts⟩

/-- The texts of the host and of what was generated from it. -/
def Host.textsWith (host : Host) (units : List SourceUnit) : SourceTexts :=
  host.texts.insertAll (units.map fun u => (u.origin, u.text))

/-! ## The commands -/

namespace Command

/-- Compile the examples and report on everything. -/
def runCheck (host : Host) (settings : Settings) (format : OutputFormat) :
    Except HarvestError CommandResult := do
  let harvest ← host.build.program.harvest settings
  let diagnostics := host.build.diagnostics ++ harvest.diagnostics
  let texts := host.textsWith harvest.units
  let result := CommandResult.ofDiagnostics format diagnostics texts
    .check "Check"
  let detail := match harvest.status with
    | .noExamples => ": no examples"
    | _ => ": " ++ Nat.repr harvest.tests.length ++ " doc-test(s)"
  match format, result.succeeded with
  | .text, true =>
      return { result with
        output := result.output ++ Output.success "Check" detail }
  | _, _ => return result

def snippetReport (snippets : Snippets) : Json :=
  .obj [("command", .str extract.text),
    ("namespaces", .arr (snippets.groups.map fun (space, texts) =>
      .obj [("namespace", .ofOption space),
        ("snippets", .arr (texts.map .str))])),
    ("anomalies", .arr (snippets.openFences.map fun fence =>
      .obj [("namespace", .ofOption fence.space),
        ("declaration", .str fence.declaration.path),
        ("discarded", .str fence.discarded)]))]

/-- A snippet for people: its lines, set in by four, and an empty one. -/
def snippetLines (snippet : String) : Rich :=
  (Chars.lines (Chars.trimEnd snippet.toList)).flatMap
    (fun line => Output.line (Rich.raw ("    " ++ String.ofList line)))
  ++ Output.line []

/-- Snippets for people, under the names of their namespaces. -/
def snippetListing (snippets : Snippets) (settings : Settings)
    (texts : SourceTexts) : Rich :=
  let groups := snippets.groups.flatMap fun (space, texts) =>
    Output.line
      (Rich.styled (.boldColour .cyan) (space.getD settings.defaultNamespace))
      ++ texts.flatMap snippetLines
  let count := Rich.styled .dimmed (Nat.repr snippets.size ++ " snippet(s)")
  groups ++ Output.diagnostics (snippets.warnings settings) texts
    ++ Output.line count

/-- Print the examples. The settings are taken as they are. -/
def runExtract (host : Host) (settings : Settings) (format : OutputFormat) :
    CommandResult :=
  let snippets := Snippets.ofProgram settings host.build.program
  let output := match format with
    | .json => Output.document (snippetReport snippets)
    | .text => snippetListing snippets settings host.texts
  ⟨output, true⟩

/-- The backends a test is marked for. -/
def backendsOf (program : Program) (mark test : QualifiedName) : List String :=
  match (program.lookup? test).bind Declaration.callable? with
  | some c =>
      (c.attributes.filter fun a => a.name = mark).filterMap Attribute.argument
  | none => []

/-- List the tests. Only what the examples gave rise to is reported. -/
def runTests (host : Host) (settings : Settings) (format : OutputFormat) :
    Except HarvestError CommandResult := do
  let harvest ← host.build.program.harvest settings
  if !harvest.succeeded then
    let texts := host.textsWith harvest.units
    return { CommandResult.ofDiagnostics format harvest.diagnostics texts
        .tests "Tests" with
      succeeded := false }
  let backends := backendsOf harvest.program (.ofPath settings.testAttribute)
  let output := match format with
    | .json => Output.document (.obj [("command", .str tests.text),
        ("status", .str harvest.status.key),
        ("tests", .arr (harvest.tests.map fun (test : QualifiedName) =>
          .obj [("name", .str test.path),
            ("backends", .arr ((backends test).map .str))]))])
    | .text =>
      let listing := harvest.tests.flatMap fun (test : QualifiedName) =>
        Output.line (Rich.styled (.colour .green) "✓"
          ++ Rich.raw (" " ++ test.path ++ " ("
            ++ ", ".intercalate (backends test) ++ ")"))
      listing ++ Output.success "Tests"
        (": " ++ Nat.repr harvest.tests.length ++ " found")
  return ⟨output, true⟩

/-- Run a command on texts, which are given by path. -/
def perform (command : Command) (format : OutputFormat) (settings : Settings)
    (sources : List (String × String)) : Except CommandError CommandResult :=
  match Host.compile sources with
  | .error error => .error (.workspace error)
  | .ok host =>
    if host.build.hasErrors then
      .ok (.ofDiagnostics format host.build.diagnostics host.texts command
        "Compile")
    else
      match command with
      | .check => (runCheck host settings format).mapError .harvest
      | .extract => .ok (runExtract host settings format)
      | .tests => (runTests host settings format).mapError .harvest

end Command

/-! ## Requests -/

/-- Where settings are looked for if no file is named. -/
def localConfig : String := "vela.toml"

/-- Read the settings in a file that has to be there. -/
def Settings.load (view : FileView) (path : String) :
    Except CommandError Settings :=
  if !view.hasEntry path then .error (.configMissing path)
  else
    match view.readText path with
    | .error fault => .error (.unreadable path fault)
    | .ok text =>
      match ofToml? text with
      | some settings => .ok settings
      | none => .error (.configInvalid path)

/-- The settings for a request: from the file it names, from the local file if
there is one, or all of them left at their defaults. -/
def Request.settings (r : Request) (view : FileView) :
    Except CommandError Settings :=
  match r.config with
  | some path => Settings.load view path
  | none =>
      if view.hasEntry localConfig then Settings.load view localConfig
      else .ok {}

/-- The texts of the files, by path. -/
def Request.sources (r : Request) (view : FileView) :
    Except CommandError (List (String × String)) :=
  r.files.mapM fun path =>
    match view.readText path with
    | .ok text => .ok (path, text)
    | .error fault => .error (.unreadable path fault)

/-- The paths a request may look at. -/
def Request.paths (r : Request) : List String :=
  r.config.getD localConfig :: r.files

/-- Run a request: first the settings are read, then the files. -/
def Request.run (r : Request) (view : FileView) :
    Except CommandError CommandResult := do
  let settings ← r.settings view
  let sources ← r.sources view
  r.command.perform r.format settings sources

end Exemplar
