import Exemplar.Example.Merge
import Exemplar.Example.Tag
import Exemplar.Example.Units

/-!
# Examples as tests

The whole way from documentation to tests. The snippets of a host program are
compiled as units of their own, against the headers of the host. If that
works, the compiled declarations are added to the host and marked as tests; if
it does not, the host stays as it is and the errors are reported.
-/

namespace Exemplar

/-! ## Compiling generated units -/

/-- A program built from generated units, and the origins of those units. -/
structure ExampleBuild where
  program : Program
  diagnostics : List Diagnostic
  origins : List Origin
deriving Repr, DecidableEq

def ExampleBuild.hasErrors (b : ExampleBuild) : Bool :=
  Exemplar.hasErrors b.diagnostics

/-- Add units to a workspace, make `library` all it is linked against, and
build it. -/
def Workspace.buildExamples (ws : Workspace) (units : List SourceUnit)
    (library : Library) :
    Except WorkspaceError (ExampleBuild × Workspace) := do
  let ws ← ws.add units true
  let ws ← ws.link library
  let (build, ws) := ws.build
  let origins := Origin.sorted (units.map SourceUnit.origin)
  return (⟨build.program, build.diagnostics, origins⟩, ws)

/-! ## Outcomes -/

/-- How it ended. -/
inductive Status where
  /-- There was nothing to compile. -/
  | noExamples
  /-- The examples were compiled and added. -/
  | merged
  /-- The examples could not be compiled. -/
  | failed
deriving Repr, DecidableEq

def Status.text : Status → String
  | .noExamples => "no examples"
  | .merged => "merged"
  | .failed => "failed"

def Status.key : Status → String
  | .noExamples => "no-examples"
  | .merged => "merged"
  | .failed => "failed"

/-- What came of a program's examples. -/
structure Harvest where
  program : Program
  /-- The warnings about unclosed fences, then what the build reported. -/
  diagnostics : List Diagnostic
  units : List SourceUnit
  /-- The names of the tests, in the order of the program. -/
  tests : List QualifiedName
  status : Status
deriving Repr, DecidableEq

def Harvest.succeeded (h : Harvest) : Bool := h.status != .failed

/-- Why there is no harvest at all. -/
inductive HarvestError where
  | settings (error : SettingsError)
  | workspace (error : WorkspaceError)
deriving Repr, DecidableEq

def HarvestError.message : HarvestError → String
  | .settings error => error.message
  | .workspace error =>
      "satellite build rejected by the engine: " ++ error.message

/-! ## The pipeline -/

def harvestStep : String := "DocsToTests"

/-- The warnings about unclosed fences, if the policy asks for them. -/
def Snippets.warnings (s : Snippets) (settings : Settings) : List Diagnostic :=
  match settings.fencePolicy with
  | .truncate => []
  | .warn => s.openFences.map OpenFence.toDiagnostic

/-- Turn the examples of a program into tests, compiling them in the given
workspace. -/
def Workspace.harvest (ws : Workspace) (settings : Settings) (host : Program) :
    Except HarvestError (Harvest × Workspace) :=
  match settings.validate with
  | .error error => .error (.settings error)
  | .ok () =>
    let snippets := Snippets.ofProgram settings host
    let warnings := snippets.warnings settings
    let units := snippets.toUnits host settings
    if units.isEmpty then .ok (⟨host, warnings, units, [], .noExamples⟩, ws)
    else
      match ws.buildExamples units host.headerLibrary with
      | .error error => .error (.workspace error)
      | .ok (build, ws) =>
        let diagnostics := warnings ++ build.diagnostics
        if build.hasErrors then
          .ok (⟨host, diagnostics, units, [], .failed⟩, ws)
        else
          let merged := host.mergeFrom build.program build.origins
          let marked := merged.markTests build.origins settings.testMarks
          .ok
            (⟨marked, diagnostics, units, merged.tests build.origins, .merged⟩,
              ws)

/-- Turn the examples of a program into tests. -/
def Program.harvest (host : Program) (settings : Settings) :
    Except HarvestError Harvest :=
  (Workspace.empty.harvest settings host).map Prod.fst

end Exemplar
