import Exemplar.Assembly
import Exemplar.Check.Blocks

/-!
# Workspaces

A workspace holds source units and the library they are linked against, and
builds them into one checked program. Units are parsed once and again only
when their text changes; `parses` counts how often that has happened.

Sources are never references, and no unit has the name of a reference: calls
that would break this are refused and change nothing.
-/

namespace Exemplar

/-! ## Units -/

structure SourceUnit where
  origin : Origin
  text : String
deriving Repr, DecidableEq

/-- The blocks of a unit, and what is wrong with its text. -/
structure ParsedUnit where
  blocks : List Block
  diagnostics : List Diagnostic
deriving Repr, DecidableEq

def ScanError.toDiagnostic (e : ScanError) : Diagnostic :=
  ((Diagnostic.coded .error "E0001" e.why.message).primary e.span
    "not valid here").advised e.why.hint

def Fault.toDiagnostic (f : Fault) : Diagnostic :=
  ((Diagnostic.coded .error "E0100" f.cause.message).primary f.span
    "here").advised f.cause.hint

def SourceUnit.parse (unit : SourceUnit) : ParsedUnit :=
  let scan := Scan.ofText unit.text
  let parsed := Parsed.ofTokens scan.tokens unit.origin
  ⟨parsed.blocks,
    (scan.errors.map ScanError.toDiagnostic
      ++ parsed.faults.map Fault.toDiagnostic).map (·.about unit.origin)⟩

def ParsedUnit.isClean (u : ParsedUnit) : Bool := u.diagnostics.isEmpty

/-! ## Builds -/

/-- A program and what there is to say about it. -/
structure Build where
  program : Program
  diagnostics : List Diagnostic
deriving Repr, DecidableEq

def Build.hasErrors (b : Build) : Bool := Exemplar.hasErrors b.diagnostics

/-- Assemble parsed units and check the program. First come the errors in the
texts, then the findings; the blocks of a unit whose text is wrong are not
checked. -/
def Build.ofUnits (library : Library) (units : List (Origin × ParsedUnit)) :
    Build :=
  let program := assemble library (units.flatMap fun (_, u) => u.blocks)
  let clean := units.filter fun (_, u) => u.isClean
  let findings := program.duplicates
    ++ clean.flatMap fun (origin, u) =>
    u.blocks.flatMap (checkBlock program origin)
  ⟨program, units.flatMap (fun (_, u) => u.diagnostics)
    ++ findings.map Finding.toDiagnostic⟩

/-! ## Workspaces -/

/-- A unit, and what parsing it gave, if that has been done. -/
structure Entry where
  unit : SourceUnit
  parsed : Option ParsedUnit
deriving Repr, DecidableEq

/-- What parsing the unit gives, from the entry if it is there. -/
def Entry.result (e : Entry) : ParsedUnit := e.parsed.getD e.unit.parse

def Entry.parse (e : Entry) : Entry := { e with parsed := some e.result }

/-- Units and the library they are linked against. -/
structure Workspace where
  entries : List Entry
  library : Library
  parses : Nat
deriving Repr, DecidableEq

/-- A call that a workspace refuses. -/
inductive WorkspaceError where
  /-- A reference cannot be compiled. -/
  | notCompilable (origin : Origin)
  /-- A reference has the name of a unit. -/
  | nameTaken (reference : Origin)
  /-- A library entry is not a reference. -/
  | notReference (origin : Origin)
deriving Repr, DecidableEq

def WorkspaceError.message : WorkspaceError → String
  | .notCompilable origin =>
      "`" ++ origin.text ++ "` cannot be compiled as a source unit"
  | .nameTaken reference =>
    "reference `" ++ reference.text ++ "` has the same name as a compiled unit"
  | .notReference origin => "`" ++ origin.text ++ "` is not a reference id"

namespace Workspace

/-- Nothing to compile and nothing to link against. -/
def empty : Workspace := ⟨[], .empty, 0⟩

/-- The units, in the order in which they were first added. -/
def units (ws : Workspace) : List SourceUnit := ws.entries.map Entry.unit

/-! ### Parsing -/

/-- Parse the units that satisfy `p` and have not been parsed. -/
def parseWhere (ws : Workspace) (p : SourceUnit → Bool) : Workspace :=
  { ws with
    entries := ws.entries.map fun e => if p e.unit then e.parse else e
    parses := ws.parses + ws.entries.countP fun e =>
      p e.unit && e.parsed.isNone }

/-! ### Adding units -/

/-- Why a unit cannot be added. -/
def rejection? (ws : Workspace) (unit : SourceUnit) : Option WorkspaceError :=
  if unit.origin.isReference then some (.notCompilable unit.origin)
  else
    (ws.library.origins.find? fun o => o.name == unit.origin.name).map
      .nameTaken

/-- Put a unit in the place of the one with its origin, or at the end. A unit
with the same text stays as it is. -/
def putEntry (unit : SourceUnit) : List Entry → List Entry
  | [] => [⟨unit, none⟩]
  | e :: rest =>
    if e.unit.origin = unit.origin then
      (if e.unit.text = unit.text then e else ⟨unit, none⟩) :: rest
    else e :: putEntry unit rest

/-- Add a unit or replace the one with its origin; parse it at once unless
that is put off. -/
def put (ws : Workspace) (putOff : Bool) (unit : SourceUnit) : Workspace :=
  let ws := { ws with entries := putEntry unit ws.entries }
  if putOff then ws else ws.parseWhere fun u => u.origin == unit.origin

/-- Add or replace units, all or none. Unless it is put off to the next
build, new and changed units are parsed at once. -/
def add (ws : Workspace) (units : List SourceUnit) (putOff : Bool) :
    Except WorkspaceError Workspace :=
  match units.findSome? ws.rejection? with
  | some error => .error error
  | none => .ok (units.foldl (fun ws unit => ws.put putOff unit) ws)

/-! ### Linking -/

/-- Why an origin cannot be one of the library. -/
def linkRejection? (ws : Workspace) (origin : Origin) : Option WorkspaceError :=
  if !origin.isReference then some (.notReference origin)
  else if ws.entries.any fun e => e.unit.origin.name == origin.name then
    some (.nameTaken origin)
  else none

def link (ws : Workspace) (library : Library) :
    Except WorkspaceError Workspace :=
  match library.origins.findSome? ws.linkRejection? with
  | some error => .error error
  | none => .ok { ws with library := library }

/-! ### Building -/

/-- Parse what has not been parsed, and build everything. -/
def build (ws : Workspace) : Build × Workspace :=
  let ws := ws.parseWhere fun _ => true
  (.ofUnits ws.library (ws.entries.map fun e => (e.unit.origin, e.result)), ws)

end Workspace

end Exemplar
