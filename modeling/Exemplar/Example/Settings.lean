import Exemplar.Token.Lexeme
import Exemplar.Tree.Declaration
import Exemplar.Value

/-!
# Settings

What the user can choose about examples: where those of global declarations
go, what they may use without opening it, and how the resulting tests are
marked. Settings are read from a small value format shared by configuration
files and requests; everything left out keeps its default.
-/

namespace Exemplar

/-- What to do about code fences that are never closed. -/
inductive FencePolicy where
  /-- Drop what follows. -/
  | truncate
  /-- Drop what follows and warn about it. -/
  | warn
deriving Repr, DecidableEq

def FencePolicy.text : FencePolicy → String
  | .truncate => "truncate"
  | .warn => "warn"

def FencePolicy.ofText? (name : String) : Option FencePolicy :=
  [truncate, warn].find? fun p => p.text == name

structure Settings where
  /-- The namespace that receives the examples of global declarations. -/
  defaultNamespace : String := "Vela.DocTests"
  /-- The namespaces opened for every example, as far as they exist. -/
  openedNamespaces : List String :=
    ["Std.Core", "Std.Intrinsic", "Std.Diagnostics", "Std.Canon", "Std.Arrays"]
  /-- The backends each test is marked for. -/
  backends : List String := ["Simulator", "ResourcesEstimator"]
  /-- The full name of the attribute that marks tests. -/
  testAttribute : String := "Std.Diagnostics.Test"
  fencePolicy : FencePolicy := .truncate
  /-- References are searched for examples, too. -/
  scanReferences : Bool := false
deriving Repr, DecidableEq

/-- A setting that cannot be used. -/
inductive SettingsError where
  | defaultNamespace (value : String)
  | openedNamespace (value : String)
  | testAttribute (value : String)
deriving Repr, DecidableEq

def SettingsError.message : SettingsError → String
  | .defaultNamespace value =>
    "invalid doc-test setting `default_namespace`: `" ++ value
      ++ "` is not a namespace name"
  | .openedNamespace value =>
    "invalid doc-test setting `opened_namespaces`: `" ++ value
      ++ "` is not a namespace name"
  | .testAttribute value =>
    "invalid doc-test setting `test_attribute`: `" ++ value
      ++ "` is not a fully qualified name"

/-- The characters form a name without dots. -/
def isNamePart : List Char → Bool
  | [] => false
  | c :: cs => Lexeme.isNameStart c && cs.all Lexeme.isNameRest

/-- The text is names with dots between them. -/
def isNamePath (path : String) : Bool :=
  (Chars.splitOn '.' path.toList).all isNamePart

namespace Settings

/-- Refuse settings from which no source could be generated. -/
def validate (s : Settings) : Except SettingsError Unit :=
  if !isNamePath s.defaultNamespace then
    .error (.defaultNamespace s.defaultNamespace)
  else
    match s.openedNamespaces.find? fun space => !isNamePath space with
    | some bad => .error (.openedNamespace bad)
    | none =>
      if !isNamePath s.testAttribute || !isDotted s.testAttribute then
        .error (.testAttribute s.testAttribute)
      else .ok ()

/-- The attributes that mark a test: one for each backend. -/
def testMarks (s : Settings) : List Attribute :=
  s.backends.map fun backend =>
    ⟨.ofPath s.testAttribute, some backend, .nowhere⟩

end Settings

/-! ## Reading settings -/

/-- The points on which value formats differ. -/
structure ValueRules where
  /-- The value says nothing beyond being there. -/
  isUnit : Value → Bool
  /-- Items of a list beyond the last field are passed over. -/
  extraItems : Bool

/-- The rules for requests: nothing is said by a null, and lists are exact. -/
def ValueRules.request : ValueRules where
  isUnit
    | .null => true
    | _ => false
  extraItems := false

/-- The rules for configuration files: nothing is said by an empty table or
list, and lists may go on. -/
def ValueRules.file : ValueRules where
  isUnit
    | .table [] | .list [] => true
    | _ => false
  extraItems := true

/-- The policy, by its name or as a table of that name alone. -/
def Value.fencePolicy? (rules : ValueRules) : Value → Option FencePolicy
  | .text name => FencePolicy.ofText? name
  | .table [(name, payload)] =>
      if rules.isUnit payload then FencePolicy.ofText? name else none
  | _ => none

namespace Settings

def fieldNames : List String :=
  ["default_namespace", "opened_namespaces", "backends", "test_attribute",
    "fence_policy", "scan_references"]

def set? (rules : ValueRules) (s : Settings) (name : String) (v : Value) :
    Option Settings :=
  match name with
  | "default_namespace" => v.text?.map fun x => { s with defaultNamespace := x }
  | "opened_namespaces" =>
      v.texts?.map fun x => { s with openedNamespaces := x }
  | "backends" => v.texts?.map fun x => { s with backends := x }
  | "test_attribute" => v.text?.map fun x => { s with testAttribute := x }
  | "fence_policy" =>
      (v.fencePolicy? rules).map fun x => { s with fencePolicy := x }
  | "scan_references" => v.bool?.map fun x => { s with scanReferences := x }
  | _ => none

/-- Read settings: a table by name, or a list by position. -/
def ofValue? (rules : ValueRules) : Value → Option Settings
  | .table fields => fields.foldlM (fun s (name, v) => set? rules s name v) {}
  | .list items =>
    if items.length ≤ fieldNames.length || rules.extraItems then
      (fieldNames.zip items).foldlM (fun s (name, v) => set? rules s name v) {}
    else none
  | _ => none

end Settings

end Exemplar
