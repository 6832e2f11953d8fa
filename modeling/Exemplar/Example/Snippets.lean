import Exemplar.Diagnostic.Basic
import Exemplar.Docs.Sections
import Exemplar.Example.Settings
import Exemplar.Program

/-!
# Snippets

The fenced code in the example sections of a program's documentation, grouped
by namespace in the order of discovery. Every type, callable and
specialization is visited; bodies are not entered.
-/

namespace Exemplar

/-- A code fence that is never closed. -/
structure OpenFence where
  /-- The namespace of the documented declaration; none for a global one. -/
  space : Option String
  /-- The documented declaration. -/
  declaration : QualifiedName
  /-- What follows the fence. -/
  discarded : String
deriving Repr, DecidableEq

def OpenFence.toDiagnostic (a : OpenFence) : Diagnostic :=
  let warning := (Diagnostic.coded .warning "W0100"
    ("unterminated code fence in the example of `" ++ a.declaration.path
      ++ "`")).advised (some "close the example with ``` on its own line")
  match Chars.lines (Chars.trim a.discarded.toList) with
  | [] => warning
  | line :: _ => warning.noted ("ignored: " ++ String.ofList line)

/-- Snippets by namespace, and the fences that are never closed. The global
namespace has no name. -/
structure Snippets where
  groups : List (Option String × List String)
  openFences : List OpenFence
deriving Repr, DecidableEq

namespace Snippets

def empty : Snippets := ⟨[], []⟩

/-- Add a snippet to the group of its namespace, or to a new one at the end. -/
def pushTo (space : Option String) (snippet : String) :
    List (Option String × List String) → List (Option String × List String)
  | [] => [(space, [snippet])]
  | (s, snippets) :: rest =>
    if s = space then (s, snippets ++ [snippet]) :: rest
    else (s, snippets) :: pushTo space snippet rest

def push (s : Snippets) (space : Option String) (snippet : String) : Snippets :=
  { s with groups := pushTo space snippet s.groups }

def size (s : Snippets) : Nat :=
  (s.groups.flatMap fun (_, snippets) => snippets).length

def addDeclaration (s : Snippets) (space : Option String) (d : Declaration) :
    Snippets :=
  let found := Fences.scan (Sections.ofDoc d.doc).exampleText.toList
  let s := found.snippets.foldl (fun s snippet =>
    s.push space (String.ofList snippet)) s
  match found.unclosed with
  | none => s
  | some discarded =>
    { s with openFences := s.openFences ++ [⟨space, d.name,
      String.ofList discarded⟩] }

/-- The declaration is searched for examples: the user's own are, and all
others only if asked for. -/
def searches (settings : Settings) (d : Declaration) : Bool :=
  d.origin.isPrimary || settings.scanReferences

def addNamespace (settings : Settings) (s : Snippets) (ns : Namespace) :
    Snippets :=
  let space := if ns.isGlobal then none else some ns.name
  (ns.decls.filter (searches settings)).foldl (fun s d =>
    s.addDeclaration space d) s

def ofProgram (settings : Settings) (p : Program) : Snippets :=
  p.namespaces.foldl (addNamespace settings) empty

end Snippets

end Exemplar
