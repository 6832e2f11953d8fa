import Exemplar.Example.Snippets
import Exemplar.Workspace

/-!
# Example units

The snippets of a namespace become one source unit, which puts them inside
that namespace word for word. Snippets of the global namespace go to the
default namespace, with the snippets already collected under that name.
Blank snippets are left out, and so are units without snippets.
-/

namespace Exemplar

/-- The origin of the unit made for a namespace. -/
def exampleOrigin (space : String) : Origin :=
  .synthetic (space ++ ".doctest.vl")

/-- A namespace block around snippets: its first line, a line for each
namespace opened, the snippets, and the closing brace. -/
def wrapSnippets (space : String) (opens snippets : List String) : String :=
  String.intercalate "\n"
    (["namespace " ++ space ++ " \x7b"] ++ opens.map (fun o =>
      "open " ++ o ++ ";")
      ++ snippets ++ ["\x7d"])

namespace Snippets

/-- Add snippets to the group of a namespace, or to a new one at the end. -/
def mergeInto (space : String) (snippets : List String) :
    List (String × List String) → List (String × List String)
  | [] => [(space, snippets)]
  | (s, texts) :: rest =>
    if s = space then (s, texts ++ snippets) :: rest
    else (s, texts) :: mergeInto space snippets rest

/-- The snippets that are not blank, by the namespace they go to. -/
def byNamespace (s : Snippets) (settings : Settings) :
    List (String × List String) :=
  s.groups.foldl (fun grouped (space, snippets) =>
    mergeInto (space.getD settings.defaultNamespace)
      (snippets.filter fun t => !Chars.isBlankText t) grouped) []

/-- The units made of the snippets of a host program. Of the namespaces to
open, those that the host has are opened. -/
def toUnits (s : Snippets) (host : Program) (settings : Settings) :
    List SourceUnit :=
  let opens := settings.openedNamespaces.filter host.hasNamespace
  let kept := (s.byNamespace settings).filter fun (_, texts) => !texts.isEmpty
  kept.map fun (space, texts) =>
    ⟨exampleOrigin space, wrapSnippets space opens texts⟩

end Snippets

end Exemplar
