import Exemplar.Text.Chars

/-!
# Qualified names

The full name of a declaration: the namespace it stands in and its short
name. The namespace is empty for declarations outside every namespace.
-/

namespace Exemplar

/-- A short name in a namespace; the empty namespace is the global one. -/
structure QualifiedName where
  space : String
  name : String
deriving Repr, DecidableEq

namespace QualifiedName

/-- Split a dotted path at its last dot. A path without one is global. -/
def ofPath (path : String) : QualifiedName :=
  match Chars.splitAtLast '.' path.toList with
  | some (space, name) => ⟨String.ofList space, String.ofList name⟩
  | none => ⟨"", path⟩

def path (q : QualifiedName) : String :=
  if q.space = "" then q.name else q.space ++ "." ++ q.name

end QualifiedName

def isDotted (path : String) : Bool := path.toList.contains '.'

end Exemplar
