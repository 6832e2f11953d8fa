import Exemplar.Tree.Declaration

/-!
# Programs

A program is a list of namespaces, each with its declarations in order, and
the names of its entry points. Programs are plain values: every pass takes
one and gives another.
-/

namespace Exemplar

/-- A named list of declarations. The empty name is the global namespace. -/
structure Namespace where
  name : String
  doc : Doc
  decls : List Declaration
deriving Repr, DecidableEq

namespace Namespace

def isGlobal (ns : Namespace) : Bool := ns.name == ""

/-- The first type or callable with the given short name. -/
def find? (ns : Namespace) (name : String) : Option Declaration :=
  ns.decls.find? fun d => d.definesName && d.name.name == name

def callables (ns : Namespace) : List (Declaration × Callable) :=
  ns.decls.filterMap fun d => d.callable?.map fun c => (d, c)

end Namespace

/-- Namespaces and entry points. -/
structure Program where
  namespaces : List Namespace
  entryPoints : List QualifiedName
deriving Repr, DecidableEq

namespace Program

def empty : Program := ⟨[], []⟩

def namespace? (p : Program) (name : String) : Option Namespace :=
  p.namespaces.find? fun ns => ns.name == name

def hasNamespace (p : Program) (name : String) : Bool :=
  (p.namespace? name).isSome

/-- The type or callable `name` in the namespace `space`. -/
def findIn? (p : Program) (space name : String) : Option Declaration :=
  (p.namespace? space).bind fun ns => ns.find? name

/-- The type or callable with the given full name. -/
def lookup? (p : Program) (name : QualifiedName) : Option Declaration :=
  p.findIn? name.space name.name

def decls (p : Program) : List Declaration :=
  p.namespaces.flatMap Namespace.decls

def callables (p : Program) : List (Declaration × Callable) :=
  p.namespaces.flatMap Namespace.callables

end Program

/-! ## Namespaces by name -/

/-- Add documentation and declarations to the first namespace with the given
name, or to a new one at the end. Documentation that is already there stays. -/
def contribute (name : String) (doc : Doc) (decls : List Declaration) :
    List Namespace → List Namespace
  | [] => [⟨name, doc, decls⟩]
  | ns :: rest =>
    if ns.name = name then
      { ns with
        doc := if ns.doc.isEmpty then doc else ns.doc
        decls := ns.decls ++ decls } :: rest
    else ns :: contribute name doc decls rest

/-- Merge blocks into namespaces, in the order in which their names appear. -/
def namespacesOfBlocks (blocks : List Block) : List Namespace :=
  blocks.foldl (fun nss b => contribute b.name b.doc b.decls nss) []

end Exemplar
