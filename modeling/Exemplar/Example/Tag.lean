import Exemplar.Program

/-!
# Marking tests

Generated callables that take nothing can run as tests. They are marked with
attributes, each of which is added unless one alike is there.
-/

namespace Exemplar

/-- Add the attributes that are not there yet, in order. -/
def addMissing (present marks : List Attribute) : List Attribute :=
  marks.foldl (fun present mark =>
    if present.any fun a => a.alike mark then present else present ++ [mark])
      present

namespace Declaration

/-- The declaration is a test: a callable from one of the given origins that
takes nothing. -/
def isTest (d : Declaration) (origins : List Origin) : Bool :=
  origins.contains d.origin && d.callable?.any Callable.takesNothing

/-- The declaration with the attributes it lacks, if it is a test. -/
def markTest (d : Declaration) (origins : List Origin)
    (marks : List Attribute) : Declaration :=
  match d.detail with
  | .callable c =>
    if d.isTest origins then
      { d with
        detail := .callable
          { c with attributes := addMissing c.attributes marks } }
    else d
  | .newtype .. | .specialization .. => d

end Declaration

namespace Program

def markTests (p : Program) (origins : List Origin) (marks : List Attribute) :
    Program :=
  { p with
    namespaces := p.namespaces.map fun ns =>
      { ns with decls := ns.decls.map fun d => d.markTest origins marks } }

def tests (p : Program) (origins : List Origin) : List QualifiedName :=
  (p.decls.filter fun d => d.isTest origins).map Declaration.name

end Program

end Exemplar
