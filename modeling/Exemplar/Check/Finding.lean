import Exemplar.Diagnostic.Basic
import Exemplar.Tree.Declaration

/-!
# Findings

What can be wrong with a program whose syntax is right, and how each problem
is reported.
-/

namespace Exemplar

inductive Problem where
  | unresolved (name : String)
  /-- A name is defined twice; the earlier place is known if it is in the
  same source. -/
  | duplicate (name space : String) (earlier : Option Span)
  | noSuchOperation (parent : String)
  | unknownType (name : String)
  | unknownAttribute (name : String)
  | unknownNamespace (space : String)
  | wrongArity (callee : String) (wanted found : Nat)
  | immutable (name : String) (bound : Span)
  | notAnOperation (name : String) (variant : Variant)
  | unused (name : String)
deriving Repr, DecidableEq

/-- A problem, where it is, and in which source. -/
structure Finding where
  problem : Problem
  span : Span
  origin : Origin
deriving Repr, DecidableEq

namespace Problem

def code : Problem → String
  | .unresolved _ => "E0200"
  | .duplicate .. => "E0201"
  | .noSuchOperation _ => "E0202"
  | .unknownType _ | .unknownAttribute _ => "E0203"
  | .unknownNamespace _ => "E0207"
  | .wrongArity .. => "E0300"
  | .immutable .. => "E0301"
  | .notAnOperation .. => "E0302"
  | .unused _ => "W0001"

/-- An unused binding is a matter of style; everything else is an error. -/
def severity : Problem → Severity
  | .unused _ => .warning
  | _ => .error

def message : Problem → String
  | .unresolved name => "unresolved identifier `" ++ name ++ "`"
  | .duplicate name space _ =>
    "`" ++ name ++ "` is defined more than once in namespace `" ++ space ++ "`"
  | .noSuchOperation parent =>
      "cannot specialize `" ++ parent ++ "`: no such operation"
  | .unknownType name => "unknown type `" ++ name ++ "`"
  | .unknownAttribute name => "unknown attribute `" ++ name ++ "`"
  | .unknownNamespace space => "unknown namespace `" ++ space ++ "`"
  | .wrongArity callee wanted found =>
    "`" ++ callee ++ "` expects " ++ Nat.repr wanted ++ " argument"
      ++ (if wanted = 1 then "" else "s") ++ ", found " ++ Nat.repr found
  | .immutable name _ => "cannot assign to immutable binding `" ++ name ++ "`"
  | .notAnOperation name variant =>
    "function `" ++ name ++ "` cannot have a `" ++ variant.text
      ++ "` specialization"
  | .unused name => "unused binding `" ++ name ++ "`"

def label : Problem → String
  | .unresolved _ => "not found in this scope"
  | .duplicate .. => "redefined here"
  | .noSuchOperation _ | .notAnOperation .. => "specialization declared here"
  | .unknownType _ => "type used here"
  | .unknownAttribute _ => "attribute used here"
  | .unknownNamespace _ => "no such namespace in this program or its references"
  | .wrongArity _ wanted _ => "expected " ++ Nat.repr wanted
  | .immutable .. => "assigned here"
  | .unused _ => "never read"

def help : Problem → Option String
  | .unresolved name =>
    if isDotted name then
      some "check the namespace name or its `open ... as` alias"
    else some "check the spelling or add an `open` directive"
  | .duplicate .. | .unknownNamespace _ | .wrongArity .. => none
  | .noSuchOperation _ =>
      some "declare the operation in this namespace or qualify its name"
  | .unknownType _ =>
      some "declare it with `newtype` or open the namespace that does"
  | .unknownAttribute _ =>
    some "attributes name a `newtype` such as `Std.Diagnostics.Test`; check the `open` directives"
  | .immutable .. => some "declare it with `mutable` to allow `set`"
  | .notAnOperation .. =>
      some "only operations have adjoint or controlled specializations"
  | .unused name => some ("prefix it with an underscore: `_" ++ name ++ "`")

/-- A place related to the problem, or a note where there is none to show. -/
def addContext (p : Problem) (d : Diagnostic) : Diagnostic :=
  match p with
  | .duplicate _ _ (some earlier) =>
      d.secondary earlier "previously defined here"
  | .duplicate _ _ none =>
      d.noted "the earlier definition comes from another unit"
  | .immutable _ bound => d.secondary bound "bound with `let`"
  | _ => d

end Problem

def Finding.toDiagnostic (f : Finding) : Diagnostic :=
  let main :=
    (Diagnostic.coded f.problem.severity f.problem.code
      f.problem.message).primary f.span f.problem.label
  ((f.problem.addContext main).advised f.problem.help).about f.origin

@[simp] theorem Finding.severity_toDiagnostic (f : Finding) :
    f.toDiagnostic.severity = f.problem.severity := by
  unfold toDiagnostic Problem.addContext
  split <;> rfl

end Exemplar
