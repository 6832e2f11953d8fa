import Exemplar.Origin
import Exemplar.QualifiedName
import Exemplar.Tree.Stmt
import Exemplar.Tree.TypeExpr

/-!
# Declarations and blocks

What a source text declares: types, callables, and specializations of
operations, each with its documentation. A block is one `namespace X { .. }`
of a source text; several blocks, possibly of several texts, may contribute
to one namespace, and the `open` directives of a block hold in that block
only.
-/

namespace Exemplar

/-- Documentation, line by line. -/
abbrev Doc := List String

/-- An attribute `@Name("argument")` on a declaration. -/
structure Attribute where
  name : QualifiedName
  argument : Option String
  span : Span
deriving Repr, DecidableEq

def Attribute.alike (a b : Attribute) : Bool :=
  a.name == b.name && a.argument == b.argument

structure Param where
  name : String
  type : TypeExpr
  span : Span
deriving Repr, DecidableEq

inductive CallableKind where
  | function
  | operation
deriving Repr, DecidableEq

def CallableKind.text : CallableKind → String
  | .function => "function"
  | .operation => "operation"

/-- The variants an operation can be given an implementation for. -/
inductive Variant where
  | adjoint
  | controlled
deriving Repr, DecidableEq

def Variant.text : Variant → String
  | .adjoint => "adjoint"
  | .controlled => "controlled"

/-- A function or operation. Headers have no body. -/
structure Callable where
  kind : CallableKind
  params : List Param
  result : TypeExpr
  attributes : List Attribute
  body : Option (List Stmt)
deriving Repr, DecidableEq

def Callable.takesNothing (c : Callable) : Bool := c.params.isEmpty

inductive Detail where
  /-- A type: `newtype Name = underlying;`. -/
  | newtype (underlying : TypeExpr) (attributes : List Attribute)
  /-- A function or operation. -/
  | callable (c : Callable)
  /-- An implementation of a variant of the operation that has the name of
  the declaration. -/
  | specialization (variant : Variant) (body : Option (List Stmt))
deriving Repr, DecidableEq

/-- A declaration. The name of a specialization is that of its operation. -/
structure Declaration where
  name : QualifiedName
  doc : Doc
  origin : Origin
  span : Span
  detail : Detail
deriving Repr, DecidableEq

namespace Declaration

/-- The attributes. Specializations have none. -/
def attributes (d : Declaration) : List Attribute :=
  match d.detail with
  | .newtype _ attributes => attributes
  | .callable c => c.attributes
  | .specialization .. => []

/-- The declaration with its attributes, if it has any, updated. -/
def updateAttributes (f : List Attribute → List Attribute) (d : Declaration) :
    Declaration :=
  match d.detail with
  | .newtype underlying attributes =>
    { d with detail := .newtype underlying (f attributes) }
  | .callable c =>
    { d with detail := .callable { c with attributes := f c.attributes } }
  | .specialization .. => d

def mapAttributes (f : Attribute → Attribute) : Declaration → Declaration :=
  updateAttributes (List.map f)

/-- The declaration introduces its name. A specialization only refers to one,
so it never clashes with its operation. -/
def definesName (d : Declaration) : Bool :=
  match d.detail with
  | .newtype .. | .callable _ => true
  | .specialization .. => false

def callable? (d : Declaration) : Option Callable :=
  match d.detail with
  | .callable c => some c
  | .newtype .. | .specialization .. => none

def isType (d : Declaration) : Bool :=
  match d.detail with
  | .newtype .. => true
  | .callable _ | .specialization .. => false

/-- The declaration without its implementation, as coming from `origin`. -/
def header (d : Declaration) (origin : Origin) : Declaration :=
  let detail :=
    match d.detail with
    | .newtype underlying attributes => .newtype underlying attributes
    | .callable c => .callable { c with body := none }
    | .specialization variant _ => .specialization variant none
  { d with origin := origin, detail := detail }

@[simp] theorem attributes_mapAttributes (f : Attribute → Attribute)
    (d : Declaration) :
    (d.mapAttributes f).attributes = d.attributes.map f := by
  obtain ⟨_, _, _, _, detail⟩ := d
  cases detail <;> rfl

@[simp] theorem name_mapAttributes (f : Attribute → Attribute)
    (d : Declaration) :
    (d.mapAttributes f).name = d.name := by
  obtain ⟨_, _, _, _, detail⟩ := d
  cases detail <;> rfl

@[simp] theorem origin_mapAttributes (f : Attribute → Attribute)
    (d : Declaration) :
    (d.mapAttributes f).origin = d.origin := by
  obtain ⟨_, _, _, _, detail⟩ := d
  cases detail <;> rfl

@[simp] theorem definesName_header (d : Declaration) (o : Origin) :
    (d.header o).definesName = d.definesName := by
  obtain ⟨_, _, _, _, detail⟩ := d
  cases detail <;> rfl

end Declaration

/-- An `open` directive: `open Name;`, or `open Name as Alias;`. -/
structure Open where
  space : String
  asName : Option String
  span : Span
deriving Repr, DecidableEq

/-- A namespace block, or, with an empty name, what stands outside them. -/
structure Block where
  name : String
  doc : Doc
  opens : List Open
  decls : List Declaration
  span : Span
deriving Repr, DecidableEq

def Block.isEmpty (b : Block) : Bool := b.opens.isEmpty && b.decls.isEmpty

end Exemplar
