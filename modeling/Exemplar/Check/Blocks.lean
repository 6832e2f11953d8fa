import Exemplar.Check.Body

/-!
# Checking blocks and programs

Two checks are made on a program. Over the whole of it, no namespace may
define a name twice, and a definition that comes after another of the same
name is reported unless it is a reference. In each block, what is opened must
exist, attributes and types must name types, a specialization must name an
operation, and bodies are checked.

References are trusted: they are looked up, and never checked.
-/

namespace Exemplar

/-! ## Names defined twice -/

/-- The definitions in a list that have the name of an earlier one, where
`earlier` stands before the list. Each is compared with the first definition
of its name. -/
def duplicatesAfter (space : String) (earlier : List Declaration) :
    List Declaration → List Finding
  | [] => []
  | d :: ds =>
    let clash :=
      match earlier.find? fun e => e.name.name == d.name.name with
      | none => []
      | some first =>
        if d.origin.isReference then []
        else
          let place := if first.origin = d.origin then some first.span else none
          [⟨.duplicate d.name.name space place, d.span, d.origin⟩]
    clash ++ duplicatesAfter space (earlier ++ [d]) ds

def Namespace.duplicates (ns : Namespace) : List Finding :=
  duplicatesAfter ns.name [] (ns.decls.filter Declaration.definesName)

/-- The names defined more than once in some namespace. -/
def Program.duplicates (p : Program) : List Finding :=
  p.namespaces.flatMap Namespace.duplicates

/-! ## Blocks -/

namespace Surroundings

def finding (around : Surroundings) (problem : Problem) (span : Span) :
    Finding :=
  ⟨problem, span, around.origin⟩

/-- The namespaces a block opens that the program does not have. -/
def checkOpens (around : Surroundings) (opens : List Open) : List Finding :=
  (opens.filter fun o => !around.view.program.hasNamespace o.space).map fun o =>
    around.finding (.unknownNamespace o.space) o.span

/-- The attributes that name no type. -/
def checkAttributes (around : Surroundings) (attributes : List Attribute) :
    List Finding :=
  (attributes.filter fun a => (around.view.attributeName? a.name).isNone).map
    fun a => around.finding (.unknownAttribute a.name.path) a.span

def namesType (around : Surroundings) (path : String) : Bool :=
  (around.view.resolve? path).any Declaration.isType

/-- The names in a type expression that name no type. -/
def checkType (around : Surroundings) (type : TypeExpr) (span : Span) :
    List Finding :=
  (type.names.filter fun name => !around.namesType name).map fun name =>
    around.finding (.unknownType name) span

/-- A callable: the types of its signature, then its body. -/
def checkCallable (around : Surroundings) (c : Callable) (span : Span) :
    List Finding :=
  c.params.flatMap (fun p => around.checkType p.type p.span)
    ++ around.checkType c.result span
    ++ (c.body.map (checkBody around c.params)).getD []

/-- A specialization: its operation, then its body under the parameters of
the operation. -/
def checkSpecialization (around : Surroundings) (d : Declaration)
    (variant : Variant) (body : Option (List Stmt)) : List Finding :=
  match around.view.program.lookup? d.name with
  | none => [around.finding (.noSuchOperation d.name.path) d.span]
  | some parent =>
    match parent.callable? with
    | none => [around.finding (.noSuchOperation d.name.path) d.span]
    | some c =>
      match c.kind with
      | .function =>
          [around.finding (.notAnOperation parent.name.path variant) d.span]
      | .operation => (body.map (checkBody around c.params)).getD []

/-- A declaration: its attributes, then the rest of it. -/
def checkDeclaration (around : Surroundings) (d : Declaration) : List Finding :=
  around.checkAttributes d.attributes
    ++ match d.detail with
      | .newtype underlying _ => around.checkType underlying d.span
      | .callable c => around.checkCallable c d.span
      | .specialization variant body =>
          around.checkSpecialization d variant body

end Surroundings

/-- What is wrong in a block of the given source, within a program. -/
def checkBlock (program : Program) (origin : Origin) (block : Block) :
    List Finding :=
  let around : Surroundings := ⟨.ofBlock program block, origin⟩
  around.checkOpens block.opens ++ block.decls.flatMap around.checkDeclaration

end Exemplar
