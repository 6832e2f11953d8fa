import Exemplar.Program

/-!
# What a block sees

The declarations that the names in a namespace block refer to. A name without
dots is looked up in the block's own namespace, then in the namespaces it
opens, in order, then in `Std.Core`, and last among the global declarations.
A dotted name starts with a nickname given by `open .. as ..` or with the full
name of a namespace. Directives that open a namespace the program does not
have are passed over.
-/

namespace Exemplar

/-- The namespace every block sees without opening it. -/
def coreSpace : String := "Std.Core"

/-- A program as seen from a block. -/
structure View where
  program : Program
  space : String
  opens : List Open
deriving Repr, DecidableEq

namespace View

/-- The view from a block. -/
def ofBlock (program : Program) (block : Block) : View :=
  ⟨program, block.name, block.opens.filter fun o =>
    program.hasNamespace o.space⟩

/-- The namespaces a name without dots is looked up in, in order. -/
def searched (v : View) : List String :=
  v.space :: (v.opens.filter fun o => o.asName.isNone).map Open.space
    ++ [coreSpace, ""]

/-- The namespace a nickname stands for. -/
def nicknamed? (v : View) (nickname : String) : Option String :=
  (v.opens.find? fun o => o.asName == some nickname).map Open.space

def resolve? (v : View) (path : String) : Option Declaration :=
  match Chars.splitAtLast '.' path.toList with
  | none => v.searched.findSome? fun space => v.program.findIn? space path
  | some (front, back) =>
    let front := String.ofList front
    let name := String.ofList back
    ((v.nicknamed? front).bind fun space => v.program.findIn? space name).or
      (v.program.findIn? front name)

def attributeName? (v : View) (written : QualifiedName) :
    Option QualifiedName :=
  match v.resolve? written.path with
  | some d => if d.isType then some d.name else none
  | none => none

end View

end Exemplar
