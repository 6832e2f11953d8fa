import Exemplar.Library
import Exemplar.View

/-!
# Assembling programs

A program is assembled from a library and from blocks: first the namespaces
of the references, then the blocks, each added to the namespace of its name.

Attributes are stored under the full name of the type they refer to from
their own block; an attribute that refers to none stays as it was written.
This is done in a second pass, once everything that a name might refer to is
in place. The first pass remembers where it put each block
(`Placement`); the second collects what is to be renamed, by position, and
renames afterwards (`Rename`).

The entry points are the compiled callables that carry the attribute
`Std.Core.EntryPoint`, read off the stretches that the blocks were put into.
-/

namespace Exemplar

def entryPointMark : QualifiedName := ⟨coreSpace, "EntryPoint"⟩

def Declaration.isEntryPoint (d : Declaration) : Bool :=
  d.callable?.any fun c => c.attributes.any fun a => a.name == entryPointMark

/-! ## Placing blocks -/

def linkedSpaces (library : Library) : List Namespace :=
  library.namespaces.foldl (fun nss ns =>
    contribute ns.name ns.doc ns.decls nss) []

/-- The namespaces of a library and of blocks, in the order in which their
names appear. -/
def placeBlocks (library : Library) (blocks : List Block) : List Namespace :=
  blocks.foldl (fun nss b => contribute b.name b.doc b.decls nss)
    (linkedSpaces library)

/-- The index of the first namespace with the given name, or the index that a
new one gets. -/
def spaceIndex (name : String) (nss : List Namespace) : Nat :=
  nss.findIdx fun ns => ns.name == name

def declsAt (space : Nat) (nss : List Namespace) : List Declaration :=
  nss[space]?.elim [] Namespace.decls

/-- Where a block was put: into which namespace, and from which of its
declarations on. -/
structure Placement where
  block : Block
  space : Nat
  first : Nat
deriving Repr, DecidableEq

/-- Where blocks go that are added to namespaces one after the other. -/
def placements : List Namespace → List Block → List Placement
  | _, [] => []
  | nss, b :: blocks =>
    let space := spaceIndex b.name nss
    ⟨b, space, (declsAt space nss).length⟩
      :: placements (contribute b.name b.doc b.decls nss) blocks

/-- The declarations that stand where the block was put. -/
def Placement.declsIn (p : Placement) (nss : List Namespace) :
    List Declaration :=
  ((declsAt p.space nss).drop p.first).take p.block.decls.length

/-! ## Renaming attributes -/

/-- A new name for an attribute, which is addressed by the indices of its
namespace, of its declaration there, and its own. -/
structure Rename where
  space : Nat
  decl : Nat
  position : Nat
  name : QualifiedName
deriving Repr, DecidableEq

/-- The full name of the type that an attribute refers to, unless it is
written that way. -/
def View.newName? (v : View) (a : Attribute) : Option QualifiedName :=
  (v.attributeName? a.name).filter fun name => name != a.name

/-- The rename for an attribute of the declaration at a position. -/
def attributeRename? (view : View) (space decl : Nat) :
    Attribute × Nat → Option Rename
  | (a, position) =>
      (view.newName? a).map fun name => ⟨space, decl, position, name⟩

/-- The renames for a block where it was put, as it sees the program. -/
def Placement.renames (program : Program) (p : Placement) : List Rename :=
  let view := View.ofBlock program p.block
  (p.block.decls.zipIdx p.first).flatMap fun (d, decl) =>
    d.attributes.zipIdx.filterMap (attributeRename? view p.space decl)

/-- Rename the addressed attribute of a declaration. -/
def Rename.inDecl (r : Rename) : Declaration → Declaration :=
  .updateAttributes fun attributes =>
    attributes.modify r.position fun a => { a with name := r.name }

/-- Rename the addressed attribute of a program. -/
def Rename.apply (r : Rename) (nss : List Namespace) : List Namespace :=
  nss.modify r.space fun ns =>
    { ns with decls := ns.decls.modify r.decl r.inDecl }

/-- The program of a library and of compiled blocks. -/
def assemble (library : Library) (blocks : List Block) : Program :=
  let placed := placements (linkedSpaces library) blocks
  let written : Program := ⟨placeBlocks library blocks, []⟩
  let renamed := (placed.flatMap (Placement.renames written)).foldl
    (fun nss r => r.apply nss) written.namespaces
  let compiled := placed.flatMap fun p => p.declsIn renamed
  ⟨renamed, (compiled.filter Declaration.isEntryPoint).map Declaration.name⟩

end Exemplar
