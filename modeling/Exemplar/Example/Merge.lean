import Exemplar.Library

/-!
# Headers and merging

Examples are compiled against the headers of their host: its declarations
without their implementations, as references. What was compiled from them is
then added to the host itself: generated declarations come after the existing
ones of their namespace, or in a new namespace at the end.
-/

namespace Exemplar

/-- The origin under which a host's headers are linked. -/
def hostHeaders : Origin := .reference "doctest-references.vlib"

/-- The namespace as declarations without implementations. -/
def Namespace.headers (ns : Namespace) : Namespace :=
  { ns with decls := ns.decls.map fun d => d.header d.origin.asReference }

def Program.headerLibrary (p : Program) : Library :=
  .single hostHeaders (p.namespaces.map Namespace.headers)

/-- The declarations of a namespace that come from the given origins. -/
def Namespace.declsFrom (ns : Namespace) (origins : List Origin) :
    List Declaration :=
  ns.decls.filter fun d => origins.contains d.origin

/-- The host with the declarations of another program that come from the
given origins. -/
def Program.mergeFrom (host other : Program) (origins : List Origin) :
    Program :=
  let namespaces := other.namespaces.foldl (fun nss ns =>
    match ns.declsFrom origins with
    | [] => nss
    | generated => contribute ns.name [] generated nss) host.namespaces
  ⟨namespaces, host.entryPoints⟩

end Exemplar
