import Exemplar.Proofs.Contribution
import Exemplar.View

/-!
# Resolution as a search

Resolving a path means looking up one full name after another until one is
declared (`View.resolve?_eq_findSome?`). Which names those are, and in which
order, is `View.candidates`: it depends on the block and, through the
directives that are passed over, on which namespaces the program has, but not
on what these declare. So two programs with the same namespaces are searched
under the same names (`View.candidates_ofBlock`), and what a path refers to in
them differs only as far as their declarations do.

A lookup reads the declarations of one namespace (`Program.lookup?_eq_find?`),
in the form in which the assembly and the merging of programs are described.
-/

namespace Exemplar

/-! ## Looking up a full name -/

theorem Program.hasNamespace_iff {p : Program} {n : String} :
    p.hasNamespace n = true ↔ n ∈ p.namespaces.map Namespace.name := by
  simp [hasNamespace, namespace?]

def Declaration.defines (name : String) (d : Declaration) : Bool :=
  d.definesName && d.name.name == name

theorem Program.lookup?_eq_find? {p : Program}
    (h : (p.namespaces.map Namespace.name).Nodup) (q : QualifiedName) :
    p.lookup? q = (declsNamed q.space p.namespaces).find?
      (Declaration.defines q.name) := by
  unfold lookup? findIn?
  cases hns : p.namespace? q.space with
  | none =>
      have hnot : q.space ∉ p.namespaces.map Namespace.name := by
        rw [← hasNamespace_iff, hasNamespace, hns]
        exact Bool.false_ne_true
      rw [declsNamed_eq_nil hnot]
      rfl
  | some ns =>
      have hname : ns.name = q.space := by simpa using List.find?_some hns
      have hdecls := declsNamed_name h (List.mem_of_find?_eq_some hns)
      rw [← hname, hdecls]
      rfl

/-! ## The names a path is looked up under -/

namespace View

/-- The full names a path is looked up under, in order. -/
def candidates (v : View) (path : String) : List QualifiedName :=
  match Chars.splitAtLast '.' path.toList with
  | none => v.searched.map fun space => ⟨space, path⟩
  | some (front, back) =>
    let spaces := (v.nicknamed? (String.ofList front)).toList
      ++ [String.ofList front]
    spaces.map fun space => ⟨space, String.ofList back⟩

/-- **Resolving is searching**: the first candidate that is declared. -/
theorem resolve?_eq_findSome? (v : View) (path : String) :
    v.resolve? path = (v.candidates path).findSome? v.program.lookup? := by
  unfold resolve? candidates
  cases Chars.splitAtLast '.' path.toList with
  | none =>
      rw [List.findSome?_map]
      rfl
  | some cut =>
      obtain ⟨front, back⟩ := cut
      dsimp only
      rw [List.findSome?_map, List.findSome?_append]
      cases v.nicknamed? (String.ofList front) with
      | none => simp [Program.lookup?]
      | some space => simp [Program.lookup?]

/-- The candidates of a block depend on which of the namespaces it opens are
there. -/
theorem candidates_ofBlock {p q : Program} {b : Block}
    (h : ∀ o ∈ b.opens, p.hasNamespace o.space = q.hasNamespace o.space)
    (path : String) :
    (ofBlock p b).candidates path = (ofBlock q b).candidates path := by
  have hopens : (ofBlock p b).opens = (ofBlock q b).opens := List.filter_congr h
  unfold candidates searched nicknamed?
  rw [hopens]
  rfl

end View

end Exemplar
