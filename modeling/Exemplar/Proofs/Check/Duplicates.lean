import Mathlib.Data.List.Nodup
import Exemplar.Check.Blocks
import Exemplar.Proofs.Resolution

/-!
# When no duplicate is reported

The search for names defined twice goes through a namespace once, with what
it has passed. It reports nothing exactly when a definition stands behind
another of its name only if it is a reference
(`Namespace.duplicates_eq_nil_iff`).

That condition is about pairs, so it can be taken apart along the way in which
namespaces are put together: headers in front, compiled declarations behind
them. Among compiled declarations it says that names are distinct, in whatever
order they stand, and between the two sides that no compiled declaration has
the name of a header (`pairwise_append_compiled`).

Names that are distinct are found alike in every order
(`find?_defines_perm`). What is reported, when something is, is read off in
`exists_of_mem_duplicates`.
-/

namespace Exemplar

/-- `d` may stand behind `e`: the two have different names, or `d` is a
reference. -/
def Declaration.MayFollow (e d : Declaration) : Prop :=
  e.name.name = d.name.name → d.origin.isReference = true

def Namespace.definitions (ns : Namespace) : List Declaration :=
  ns.decls.filter Declaration.definesName

/-- A definition is compared with what has been passed, and is then passed
itself. -/
theorem duplicatesAfter_cons (space : String) (earlier : List Declaration)
    (d : Declaration) (ds : List Declaration) :
    duplicatesAfter space earlier (d :: ds)
      = duplicatesAfter space earlier [d]
        ++ duplicatesAfter space (earlier ++ [d]) ds := by
  simp [duplicatesAfter]

theorem duplicatesAfter_singleton_eq_nil_iff (space : String)
    (earlier : List Declaration) (d : Declaration) :
    duplicatesAfter space earlier [d] = [] ↔ ∀ e ∈ earlier, e.MayFollow d := by
  rw [duplicatesAfter, duplicatesAfter, List.append_nil]
  cases hfind : earlier.find? fun e => e.name.name == d.name.name with
  | none =>
      refine ⟨fun _ e he heq => ?_, fun _ => rfl⟩
      exact absurd (by simpa using heq) (List.find?_eq_none.mp hfind e he)
  | some first =>
      have hname : first.name.name = d.name.name := by
        simpa using List.find?_some hfind
      cases href : d.origin.isReference with
      | true => exact ⟨fun _ e _ _ => href, fun _ => rfl⟩
      | false =>
          refine ⟨nofun, fun hall => ?_⟩
          have hfirst := hall first (List.mem_of_find?_eq_some hfind) hname
          rw [href] at hfirst
          cases hfirst

theorem duplicatesAfter_eq_nil_iff (space : String) :
    ∀ (ds earlier : List Declaration), duplicatesAfter space earlier ds = []
      ↔ (∀ e ∈ earlier, ∀ d ∈ ds, e.MayFollow d)
        ∧ ds.Pairwise Declaration.MayFollow
  | [], earlier => by simp [duplicatesAfter]
  | d :: ds, earlier => by
      rw [duplicatesAfter_cons, List.append_eq_nil_iff,
        duplicatesAfter_singleton_eq_nil_iff,
        duplicatesAfter_eq_nil_iff space ds, List.pairwise_cons]
      constructor
      · rintro ⟨hd, hmore, hds⟩
        refine ⟨fun e he d' hd' => ?_, fun d' hd' => hmore d (by simp) d' hd',
          hds⟩
        rcases List.mem_cons.mp hd' with rfl | hd'
        · exact hd e he
        · exact hmore e (List.mem_append_left _ he) d' hd'
      · rintro ⟨hearlier, hd, hds⟩
        refine ⟨fun e he => hearlier e he d (List.mem_cons_self ..),
          fun e he d' hd' => ?_, hds⟩
        rcases List.mem_append.mp he with he | he
        · exact hearlier e he d' (List.mem_cons_of_mem _ hd')
        · rw [List.mem_singleton.mp he]
          exact hd d' hd'

/-- Nothing is reported of a namespace exactly when each definition may stand
behind all before it. -/
theorem Namespace.duplicates_eq_nil_iff (ns : Namespace) :
    ns.duplicates = [] ↔ ns.definitions.Pairwise Declaration.MayFollow := by
  rw [duplicates, duplicatesAfter_eq_nil_iff]
  exact and_iff_right nofun

theorem Program.duplicates_eq_nil_iff (p : Program) :
    p.duplicates = []
      ↔ ∀ ns ∈ p.namespaces, ns.definitions.Pairwise Declaration.MayFollow := by
  rw [duplicates, List.flatMap_eq_nil_iff]
  simp only [Namespace.duplicates_eq_nil_iff]

/-- The same, for all that stands under each name. -/
theorem Program.duplicates_eq_nil_iff_declsNamed {p : Program}
    (hnames : (p.namespaces.map Namespace.name).Nodup) :
    p.duplicates = []
      ↔ ∀ n,
        ((declsNamed n p.namespaces).filter Declaration.definesName).Pairwise
          Declaration.MayFollow := by
  rw [duplicates_eq_nil_iff]
  constructor
  · intro h n
    by_cases hn : n ∈ p.namespaces.map Namespace.name
    · obtain ⟨ns, hns, rfl⟩ := List.mem_map.mp hn
      rw [declsNamed_name hnames hns]
      exact h ns hns
    · rw [declsNamed_eq_nil hn]
      exact .nil
  · intro h ns hns
    have hpairs := h ns.name
    rwa [declsNamed_name hnames hns] at hpairs

theorem mayFollow_iff_ne {e d : Declaration}
    (hd : d.origin.isReference = false) :
    e.MayFollow d ↔ e.name.name ≠ d.name.name := by
  unfold Declaration.MayFollow
  rw [hd]
  exact ⟨fun h heq => Bool.false_ne_true (h heq), fun h heq => absurd heq h⟩

/-- Headers and compiled declarations behind them. -/
theorem pairwise_append_compiled {headers compiled : List Declaration}
    (hcompiled : ∀ d ∈ compiled, d.origin.isReference = false) :
    (headers ++ compiled).Pairwise Declaration.MayFollow
      ↔ headers.Pairwise Declaration.MayFollow
        ∧ (compiled.map fun d => d.name.name).Nodup
        ∧ ∀ e ∈ headers, ∀ d ∈ compiled, e.name.name ≠ d.name.name := by
  have hpairs : compiled.Pairwise Declaration.MayFollow
      ↔ (compiled.map fun d => d.name.name).Nodup := by
    rw [List.Nodup, List.pairwise_map]
    exact List.Pairwise.iff_of_mem fun _ hd => mayFollow_iff_ne (hcompiled _ hd)
  rw [List.pairwise_append, hpairs]
  refine and_congr_right fun _ => and_congr_right fun _ => ?_
  exact forall₂_congr fun e _ => forall₂_congr fun d hd =>
    mayFollow_iff_ne (hcompiled d hd)

/-! ## Finding what is defined once -/

/-- Under distinct names, a definition is found under its own. -/
theorem find?_defines_of_nodup {ds : List Declaration} {d : Declaration}
    (hnodup : ((ds.filter Declaration.definesName).map fun d =>
    d.name.name).Nodup) (hd : d ∈ ds) (hdefines : d.definesName = true) :
    ds.find? (Declaration.defines d.name.name) = some d := by
  have hself : d.defines d.name.name = true := by
    simp [Declaration.defines, hdefines]
  cases hfind : ds.find? (Declaration.defines d.name.name) with
  | none => exact absurd hself (List.find?_eq_none.mp hfind d hd)
  | some e =>
      have he : e.defines d.name.name = true := List.find?_some hfind
      obtain ⟨hedefines, hname⟩ := Bool.and_eq_true_iff.mp he
      have hmem : e ∈ ds.filter Declaration.definesName :=
        List.mem_filter.mpr ⟨List.mem_of_find?_eq_some hfind, hedefines⟩
      have hinj := List.inj_on_of_nodup_map hnodup
      rw [hinj hmem (List.mem_filter.mpr ⟨hd, hdefines⟩) (by simpa using hname)]

/-- Distinct names are found alike in every order. -/
theorem find?_defines_perm {ds ds' : List Declaration} (hperm : ds.Perm ds')
    (hnodup : ((ds.filter Declaration.definesName).map
      fun d => d.name.name).Nodup) (name : String) :
    ds.find? (Declaration.defines name)
      = ds'.find? (Declaration.defines name) := by
  cases hfind : ds.find? (Declaration.defines name) with
  | none =>
      have hnone : ds'.find? (Declaration.defines name) = none := by
        rw [List.find?_eq_none] at hfind ⊢
        exact fun d hd => hfind d (hperm.mem_iff.mpr hd)
      rw [hnone]
  | some d =>
      have hd : d ∈ ds' := hperm.mem_iff.mp (List.mem_of_find?_eq_some hfind)
      have hdefines : d.defines name = true := List.find?_some hfind
      obtain ⟨hdefines, hname⟩ := Bool.and_eq_true_iff.mp hdefines
      have hnodup' := ((hperm.filter _).map _).nodup_iff.mp hnodup
      rw [← eq_of_beq hname, find?_defines_of_nodup hnodup' hd hdefines]

/-! ## What is reported -/

/-- A finding is about a compiled definition, and it shows the earlier one if
that has the same origin. -/
theorem exists_of_mem_duplicatesAfter {space : String} {f : Finding} :
    ∀ {ds earlier : List Declaration}, f ∈ duplicatesAfter space earlier ds →
      ∃ d ∈ ds, ∃ first ∈ earlier ++ ds, d.origin.isReference = false
        ∧ f = ⟨.duplicate d.name.name space
            (if first.origin = d.origin then some first.span else none),
            d.span, d.origin⟩
  | [], _, hf => nomatch hf
  | d :: ds, earlier, hf => by
      rw [duplicatesAfter, List.mem_append] at hf
      rcases hf with hf | hf
      · split at hf
        · cases hf
        · next first hfind =>
            split at hf
            · cases hf
            · next href =>
                refine ⟨d, List.mem_cons_self .., first, ?_,
                  Bool.eq_false_iff.mpr href, List.mem_singleton.mp hf⟩
                exact List.mem_append_left _ (List.mem_of_find?_eq_some hfind)
      · obtain ⟨d', hd', first, hfirst, hrest⟩ :=
          exists_of_mem_duplicatesAfter hf
        refine ⟨d', List.mem_cons_of_mem _ hd', first, ?_, hrest⟩
        rwa [List.append_assoc] at hfirst

theorem exists_of_mem_duplicates {p : Program} {f : Finding}
    (hf : f ∈ p.duplicates) :
    ∃ ns ∈ p.namespaces, ∃ d ∈ ns.decls, ∃ first ∈ ns.decls,
      d.origin.isReference = false
      ∧ f = ⟨.duplicate d.name.name ns.name
          (if first.origin = d.origin then some first.span else none), d.span,
          d.origin⟩ := by
  obtain ⟨ns, hns, hf⟩ := List.mem_flatMap.mp hf
  obtain ⟨d, hd, first, hfirst, hrest⟩ := exists_of_mem_duplicatesAfter hf
  exact ⟨ns, hns, d, (List.mem_filter.mp hd).1, first,
    (List.mem_filter.mp hfirst).1, hrest⟩

end Exemplar
