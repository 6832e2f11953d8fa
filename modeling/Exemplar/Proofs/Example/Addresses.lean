import Exemplar.Proofs.Check.Duplicates
import Exemplar.Proofs.Example.Capture

/-!
# Tests are found under their names

A harvest names its tests, and nothing checks that these names lead back to
them. It follows from a check made elsewhere: the examples were compiled
without errors against headers that hold every name of the host, so what they
define clashes neither with the host nor with itself (`nodup_generated`). Both
sides together stay free of clashes when they meet in the merged program
(`nodup_definedNames_merged`), where each definition is then the one that is
found under its name (`Program.lookup?_of_mem`).

A test stands in the namespace it is named for, because generated declarations
do (`space_of_mem_decls`); the host's own declarations are never tests.
-/

namespace Exemplar

/-! ## Programs without clashes -/

def Namespace.definedNames (ns : Namespace) : List String :=
  ns.definitions.map fun d => d.name.name

/-- Without clashes, a definition is what is found under its name. -/
theorem Program.lookup?_of_mem {p : Program}
    (hnames : (p.namespaces.map Namespace.name).Nodup) {ns : Namespace}
    (hns : ns ∈ p.namespaces) (hnodup : ns.definedNames.Nodup) {d : Declaration}
    (hd : d ∈ ns.decls) (hdefines : d.definesName = true)
    (hspace : d.name.space = ns.name) : p.lookup? d.name = some d := by
  rw [lookup?_eq_find? hnames, hspace, declsNamed_name hnames hns]
  exact find?_defines_of_nodup hnodup hd hdefines

theorem duplicates_of_clean {library : Library} {units : List SourceUnit}
    (h : (Build.ofSources library units).hasErrors = false) :
    (Build.ofSources library units).program.duplicates = [] := by
  rw [List.eq_nil_iff_forall_not_mem]
  intro f hf
  have hmem : f.toDiagnostic ∈ (Build.ofSources library units).diagnostics :=
    List.mem_append_right _ (List.mem_map_of_mem (List.mem_append_left _ hf))
  have hfalse := isError_of_mem_clean h hmem
  obtain ⟨ns, -, d, -, first, -, -, rfl⟩ := exists_of_mem_duplicates hf
  rw [Diagnostic.isError, Finding.severity_toDiagnostic] at hfalse
  cases hfalse

/-! ## Marks -/

theorem definesName_markTest (d : Declaration) (origins : List Origin)
    (marks : List Attribute) :
    (d.markTest origins marks).definesName = d.definesName := by
  obtain ⟨name, doc, origin, span, detail⟩ := d
  unfold Declaration.markTest
  cases detail with
  | newtype | specialization => rfl
  | callable c =>
      dsimp only
      split <;> rfl

theorem name_markTest (d : Declaration) (origins : List Origin)
    (marks : List Attribute) :
    (d.markTest origins marks).name = d.name :=
  (sameInterface_markTest d origins marks).1.symm

theorem isTest_markTest (d : Declaration) (origins : List Origin)
    (marks : List Attribute) :
    (d.markTest origins marks).isTest origins = d.isTest origins := by
  by_cases htest : d.isTest origins = true
  · obtain ⟨name, doc, origin, span, detail⟩ := d
    cases detail with
    | newtype | specialization => rfl
    | callable c =>
        rw [Declaration.markTest_of_isTest rfl htest]
        rfl
  · rw [Declaration.markTest_of_not_isTest htest]

/-- Of each mark, there is one alike in the end. -/
theorem exists_alike_addMissing {mark : Attribute} :
    ∀ {marks present : List Attribute}, mark ∈ marks →
      ∃ a ∈ addMissing present marks, a.alike mark = true
  | first :: marks, present, hmark => by
      have hstep : addMissing present (first :: marks)
          = addMissing (if present.any fun a => a.alike first then present
              else present ++ [first]) marks := rfl
      rw [hstep]
      rcases List.mem_cons.mp hmark with rfl | hmark
      · -- it is there now, and what is there stays
        obtain ⟨a, ha, halike⟩ :
          ∃ a ∈ (if present.any fun a => a.alike mark then present
            else present ++ [mark]), a.alike mark = true := by
          split
          · next hany => exact List.any_eq_true.mp hany
          · exact ⟨mark, by simp, by simp [Attribute.alike]⟩
        obtain ⟨added, heq, -⟩ :=
          addMissing_eq_append
            (if present.any fun a => a.alike mark then present
              else present ++ [mark]) marks
        exact ⟨a, heq ▸ List.mem_append_left _ ha, halike⟩
      · exact exists_alike_addMissing hmark

/-! ## The merged program -/

section Merged

variable {host : Program} {settings : Settings} {h : Harvest}

theorem clean_of_merged (hrun : host.harvest settings = .ok h)
    (hmerged : h.status = .merged) :
    (host.exampleBuild settings).hasErrors = false := by
  obtain rfl := eq_harvested_of_ok hrun
  unfold Program.harvested at hmerged
  dsimp only at hmerged
  split at hmerged
  · cases hmerged
  · split at hmerged
    · cases hmerged
    · next herr => exact Bool.eq_false_iff.mpr herr

/-- What is generated comes from a block of its namespace, in a generated
unit. -/
theorem exists_of_mem_generated {n : String} {d : Declaration}
    (hd : d ∈ h.generated host n) :
    ∃ p ∈ h.parsed, p.1.name = n
      ∧ d = Block.storedDecl (h.compiledIn host) p := by
  obtain ⟨p, hp, rfl⟩ := List.mem_map.mp hd
  obtain ⟨hmem, hname⟩ := List.mem_filter.mp hp
  exact ⟨p, hmem, by simpa using hname, rfl⟩

theorem mem_blocks_of_mem_parsed {p : Block × Declaration} (hp : p ∈ h.parsed) :
    p.1 ∈ h.units.flatMap (fun u => u.parse.blocks) ∧ p.2 ∈ p.1.decls := by
  obtain ⟨b, hb, hp⟩ := List.mem_flatMap.mp hp
  obtain ⟨d, hd, rfl⟩ := List.mem_map.mp hp
  exact ⟨hb, hd⟩

theorem origin_of_mem_generated {n : String} {d : Declaration}
    (hd : d ∈ h.generated host n) :
    d.origin ∈ h.origins := by
  obtain ⟨p, hp, -, rfl⟩ := exists_of_mem_generated hd
  obtain ⟨hb, hd⟩ := mem_blocks_of_mem_parsed hp
  rw [Block.storedDecl, Declaration.origin_mapAttributes]
  exact List.contains_iff_mem.mp (contains_origins_of_mem_decls hb hd)

theorem isSynthetic_of_mem_origins (hrun : host.harvest settings = .ok h)
    (hmerged : h.status = .merged) {o : Origin} (ho : o ∈ h.origins) :
    o.isSynthetic = true := by
  rw [Harvest.origins, units_of_merged hrun hmerged] at ho
  exact isSynthetic_of_contains_sorted (List.contains_iff_mem.mpr ho)

/-- What the examples define has distinct names, and none of them is the
host's. -/
theorem nodup_generated (hrun : host.harvest settings = .ok h)
    (hmerged : h.status = .merged) (n : String) :
    (((h.generated host n).filter Declaration.definesName).map fun d =>
      d.name.name).Nodup
      ∧ ∀ e ∈ (declsNamed n host.namespaces).filter Declaration.definesName,
        ∀ d ∈ (h.generated host n).filter Declaration.definesName,
          e.name.name ≠ d.name.name := by
  have hbuild : ((host.exampleBuild settings).program.namespaces.map
      Namespace.name).Nodup := by
    rw [exampleBuild_program_eq hrun hmerged]
    exact nodup_names_assemble ..
  have hpairs := (Program.duplicates_eq_nil_iff_declsNamed hbuild).mp
    (duplicates_of_clean (clean_of_merged hrun hmerged)) n
  have hcompiled : ∀ d ∈ (h.generated host n).filter Declaration.definesName,
      d.origin.isReference = false := by
    intro d hd
    have hsyn := isSynthetic_of_mem_origins hrun hmerged
      (origin_of_mem_generated (List.mem_filter.mp hd).1)
    rw [Origin.isSynthetic, beq_iff_eq] at hsyn
    rw [Origin.isReference, hsyn]
    rfl
  rw [declsNamed_exampleBuild hrun hmerged, List.filter_append,
    pairwise_append_compiled hcompiled] at hpairs
  obtain ⟨-, hnodup, happart⟩ := hpairs
  refine ⟨hnodup, fun e he d hd => ?_⟩
  -- the header of a definition defines the same name
  obtain ⟨he, hdefines⟩ := List.mem_filter.mp he
  have hheader : e.header e.origin.asReference
      ∈ ((declsNamed n host.namespaces).map fun d =>
        d.header d.origin.asReference).filter
          Declaration.definesName :=
    List.mem_filter.mpr ⟨List.mem_map.mpr ⟨e, he, rfl⟩,
      by rwa [Declaration.definesName_header]⟩
  exact happart _ hheader d hd

/-- **No clash in the merged program**, if the host has none. -/
theorem nodup_definedNames_merged
    (hnames : (host.namespaces.map Namespace.name).Nodup)
    (hunique : ∀ ns ∈ host.namespaces, ns.definedNames.Nodup)
    (hrun : host.harvest settings = .ok h) (hmerged : h.status = .merged)
    {ns : Namespace} (hns : ns ∈ h.program.namespaces) :
    ns.definedNames.Nodup := by
  have hdecls := declsNamed_merged hnames hrun hmerged ns.name
  rw [declsNamed_name (names_merged hnames hrun hmerged).1 hns] at hdecls
  have hmarked : ns.definedNames
      = ((declsNamed ns.name host.namespaces ++ h.generated host ns.name).filter
          Declaration.definesName).map fun d => d.name.name := by
    unfold Namespace.definedNames Namespace.definitions
    rw [hdecls, List.filter_map, List.map_map]
    simp only [Function.comp_def, Harvest.mark, definesName_markTest,
      name_markTest]
  have hold :
      (((declsNamed ns.name host.namespaces).filter Declaration.definesName).map
        fun d => d.name.name).Nodup := by
    by_cases hn : ns.name ∈ host.namespaces.map Namespace.name
    · obtain ⟨ns', hns', heq⟩ := List.mem_map.mp hn
      rw [← heq, declsNamed_name hnames hns']
      exact hunique ns' hns'
    · rw [declsNamed_eq_nil hn]
      exact List.nodup_nil
  obtain ⟨hnew, happart⟩ := nodup_generated hrun hmerged ns.name
  rw [hmarked, List.filter_append, List.map_append, List.nodup_append]
  refine ⟨hold, hnew, fun a ha b hb => ?_⟩
  obtain ⟨e, he, rfl⟩ := List.mem_map.mp ha
  obtain ⟨d, hd, rfl⟩ := List.mem_map.mp hb
  exact happart e he d hd

/-! ## Tests -/

theorem tests_of_merged (hrun : host.harvest settings = .ok h)
    (hmerged : h.status = .merged) :
    h.tests = h.program.tests h.origins := by
  have hmarks :
      ∀ (p : Program) (origins : List Origin) (marks : List Attribute),
        (p.markTests origins marks).tests origins = p.tests origins := by
    intro p origins marks
    have hdecls : (p.markTests origins marks).decls
        = p.decls.map fun d => d.markTest origins marks := by
      simp only [Program.decls, Program.markTests, List.flatMap_map,
        List.map_flatMap]
    rw [Program.tests, hdecls, List.filter_map, List.map_map]
    simp only [Function.comp_def, isTest_markTest, name_markTest, Program.tests]
  rw [program_of_merged hrun hmerged, hmarks]
  obtain rfl := eq_harvested_of_ok hrun
  unfold Harvest.origins
  unfold Program.harvested at hmerged ⊢
  dsimp only at hmerged ⊢
  split at hmerged
  · cases hmerged
  · next hempty =>
      split at hmerged
      · cases hmerged
      · next herr => rw [if_neg hempty, if_neg herr]

/-- A test of the merged program is an example's callable, marked. -/
theorem exists_parsed_of_isTest
    (hnames : (host.namespaces.map Namespace.name).Nodup)
    (hhost : ∀ ns ∈ host.namespaces, ∀ d ∈ ns.decls,
      d.origin.isSynthetic = false)
    (hrun : host.harvest settings = .ok h) (hmerged : h.status = .merged)
    {ns : Namespace} (hns : ns ∈ h.program.namespaces) {d : Declaration}
    (hd : d ∈ ns.decls) (htest : d.isTest h.origins = true) :
    ∃ p ∈ h.parsed, p.1.name = ns.name
      ∧ d = h.mark settings (Block.storedDecl (h.compiledIn host) p) := by
  rw [← declsNamed_name (names_merged hnames hrun hmerged).1 hns,
    declsNamed_merged hnames hrun hmerged] at hd
  obtain ⟨e, he, rfl⟩ := List.mem_map.mp hd
  rw [Harvest.mark, isTest_markTest] at htest
  rcases List.mem_append.mp he with he | he
  · obtain ⟨ns', hns', he⟩ := List.mem_flatMap.mp he
    have hsyn := isSynthetic_of_mem_origins hrun hmerged
      (List.contains_iff_mem.mp (Bool.and_eq_true_iff.mp htest).1)
    rw [hhost ns' (List.mem_filter.mp hns').1 e he] at hsyn
    cases hsyn
  · obtain ⟨p, hp, hname, rfl⟩ := exists_of_mem_generated he
    exact ⟨p, hp, hname, rfl⟩

theorem space_of_mem_parsed {p : Block × Declaration} (hp : p ∈ h.parsed)
    (hdefines : p.2.definesName = true) : p.2.name.space = p.1.name := by
  obtain ⟨hb, hd⟩ := mem_blocks_of_mem_parsed hp
  obtain ⟨u, -, hb⟩ := List.mem_flatMap.mp hb
  exact space_of_mem_decls hb hd hdefines

theorem callable_of_isTest {d : Declaration} {origins : List Origin}
    (htest : d.isTest origins = true) :
    ∃ c, d.detail = .callable c ∧ c.params = [] := by
  obtain ⟨-, hcallable⟩ := Bool.and_eq_true_iff.mp htest
  obtain ⟨name, doc, origin, span, detail⟩ := d
  cases detail with
  | newtype | specialization => cases hcallable
  | callable c => exact ⟨c, rfl, List.isEmpty_iff.mp hcallable⟩

theorem definesName_of_isTest {d : Declaration} {origins : List Origin}
    (htest : d.isTest origins = true) : d.definesName = true := by
  obtain ⟨c, hdetail, -⟩ := callable_of_isTest htest
  rw [Declaration.definesName, hdetail]

theorem name_mark_storedDecl (p : Block × Declaration) :
    (h.mark settings (Block.storedDecl (h.compiledIn host) p)).name
      = p.2.name := by
  rw [Harvest.mark, name_markTest, Block.storedDecl,
    Declaration.name_mapAttributes]

/-- A test is named for the namespace it stands in. -/
theorem space_of_isTest (hnames : (host.namespaces.map Namespace.name).Nodup)
    (hhost : ∀ ns ∈ host.namespaces, ∀ d ∈ ns.decls,
      d.origin.isSynthetic = false)
    (hrun : host.harvest settings = .ok h) (hmerged : h.status = .merged)
    {ns : Namespace} (hns : ns ∈ h.program.namespaces) {d : Declaration}
    (hd : d ∈ ns.decls) (htest : d.isTest h.origins = true) :
    d.name.space = ns.name := by
  have hdefines := definesName_of_isTest htest
  obtain ⟨p, hp, hname, rfl⟩ :=
    exists_parsed_of_isTest hnames hhost hrun hmerged hns hd htest
  have hstored : (Block.storedDecl (h.compiledIn host) p).definesName
      = p.2.definesName := by
    obtain ⟨b, full, doc, origin, span, detail⟩ := p
    cases detail <;> rfl
  rw [Harvest.mark, definesName_markTest, hstored] at hdefines
  rw [name_mark_storedDecl, space_of_mem_parsed hp hdefines, hname]

theorem nodup_tests (hnames : (host.namespaces.map Namespace.name).Nodup)
    (hhost : ∀ ns ∈ host.namespaces, ∀ d ∈ ns.decls,
      d.origin.isSynthetic = false)
    (hunique : ∀ ns ∈ host.namespaces, ns.definedNames.Nodup)
    (hrun : host.harvest settings = .ok h) (hmerged : h.status = .merged) :
    h.tests.Nodup := by
  have htests : h.tests = h.program.namespaces.flatMap fun ns =>
      (ns.decls.filter fun d => d.isTest h.origins).map Declaration.name := by
    rw [tests_of_merged hrun hmerged, Program.tests, Program.decls,
      List.filter_flatMap, List.map_flatMap]
  rw [htests, List.nodup_flatMap]
  constructor
  · -- within a namespace, by short names
    intro ns hns
    have hfilter : ns.decls.filter (fun d => d.isTest h.origins)
        = ns.definitions.filter fun d => d.isTest h.origins := by
      rw [Namespace.definitions, List.filter_filter]
      refine List.filter_congr fun d _ => ?_
      cases htest : d.isTest h.origins with
      | false => rfl
      | true => rw [definesName_of_isTest htest]; rfl
    refine .of_map QualifiedName.name ?_
    rw [hfilter, List.map_map]
    exact (List.filter_sublist.map _).nodup
      (nodup_definedNames_merged hnames hunique hrun hmerged hns)
  · -- between namespaces, by what they are named for
    have hspaces := (names_merged hnames hrun hmerged).1
    rw [List.Nodup, List.pairwise_map] at hspaces
    refine hspaces.imp_of_mem fun {ns ns'} hns hns' hne q hq hq' => hne ?_
    obtain ⟨d, hd, rfl⟩ := List.mem_map.mp hq
    obtain ⟨d', hd', hsame⟩ := List.mem_map.mp hq'
    obtain ⟨hd, htest⟩ := List.mem_filter.mp hd
    obtain ⟨hd', htest'⟩ := List.mem_filter.mp hd'
    rw [← space_of_isTest hnames hhost hrun hmerged hns hd htest, ← hsame]
    exact space_of_isTest hnames hhost hrun hmerged hns' hd' htest'

/-- A marked test has an attribute for each backend. -/
theorem exists_attribute_of_isTest {d : Declaration}
    (htest : d.isTest h.origins = true) {c : Callable}
    (hdetail : (h.mark settings d).detail = .callable c) {backend : String}
    (hbackend : backend ∈ settings.backends) :
    ∃ a ∈ c.attributes, a.name = .ofPath settings.testAttribute
      ∧ a.argument = some backend := by
  obtain ⟨c', hcallable, -⟩ := callable_of_isTest htest
  rw [Harvest.mark, Declaration.markTest_of_isTest hcallable htest] at hdetail
  obtain rfl := Detail.callable.inj hdetail
  have hmark :
      (⟨.ofPath settings.testAttribute, some backend, .nowhere⟩ : Attribute)
        ∈ settings.testMarks :=
    List.mem_map.mpr ⟨backend, hbackend, rfl⟩
  obtain ⟨a, ha, halike⟩ :
      ∃ a ∈ addMissing c'.attributes settings.testMarks, _ :=
    exists_alike_addMissing hmark
  obtain ⟨hname, hargument⟩ := Bool.and_eq_true_iff.mp halike
  exact ⟨a, ha, by simpa using hname, by simpa using hargument⟩

/-- **Tests are found under their names.** When examples are merged into a
host that has no clashes and nothing generated, the result has no clashes, no
two tests have one name, and looking up the name of a test in the result finds
that test: what an example declares under this name, a callable that takes
nothing, with its attributes changed only, and among these the test attribute
for each backend. All such callables of the examples are tests. -/
theorem harvest_addressable
    (hnames : (host.namespaces.map Namespace.name).Nodup)
    (hhost : ∀ ns ∈ host.namespaces, ∀ d ∈ ns.decls, d.origin.isSynthetic
      = false) (hunique : ∀ ns ∈ host.namespaces, ns.definedNames.Nodup)
    (hrun : host.harvest settings = .ok h) (hmerged : h.status = .merged) :
    (∀ ns ∈ h.program.namespaces, ns.definedNames.Nodup)
      ∧ h.tests.Nodup
      ∧ (∀ q ∈ h.tests, ∃ p ∈ h.parsed, ∃ d c,
        p.2.name = q ∧ h.program.lookup? q = some d
          ∧ d.withoutAttributes = p.2.withoutAttributes
          ∧ d.detail = .callable c ∧ c.params = []
          ∧ ∀ backend ∈ settings.backends, ∃ a ∈ c.attributes,
              a.name = .ofPath settings.testAttribute
                ∧ a.argument = some backend)
      ∧ ∀ p ∈ h.parsed, p.2.callable?.any Callable.takesNothing = true →
      p.2.name ∈ h.tests := by
  have hclashes : ∀ ns ∈ h.program.namespaces, ns.definedNames.Nodup :=
    fun ns hns => nodup_definedNames_merged hnames hunique hrun hmerged hns
  refine ⟨hclashes, nodup_tests hnames hhost hunique hrun hmerged,
    fun q hq => ?_,
    fun p hp hcallable => ?_⟩
  · rw [tests_of_merged hrun hmerged] at hq
    obtain ⟨d, hd, rfl⟩ := List.mem_map.mp hq
    obtain ⟨hd, htest⟩ := List.mem_filter.mp hd
    obtain ⟨ns, hns, hd⟩ := List.mem_flatMap.mp hd
    have hfound :=
      Program.lookup?_of_mem (names_merged hnames hrun hmerged).1 hns
        (hclashes ns hns) hd (definesName_of_isTest htest)
      (space_of_isTest hnames hhost hrun hmerged hns hd htest)
    obtain ⟨c, hdetail, hparams⟩ := callable_of_isTest htest
    obtain ⟨p, hp, -, rfl⟩ :=
      exists_parsed_of_isTest hnames hhost hrun hmerged hns hd htest
    refine ⟨p, hp, _, c, (name_mark_storedDecl p).symm, hfound, ?_,
      hdetail, hparams,
      fun backend hbackend => ?_⟩
    · exact (Declaration.harvested_markTest (h.compiledIn host) h.origins
        settings.testMarks p.1 p.2).same
    · rw [Harvest.mark, isTest_markTest] at htest
      exact exists_attribute_of_isTest htest hdetail hbackend
  · have hmem : h.mark settings (Block.storedDecl (h.compiledIn host) p)
        ∈ declsNamed p.1.name h.program.namespaces := by
      rw [declsNamed_merged hnames hrun hmerged]
      refine List.mem_map_of_mem
        (List.mem_append_right _ (List.mem_map_of_mem ?_))
      exact List.mem_filter.mpr ⟨hp, by simp⟩
    obtain ⟨ns, hns, hmem⟩ := List.mem_flatMap.mp hmem
    have htest :
        (h.mark settings (Block.storedDecl (h.compiledIn host) p)).isTest
          h.origins = true := by
      have horigin :=
        contains_origins_of_mem_decls (mem_blocks_of_mem_parsed hp).1
          (mem_blocks_of_mem_parsed hp).2
      rw [Harvest.mark, isTest_markTest]
      obtain ⟨b, full, doc, origin, span, detail⟩ := p
      cases detail with
      | newtype | specialization => cases hcallable
      | callable c => exact Bool.and_eq_true_iff.mpr ⟨horigin, hcallable⟩
    have hname : (h.mark settings (Block.storedDecl (h.compiledIn host) p)).name
        = p.2.name :=
      name_mark_storedDecl p
    rw [tests_of_merged hrun hmerged, ← hname]
    refine List.mem_map_of_mem (List.mem_filter.mpr ⟨?_, htest⟩)
    exact List.mem_flatMap.mpr ⟨ns, (List.mem_filter.mp hns).1, hmem⟩

end Merged

/-- One example, merged: `Demo.T` is its only test, and looking it up gives an
operation marked for both backends. -/
theorem harvest_addressable_flip :
    ∃ h, (hostWithExample "operation T() : Unit \x7b Flip(); \x7d").harvest {}
      = .ok h
      ∧ h.tests = [⟨"Demo", "T"⟩]
      ∧ ∃ d c, h.program.lookup? ⟨"Demo", "T"⟩ = some d ∧ d.detail = .callable c
        ∧ c.params = []
        ∧ ∀ backend ∈ ["Simulator", "ResourcesEstimator"], ∃ a ∈ c.attributes,
            a.name = ⟨"Std.Diagnostics", "Test"⟩
              ∧ a.argument = some backend := by
  have hrun :
      ((hostWithExample "operation T() : Unit \x7b Flip(); \x7d").harvest
        {}).toOption.map (fun h => (h.status, h.tests))
        = some (.merged, [⟨"Demo", "T"⟩]) := by decide +kernel
  cases hh : (hostWithExample "operation T() : Unit \x7b Flip(); \x7d").harvest
    {} with
  | error e =>
      rw [hh] at hrun
      cases hrun
  | ok h =>
      rw [hh] at hrun
      obtain ⟨hmerged, htests⟩ := Prod.mk.inj (Option.some.inj hrun)
      obtain ⟨-, -, hfound, -⟩ :=
        harvest_addressable (by decide) (by decide) (by decide) hh hmerged
      obtain ⟨p, -, d, c, -, hlookup, -, hdetail, hparams, hattributes⟩ :=
        hfound ⟨"Demo", "T"⟩ (by rw [htests]; exact List.mem_singleton_self _)
      have hname : QualifiedName.ofPath "Std.Diagnostics.Test"
          = ⟨"Std.Diagnostics", "Test"⟩ := by
        decide +kernel
      refine ⟨h, rfl, htests, d, c, hlookup, hdetail, hparams,
        fun backend hbackend => ?_⟩
      rw [← hname]
      exact hattributes backend hbackend

end Exemplar
