import Exemplar.Proofs.Example.Extension
import Exemplar.Proofs.Resolution

/-!
# Names in examples and in the merged program

Examples are compiled in one program and end up in another: the first holds
the headers of the host and what the examples declare (the *example build*),
the second the host itself and the same declarations, marked. The headline
`resolve?_agree` says that names mean the same in both.

Under each name, the two programs hold the same list but for what happens to
single declarations (`declsNamed_exampleBuild`, `declsNamed_merged`), so a
lookup finds the same place in both (`lookup?_exampleBuild`,
`lookup?_merged`). What is searched, and in which order, is the same as soon
as the two programs have the same namespaces. That needs a condition: a block
of the examples that declares nothing is a namespace of the example build and
not of the merged program, and opening it under a nickname hides a namespace
opened later under the same nickname.
-/

namespace Exemplar

/-! ## The declarations under a name -/

theorem declsNamed_map (f : Declaration → Declaration) (n : String)
    (nss : List Namespace) :
    declsNamed n (nss.map fun ns => { ns with decls := ns.decls.map f })
      = (declsNamed n nss).map f := by
  induction nss with
  | nil => rfl
  | cons ns nss ih =>
      rw [List.map_cons, declsNamed_cons, declsNamed_cons, List.map_append, ih]
      split <;> rfl

theorem Extends.declsNamed {added : String → List Declaration}
    {host result fresh : List Namespace} (hE : Extends added host result fresh)
    (hhost : (host.map Namespace.name).Nodup) (n : String) :
    declsNamed n result = declsNamed n host ++ added n := by
  by_cases hn : n ∈ host.map Namespace.name
  · have hresult := hE.nodup_names hhost
    obtain ⟨ns, hns, rfl⟩ := List.mem_map.mp hn
    have hmem : ns.append (added ns.name) ∈ result := by
      rw [hE.eq_append]
      exact List.mem_append_left _ (List.mem_map.mpr ⟨ns, hns, rfl⟩)
    rw [declsNamed_name hhost hns]
    exact declsNamed_name hresult hmem
  · have happend : Exemplar.declsNamed n (host.map fun ns =>
        ns.append (added ns.name)) = [] :=
      declsNamed_eq_nil (by rwa [names_map_append])
    have hsplit : Exemplar.declsNamed n result
        = Exemplar.declsNamed n (host.map fun ns => ns.append (added ns.name))
          ++ Exemplar.declsNamed n fresh := by
      rw [hE.eq_append]
      simp [Exemplar.declsNamed]
    rw [hsplit, happend, hE.declsNamed_fresh hn, declsNamed_eq_nil hn]

namespace Harvest

def origins (h : Harvest) : List Origin :=
  Origin.sorted (h.units.map SourceUnit.origin)

/-- What the generated units declare in a namespace, as it is compiled. -/
def generated (h : Harvest) (host : Program) (n : String) : List Declaration :=
  (h.parsed.filter fun p => p.1.name == n).map
    (Block.storedDecl (h.compiledIn host))

theorem generated_ne_nil_iff {h : Harvest} {host : Program} {n : String} :
    h.generated host n ≠ [] ↔ ∃ p ∈ h.parsed, p.1.name = n := by
  rw [generated, Ne, List.map_eq_nil_iff, List.filter_eq_nil_iff]
  simp

end Harvest

section Merged

variable {host : Program} {settings : Settings} {h : Harvest}

theorem namespaces_headerLibrary (host : Program) :
    host.headerLibrary.namespaces = host.namespaces.map Namespace.headers := by
  simp [Program.headerLibrary, Library.single, Library.namespaces]

theorem nodup_names_placeBlocks (library : Library) (blocks : List Block) :
    ((placeBlocks library blocks).map Namespace.name).Nodup :=
  nodup_names_foldl_contribute _ _ _ _ _
    (nodup_names_foldl_contribute _ _ _ _ _ List.nodup_nil)

theorem nodup_names_assemble (library : Library) (blocks : List Block) :
    ((assemble library blocks).namespaces.map Namespace.name).Nodup := by
  rw [assemble_eq]
  exact nodup_names_placeBlocks ..

theorem mem_names_assemble {n : String} {library : Library}
    {blocks : List Block} :
    n ∈ (assemble library blocks).namespaces.map Namespace.name
      ↔ n ∈ library.namespaces.map Namespace.name
        ∨ n ∈ blocks.map Block.name := by
  rw [assemble_eq]
  change n ∈ (placeBlocks library
    (blocks.map (Block.resolveAttributes (writtenProgram library blocks)))).map
      Namespace.name ↔ _
  rw [placeBlocks, mem_names_foldl_contribute, linkedSpaces,
    mem_names_foldl_contribute, List.map_map]
  simp only [List.map_nil, List.not_mem_nil, false_or]
  rfl

theorem units_of_merged (hrun : host.harvest settings = .ok h)
    (hmerged : h.status = .merged) :
    h.units = (Snippets.ofProgram settings host).toUnits host settings := by
  obtain rfl := eq_harvested_of_ok hrun
  exact (Program.harvested_of_merged hmerged).1

/-- The program the examples of a merged harvest were compiled in. -/
theorem exampleBuild_program_eq (hrun : host.harvest settings = .ok h)
    (hmerged : h.status = .merged) :
    (host.exampleBuild settings).program
      = assemble host.headerLibrary (h.units.flatMap fun u =>
        u.parse.blocks) := by
  rw [Program.exampleBuild_program, units_of_merged hrun hmerged]

theorem declsNamed_exampleBuild (hrun : host.harvest settings = .ok h)
    (hmerged : h.status = .merged) (n : String) :
    declsNamed n (host.exampleBuild settings).program.namespaces
      = (declsNamed n host.namespaces).map (fun d =>
        d.header d.origin.asReference)
        ++ h.generated host n := by
  rw [exampleBuild_program_eq hrun hmerged, declsNamed_assemble,
    namespaces_headerLibrary]
  exact congrArg (· ++ _) (declsNamed_map _ n host.namespaces)

theorem contains_origins_of_mem_decls {b : Block}
    (hb : b ∈ h.units.flatMap fun u => u.parse.blocks) {d : Declaration}
    (hd : d ∈ b.decls) :
    h.origins.contains d.origin = true := by
  obtain ⟨u, hu, hb⟩ := List.mem_flatMap.mp hb
  rw [origin_of_mem_decls hb hd, List.contains_iff_mem, Harvest.origins,
    Origin.mem_sorted]
  exact List.mem_map_of_mem hu

/-- No header comes from a generated unit. -/
theorem not_contains_origins_of_header (hrun : host.harvest settings = .ok h)
    (hmerged : h.status = .merged) {ns : Namespace}
    (hns : ns ∈ host.headerLibrary.namespaces) {d : Declaration}
    (hd : d ∈ ns.decls) : h.origins.contains d.origin = false := by
  have hreference := origin_of_mem_headerLibrary hns hd
  cases hc : h.origins.contains d.origin with
  | false => rfl
  | true =>
      rw [Harvest.origins, units_of_merged hrun hmerged] at hc
      rw [isSynthetic_of_contains_sorted hc] at hreference
      cases hreference

/-- What merging selects under a name is what the examples declare there. -/
theorem filter_exampleBuild (hrun : host.harvest settings = .ok h)
    (hmerged : h.status = .merged) (n : String) :
    (declsNamed n (host.exampleBuild settings).program.namespaces).filter
        (fun d => h.origins.contains d.origin)
      = h.generated host n := by
  rw [exampleBuild_program_eq hrun hmerged]
  exact filter_decls_assemble n
    (fun ns hns d hd => not_contains_origins_of_header hrun hmerged hns hd)
    (fun b hb d hd => contains_origins_of_mem_decls hb hd)

/-- A declaration of the merged program, as its marks make it. -/
def Harvest.mark (h : Harvest) (settings : Settings) (d : Declaration) :
    Declaration :=
  d.markTest h.origins settings.testMarks

theorem program_of_merged (hrun : host.harvest settings = .ok h)
    (hmerged : h.status = .merged) :
    h.program
      = (host.mergeFrom (host.exampleBuild settings).program
        h.origins).markTests
      h.origins settings.testMarks := by
  obtain rfl := eq_harvested_of_ok hrun
  obtain ⟨hunits, hprogram⟩ := Program.harvested_of_merged hmerged
  rw [hprogram, Harvest.origins, hunits]

/-- The merged program before its tests are marked extends the host by what
the examples declare. -/
theorem exists_extends (hnames : (host.namespaces.map Namespace.name).Nodup)
    (hrun : host.harvest settings = .ok h) (hmerged : h.status = .merged) :
    ∃ result fresh, Extends (h.generated host) host.namespaces result fresh
      ∧ h.program.namespaces
        = result.map fun ns =>
        { ns with decls := ns.decls.map (h.mark settings) } := by
  obtain ⟨fresh, hE⟩ :=
    extends_mergeFrom hnames (host.exampleBuild settings).program h.origins
  simp only [filter_exampleBuild hrun hmerged] at hE
  exact ⟨_, fresh, hE,
    congrArg Program.namespaces (program_of_merged hrun hmerged)⟩

theorem declsNamed_merged (hnames : (host.namespaces.map Namespace.name).Nodup)
    (hrun : host.harvest settings = .ok h) (hmerged : h.status = .merged)
    (n : String) :
    declsNamed n h.program.namespaces
      = (declsNamed n host.namespaces ++ h.generated host n).map
        (h.mark settings) := by
  obtain ⟨result, fresh, hE, hprogram⟩ := exists_extends hnames hrun hmerged
  rw [hprogram, declsNamed_map, hE.declsNamed hnames]

theorem names_merged (hnames : (host.namespaces.map Namespace.name).Nodup)
    (hrun : host.harvest settings = .ok h) (hmerged : h.status = .merged) :
    (h.program.namespaces.map Namespace.name).Nodup
      ∧ ∀ n, n ∈ h.program.namespaces.map Namespace.name
        ↔ n ∈ host.namespaces.map Namespace.name ∨ h.generated host n ≠ [] := by
  obtain ⟨result, fresh, hE, hprogram⟩ := exists_extends hnames hrun hmerged
  have hmap : h.program.namespaces.map Namespace.name
      = result.map Namespace.name := by
    rw [hprogram, List.map_map]
    rfl
  rw [hmap]
  refine ⟨hE.nodup_names hnames, fun n => ?_⟩
  constructor
  · intro hn
    rw [hE.names_eq] at hn
    rcases List.mem_append.mp hn with hn | hn
    · exact Or.inl hn
    · obtain ⟨ns, hns, rfl⟩ := List.mem_map.mp hn
      obtain ⟨hdecls, hne⟩ := hE.decls_eq ns hns
      exact Or.inr (hdecls ▸ hne)
  · rintro (hn | hn)
    · rw [hE.names_eq]
      exact List.mem_append_left _ hn
    · exact hE.covered n hn

/-! ## Lookups -/

theorem defines_header (name : String) (d : Declaration) (o : Origin) :
    (d.header o).defines name = d.defines name := by
  unfold Declaration.defines
  rw [Declaration.definesName_header]
  rfl

theorem defines_markTest (name : String) (d : Declaration)
    (origins : List Origin) (marks : List Attribute) :
    (d.markTest origins marks).defines name = d.defines name := by
  obtain ⟨full, doc, origin, span, detail⟩ := d
  unfold Declaration.markTest
  cases detail with
  | newtype | specialization => rfl
  | callable c =>
      dsimp only
      split <;> rfl

theorem lookup?_exampleBuild
    (hnames : (host.namespaces.map Namespace.name).Nodup)
    (hrun : host.harvest settings = .ok h) (hmerged : h.status = .merged)
    (q : QualifiedName) :
    (host.exampleBuild settings).program.lookup? q
      = ((host.lookup? q).map fun d => d.header d.origin.asReference).or
          ((h.generated host q.space).find? (Declaration.defines q.name)) := by
  have hbuild : ((host.exampleBuild settings).program.namespaces.map
      Namespace.name).Nodup := by
    rw [exampleBuild_program_eq hrun hmerged]
    exact nodup_names_assemble ..
  rw [Program.lookup?_eq_find? hbuild, Program.lookup?_eq_find? hnames,
    declsNamed_exampleBuild hrun hmerged, List.find?_append, List.find?_map]
  simp only [Function.comp_def, defines_header]

theorem lookup?_merged (hnames : (host.namespaces.map Namespace.name).Nodup)
    (hrun : host.harvest settings = .ok h) (hmerged : h.status = .merged)
    (q : QualifiedName) :
    h.program.lookup? q
      = ((host.lookup? q).or
          ((h.generated host q.space).find? (Declaration.defines q.name))).map
            (h.mark settings) := by
  rw [Program.lookup?_eq_find? (names_merged hnames hrun hmerged).1,
    Program.lookup?_eq_find? hnames, declsNamed_merged hnames hrun hmerged,
    List.find?_map, List.find?_append]
  simp only [Function.comp_def, Harvest.mark, defines_markTest]

/-! ## Interfaces -/

/-- What is declared as seen from outside: no attributes and no bodies. -/
def Detail.interface : Detail → Detail
  | .newtype underlying _ => .newtype underlying []
  | .callable c => .callable { c with attributes := [], body := none }
  | .specialization variant _ => .specialization variant none

/-- The same full name, kind and signature or underlying type. -/
def Declaration.SameInterface (d d' : Declaration) : Prop :=
  d.name = d'.name ∧ d.detail.interface = d'.detail.interface

theorem sameInterface_header (d : Declaration) (o : Origin) :
    (d.header o).SameInterface d := by
  obtain ⟨name, doc, origin, span, detail⟩ := d
  cases detail <;> exact ⟨rfl, rfl⟩

theorem sameInterface_markTest (d : Declaration) (origins : List Origin)
    (marks : List Attribute) : d.SameInterface (d.markTest origins marks) := by
  obtain ⟨name, doc, origin, span, detail⟩ := d
  unfold Declaration.markTest
  cases detail with
  | newtype | specialization => exact ⟨rfl, rfl⟩
  | callable c =>
      dsimp only
      split <;> exact ⟨rfl, rfl⟩

theorem Declaration.SameInterface.trans {d d' d'' : Declaration}
    (h : d.SameInterface d') (h' : d'.SameInterface d'') :
    d.SameInterface d'' :=
  ⟨h.1.trans h'.1, h.2.trans h'.2⟩

/-- One name, looked up on both sides. -/
theorem lookup?_agree (hnames : (host.namespaces.map Namespace.name).Nodup)
    (hrun : host.harvest settings = .ok h) (hmerged : h.status = .merged)
    (q : QualifiedName) :
    Option.Rel Declaration.SameInterface
      ((host.exampleBuild settings).program.lookup? q)
      (h.program.lookup? q) := by
  rw [lookup?_exampleBuild hnames hrun hmerged,
    lookup?_merged hnames hrun hmerged]
  cases host.lookup? q with
  | some d =>
      exact .some
        ((sameInterface_header d _).trans (sameInterface_markTest d _ _))
  | none =>
      cases (h.generated host q.space).find? (Declaration.defines q.name) with
      | some d => exact .some (sameInterface_markTest d _ _)
      | none => exact .none

theorem findSome?_rel {R : Declaration → Declaration → Prop}
    {f g : QualifiedName → Option Declaration}
    (h : ∀ q, Option.Rel R (f q) (g q)) :
    ∀ qs : List QualifiedName, Option.Rel R (qs.findSome? f) (qs.findSome? g)
  | [] => .none
  | q :: qs => by
      rw [List.findSome?_cons, List.findSome?_cons]
      have hq := h q
      generalize f q = x at hq
      generalize g q = y at hq
      cases hq with
      | some hR => exact .some hR
      | none => exact findSome?_rel h qs

/-! ## The headline -/

/-- If every new namespace of the example build holds a generated declaration,
both programs have the same namespaces. -/
theorem hasNamespace_agree (hnames : (host.namespaces.map Namespace.name).Nodup)
    (hrun : host.harvest settings = .ok h) (hmerged : h.status = .merged)
    (hfilled : ∀ ns ∈ (host.exampleBuild settings).program.namespaces,
      ns.name ∉ host.namespaces.map Namespace.name → ∃ d ∈ ns.decls,
      d.origin ∈ h.origins)
    (n : String) :
    (host.exampleBuild settings).program.hasNamespace n
      = h.program.hasNamespace n := by
  rw [Bool.eq_iff_iff, Program.hasNamespace_iff, Program.hasNamespace_iff,
    (names_merged hnames hrun hmerged).2]
  by_cases hn : n ∈ host.namespaces.map Namespace.name
  · refine ⟨fun _ => Or.inl hn, fun _ => ?_⟩
    rw [exampleBuild_program_eq hrun hmerged, mem_names_assemble,
      namespaces_headerLibrary, List.map_map]
    exact Or.inl hn
  · constructor
    · intro hmem
      obtain ⟨ns, hns, rfl⟩ := List.mem_map.mp hmem
      obtain ⟨d, hd, horigin⟩ := hfilled ns hns hn
      have hnodup : ((host.exampleBuild settings).program.namespaces.map
          Namespace.name).Nodup := by
        rw [exampleBuild_program_eq hrun hmerged]
        exact nodup_names_assemble ..
      rw [← declsNamed_name hnodup hns] at hd
      have hgenerated : d ∈ h.generated host ns.name := by
        rw [← filter_exampleBuild hrun hmerged]
        exact List.mem_filter.mpr ⟨hd, List.contains_iff_mem.mpr horigin⟩
      exact Or.inr (List.ne_nil_of_mem hgenerated)
    · rintro (hmem | hne)
      · exact absurd hmem hn
      · obtain ⟨p, hp, rfl⟩ := Harvest.generated_ne_nil_iff.mp hne
        obtain ⟨b, hb, hp⟩ := List.mem_flatMap.mp hp
        obtain ⟨d, -, rfl⟩ := List.mem_map.mp hp
        rw [exampleBuild_program_eq hrun hmerged, mem_names_assemble]
        exact Or.inr (List.mem_map_of_mem hb)

/-- **Names mean the same where examples are compiled and where they end up.**
When examples are merged into a host with distinct namespaces, they were
compiled in a program `build.program`; and if no new namespace of that program
is without a generated declaration, then from every generated block every path
finds a declaration in both programs or in neither, and the two have the same
name, kind and signature. -/
theorem resolve?_agree (hnames : (host.namespaces.map Namespace.name).Nodup)
    (hrun : host.harvest settings = .ok h) (hmerged : h.status = .merged) :
    ∃ build ws,
      Workspace.empty.buildExamples h.units host.headerLibrary
        = .ok (build, ws)
      ∧ ((∀ ns ∈ build.program.namespaces,
        ns.name ∉ host.namespaces.map Namespace.name →
            ∃ d ∈ ns.decls, d.origin ∈ build.origins) →
          ∀ b ∈ h.units.flatMap (fun u => u.parse.blocks), ∀ path,
            Option.Rel Declaration.SameInterface
              ((View.ofBlock build.program b).resolve? path)
              ((View.ofBlock h.program b).resolve? path)) := by
  have hunits := units_of_merged hrun hmerged
  have horigins : (h.units.map SourceUnit.origin).Nodup :=
    hunits ▸ Snippets.nodup_origins_toUnits _ host settings
  have hbuild := Workspace.buildExamples_empty
    (fun u hu => Snippets.exists_origin_of_mem_toUnits (hunits ▸ hu)) horigins
    (show host.headerLibrary.origins = [hostHeaders] from rfl)
  refine ⟨_, _, hbuild, fun hfilled b _ path => ?_⟩
  have hprogram : (Build.ofUnits host.headerLibrary
      (h.units.map fun u => (u.origin, u.parse))).program
        = (host.exampleBuild settings).program := by
    rw [hunits]
    rfl
  dsimp only at hfilled ⊢
  rw [hprogram] at hfilled ⊢
  rw [View.resolve?_eq_findSome?, View.resolve?_eq_findSome?,
    View.candidates_ofBlock fun o _ =>
    hasNamespace_agree hnames hrun hmerged hfilled o.space]
  exact findSome?_rel (fun q => lookup?_agree hnames hrun hmerged q) _

end Merged

/-- A host of one global operation, whose example calls it. -/
def hostWithGlobalExample : Program :=
  ⟨[⟨"", [],
      [⟨⟨"", "Flip"⟩,
        ["# Example", "```", "operation T() : Unit \x7b Flip(); \x7d", "```"],
        .primary "main.vl", .nowhere,
        .callable ⟨.operation, [], .builtin .unit, [], some []⟩⟩]⟩],
    []⟩

/-- The example stands in a namespace of its own, from which both programs
give the same for every path; `Flip` is the host's operation. -/
theorem resolve?_agree_global :
    ∃ h build ws, hostWithGlobalExample.harvest {} = .ok h
      ∧ Workspace.empty.buildExamples h.units
        hostWithGlobalExample.headerLibrary = .ok (build, ws)
      ∧ ∀ b ∈ h.units.flatMap (fun u => u.parse.blocks), ∀ path,
        Option.Rel Declaration.SameInterface
          ((View.ofBlock build.program b).resolve? path)
          ((View.ofBlock h.program b).resolve? path) := by
  have hrun : ((hostWithGlobalExample.harvest {}).toOption.bind fun h =>
      (Workspace.empty.buildExamples h.units
        hostWithGlobalExample.headerLibrary).toOption.map
        fun out => (h.status, decide (∀ ns ∈ out.1.program.namespaces,
          ns.name ∉ hostWithGlobalExample.namespaces.map Namespace.name →
            ∃ d ∈ ns.decls, d.origin ∈ out.1.origins)))
              = some (.merged, true) := by
    decide +kernel
  cases hh : hostWithGlobalExample.harvest {} with
  | error e =>
      rw [hh] at hrun
      cases hrun
  | ok h =>
      have hstatus : h.status = .merged := by
        rw [hh] at hrun
        obtain ⟨out, -, hout⟩ := Option.map_eq_some_iff.mp hrun
        exact (Prod.mk.inj hout).1
      obtain ⟨build, ws, hbuild, hagree⟩ :=
        resolve?_agree (by decide) hh hstatus
      refine ⟨h, build, ws, rfl, hbuild, hagree ?_⟩
      rw [hh] at hrun
      simp only [Except.toOption, Option.bind_some, hbuild, Option.map_some,
        Option.some.injEq, Prod.mk.injEq, decide_eq_true_eq] at hrun
      exact hrun.2

end Exemplar
