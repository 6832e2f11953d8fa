import Exemplar.Proofs.Example.Outcome
import Exemplar.Proofs.Grammar.BlockExtents
import Exemplar.Proofs.Placement

/-!
# A harvest extends its host

Merged examples are a conservative extension (`harvest_extends`): the host's
namespaces stay first, in order, each with its own declarations in front, and
what comes behind is exactly what the generated units declare. The argument
follows the passes, each of which copies the whole tree:

- *assembly* puts the blocks' declarations behind the headers of their
  namespace (`declsNamed_assemble`);
- *merging* keeps those from generated origins, which are the blocks' and
  never the headers' (`filter_decls_assemble`), and contributes them to the
  host (`extends_mergeFrom`);
- *marking* changes tests only, and the host has none (`Extends.mapDecls`).

What may happen to a declaration on its way is `Declaration.Harvested`: its
attributes are resolved and, on a test, followed by marks.
-/

namespace Exemplar

/-! ## Assembly -/

theorem declsNamed_placeBlocks (n : String) (library : Library)
    (blocks : List Block) :
    declsNamed n (placeBlocks library blocks)
      = declsNamed n library.namespaces
        ++ (blocks.filter fun b => b.name == n).flatMap Block.decls := by
  have hlinked := nodup_names_foldl_contribute Namespace.name Namespace.doc
    Namespace.decls library.namespaces [] List.nodup_nil
  rw [placeBlocks, linkedSpaces,
    declsNamed_foldl_contribute Block.name Block.doc Block.decls n
      blocks _ hlinked,
    declsNamed_foldl_contribute Namespace.name Namespace.doc Namespace.decls n _
      [] List.nodup_nil]
  rfl

/-- The program of a library and of blocks, with attributes as written. -/
def writtenProgram (library : Library) (blocks : List Block) : Program :=
  ⟨placeBlocks library blocks, []⟩

/-- A declaration of a block as assembly stores it. -/
def Block.storedDecl (program : Program) (p : Block × Declaration) :
    Declaration :=
  p.2.mapAttributes (View.ofBlock program p.1).resolveAttribute

def declsOfBlocks (blocks : List Block) : List (Block × Declaration) :=
  blocks.flatMap fun b => b.decls.map fun d => (b, d)

theorem declsNamed_assemble (n : String) (library : Library)
    (blocks : List Block) :
    declsNamed n (assemble library blocks).namespaces
      = declsNamed n library.namespaces
        ++ ((declsOfBlocks blocks).filter fun p => p.1.name == n).map
            (Block.storedDecl (writtenProgram library blocks)) := by
  have hblocks : ∀ (program : Program) (bs : List Block),
      ((bs.map (Block.resolveAttributes program)).filter fun b =>
        b.name == n).flatMap Block.decls
        = ((declsOfBlocks bs).filter fun p => p.1.name == n).map
          (Block.storedDecl program) := by
    intro program bs
    induction bs with
    | nil => rfl
    | cons b bs ih =>
        have hcons : declsOfBlocks (b :: bs) = (b.decls.map fun d => (b, d))
            ++ declsOfBlocks bs :=
          rfl
        rw [List.map_cons, hcons, List.filter_append, List.map_append, ← ih]
        by_cases hb : b.name = n
        · have hall :
              (b.decls.map fun d => (b, d)).filter (fun p => p.1.name == n)
                = b.decls.map fun d => (b, d) :=
            List.filter_eq_self.mpr (by simp [hb])
          rw [hall]
          simp [Block.resolveAttributes, hb, Function.comp_def,
            Block.storedDecl]
        · simp [Block.resolveAttributes, hb, List.filter_map, Function.comp_def]
  rw [assemble_eq]
  change declsNamed n (placeBlocks library
    (blocks.map (Block.resolveAttributes (writtenProgram library blocks)))) = _
  rw [declsNamed_placeBlocks, hblocks]

/-- Of an assembled namespace, generated origins select what the blocks
declare: headers are references and generated origins are not. -/
theorem filter_decls_assemble (n : String) {library : Library}
    {blocks : List Block} {origins : List Origin}
    (hlibrary : ∀ ns ∈ library.namespaces, ∀ d ∈ ns.decls,
      origins.contains d.origin = false)
    (hblocks : ∀ b ∈ blocks, ∀ d ∈ b.decls, origins.contains d.origin = true) :
    (declsNamed n (assemble library blocks).namespaces).filter
        (fun d => origins.contains d.origin)
      = ((declsOfBlocks blocks).filter fun p => p.1.name == n).map
          (Block.storedDecl (writtenProgram library blocks)) := by
  rw [declsNamed_assemble, List.filter_append]
  have hheaders : (declsNamed n library.namespaces).filter
      (fun d => origins.contains d.origin) = [] := by
    rw [List.filter_eq_nil_iff]
    intro d hd
    obtain ⟨ns, hns, hd⟩ := List.mem_flatMap.mp hd
    rw [hlibrary ns (List.mem_filter.mp hns).1 d hd]
    decide
  rw [hheaders, List.nil_append, List.filter_eq_self]
  intro d hd
  obtain ⟨⟨b, d'⟩, hp, rfl⟩ := List.mem_map.mp hd
  obtain ⟨b', hb', hd'⟩ := List.mem_flatMap.mp (List.mem_filter.mp hp).1
  obtain ⟨d'', hd'', heq⟩ := List.mem_map.mp hd'
  obtain ⟨rfl, rfl⟩ := Prod.mk.inj heq
  rw [Block.storedDecl, Declaration.origin_mapAttributes]
  exact hblocks b' hb' d'' hd''

/-! ## Merging -/

theorem mergeFrom_cons_of_nil {ns : Namespace} {origins : List Origin}
    (h : ns.declsFrom origins = []) (host : Program) (nss : List Namespace) :
    host.mergeFrom ⟨ns :: nss, []⟩ origins
      = host.mergeFrom ⟨nss, []⟩ origins := by
  simp only [Program.mergeFrom, List.foldl_cons, h]

theorem mergeFrom_cons_of_ne_nil {ns : Namespace} {origins : List Origin}
    (h : ns.declsFrom origins ≠ []) (host : Program) (nss : List Namespace) :
    host.mergeFrom ⟨ns :: nss, []⟩ origins
      = Program.mergeFrom
        ⟨contribute ns.name [] (ns.declsFrom origins) host.namespaces,
          host.entryPoints⟩ ⟨nss, []⟩ origins := by
  obtain ⟨d, ds, hcons⟩ := List.exists_cons_of_ne_nil h
  simp only [Program.mergeFrom, List.foldl_cons, hcons]

/-- What merging adds under a name: the selected declarations of the other
program's namespaces of that name. -/
theorem extends_mergeFrom {host : Program}
    (hhost : (host.namespaces.map Namespace.name).Nodup) (other : Program)
    (origins : List Origin) :
    ∃ fresh, Extends
      (fun n => (declsNamed n other.namespaces).filter fun d =>
        origins.contains d.origin)
      host.namespaces (host.mergeFrom other origins).namespaces fresh := by
  -- generalized over the namespaces merged so far, for the fold
  suffices h : ∀ (nss : List Namespace) (added : String → List Declaration)
      (result fresh : List Namespace),
      Extends added host.namespaces result fresh → ∃ fresh', Extends
        (fun n => added n ++ (declsNamed n nss).filter fun d =>
          origins.contains d.origin)
        host.namespaces
        (Program.mergeFrom ⟨result, host.entryPoints⟩ ⟨nss, []⟩
          origins).namespaces fresh' by
    obtain ⟨fresh, hE⟩ :=
      h other.namespaces _ _ _ (Extends.refl host.namespaces)
    exact ⟨fresh, hE⟩
  intro nss
  induction nss with
  | nil =>
      intro added result fresh hE
      exact ⟨fresh, by simpa [declsNamed, Program.mergeFrom] using hE⟩
  | cons ns nss ih =>
      intro added result fresh hE
      have hfilter : ∀ n, (declsNamed n (ns :: nss)).filter (fun d =>
        origins.contains d.origin)
          = (if ns.name = n then ns.declsFrom origins else [])
            ++ (declsNamed n nss).filter fun d =>
            origins.contains d.origin := by
        intro n
        rw [declsNamed_cons, List.filter_append]
        by_cases hn : ns.name = n
        · rw [if_pos hn, if_pos hn]
          rfl
        · rw [if_neg hn, if_neg hn]
          rfl
      simp only [hfilter, ← List.append_assoc]
      by_cases hgen : ns.declsFrom origins = []
      · rw [mergeFrom_cons_of_nil hgen]
        simp only [hgen, ite_self, List.append_nil]
        exact ih added result fresh hE
      · rw [mergeFrom_cons_of_ne_nil hgen]
        obtain ⟨fresh', hE'⟩ := hE.contribute hhost ns.name hgen
        exact ih _ _ fresh' hE'

/-! ## Marking -/

/-- A change to declarations that leaves the host's alone changes an
extension in its additions only. -/
theorem Extends.mapDecls {added : String → List Declaration}
    {host result fresh : List Namespace} (hE : Extends added host result fresh)
    {f : Declaration → Declaration}
    (hf : ∀ ns ∈ host, ∀ d ∈ ns.decls, f d = d) :
    Extends (fun n => (added n).map f) host
      (result.map fun ns => { ns with decls := ns.decls.map f })
      (fresh.map fun ns => { ns with decls := ns.decls.map f }) where
  eq_append := by
    rw [hE.eq_append, List.map_append, List.map_map]
    congr 1
    refine List.map_congr_left fun ns hns => ?_
    have hold : ns.decls.map f = ns.decls := by
      conv => rhs; rw [← List.map_id ns.decls]
      exact List.map_congr_left fun d hd => hf ns hns d hd
    simp only [Function.comp_apply, Namespace.append, List.map_append, hold]
  name_not_mem := by
    intro ns hns
    obtain ⟨ns', hns', rfl⟩ := List.mem_map.mp hns
    exact hE.name_not_mem ns' hns'
  decls_eq := by
    intro ns hns
    obtain ⟨ns', hns', rfl⟩ := List.mem_map.mp hns
    obtain ⟨heq, hne⟩ := hE.decls_eq ns' hns'
    exact ⟨congrArg (List.map f) heq, fun h => hne (List.map_eq_nil_iff.mp h)⟩
  nodup := by
    rw [List.map_map]
    exact hE.nodup
  covered := by
    intro n hn
    rw [List.map_map]
    exact hE.covered n fun h => hn (by rw [h]; rfl)

/-- Marks are appended, each at most once and in their order. -/
theorem addMissing_eq_append (present marks : List Attribute) :
    ∃ added, addMissing present marks = present ++ added
      ∧ added.Sublist marks := by
  unfold addMissing
  induction marks generalizing present with
  | nil => exact ⟨[], by simp, .slnil⟩
  | cons mark marks ih =>
      rw [List.foldl_cons]
      split
      · obtain ⟨added, heq, hsub⟩ := ih present
        exact ⟨added, heq, hsub.cons mark⟩
      · obtain ⟨added, heq, hsub⟩ := ih (present ++ [mark])
        exact ⟨mark :: added, by rw [heq, List.append_assoc]; rfl,
          hsub.cons_cons mark⟩

/-! ## What happens to a declaration -/

namespace Declaration

def withoutAttributes (d : Declaration) : Declaration :=
  match d.detail with
  | .newtype underlying _ => { d with detail := .newtype underlying [] }
  | .callable c => { d with detail := .callable { c with attributes := [] } }
  | .specialization .. => d

/-- `d'` is the declaration `d` of the block `b` after a harvest: nothing but
the attributes differs, those of `d` stand first, under the full names they
have in `b`, and marks follow only on a callable that takes nothing. -/
structure Harvested (program : Program) (marks : List Attribute) (b : Block)
    (d d' : Declaration) : Prop where
  same : d'.withoutAttributes = d.withoutAttributes
  attributes : ∃ added,
    d'.attributes = d.attributes.map (View.ofBlock program b).resolveAttribute
      ++ added
      ∧ added.Sublist marks
      ∧ (added ≠ [] → d.callable?.any Callable.takesNothing = true)

theorem markTest_of_isTest {d : Declaration} {c : Callable}
    {origins : List Origin} {marks : List Attribute}
    (hdetail : d.detail = .callable c) (h : d.isTest origins = true) :
    d.markTest origins marks
      = { d with
          detail := .callable
            { c with attributes := addMissing c.attributes marks } } := by
  obtain ⟨name, doc, origin, span, detail⟩ := d
  obtain rfl : detail = .callable c := hdetail
  exact if_pos h

theorem markTest_of_not_isTest {d : Declaration} {origins : List Origin}
    {marks : List Attribute} (h : ¬d.isTest origins = true) :
    d.markTest origins marks = d := by
  unfold markTest
  split
  · exact if_neg h
  · rfl
  · rfl

theorem harvested_markTest (program : Program) (origins : List Origin)
    (marks : List Attribute) (b : Block) (d : Declaration) :
    Harvested program marks b d
      ((Block.storedDecl program (b, d)).markTest origins marks) := by
  obtain ⟨name, doc, origin, span, detail⟩ := d
  cases detail with
  | newtype underlying attributes =>
      exact ⟨rfl, [], (List.append_nil _).symm, List.nil_sublist _,
        fun h => absurd rfl h⟩
  | specialization variant body =>
      exact ⟨rfl, [], rfl, List.nil_sublist _, fun h => absurd rfl h⟩
  | callable c =>
      by_cases htest : (Block.storedDecl program
          (b, ⟨name, doc, origin, span, .callable c⟩)).isTest origins = true
      · obtain ⟨added, heq, hsub⟩ := addMissing_eq_append
          (c.attributes.map (View.ofBlock program b).resolveAttribute) marks
        rw [markTest_of_isTest rfl htest]
        exact ⟨rfl, added, heq, hsub, fun _ =>
          (Bool.and_eq_true_iff.mp htest).2⟩
      · rw [markTest_of_not_isTest htest]
        exact ⟨rfl, [], (List.append_nil _).symm, List.nil_sublist _,
          fun h => absurd rfl h⟩

end Declaration

/-! ## The headline -/

/-- The declarations of the generated units, unit by unit, each with its
block. -/
def Harvest.parsed (h : Harvest) : List (Block × Declaration) :=
  declsOfBlocks (h.units.flatMap fun u => u.parse.blocks)

/-- The program that the generated units were compiled in, with attributes
as written. -/
def Harvest.compiledIn (h : Harvest) (host : Program) : Program :=
  writtenProgram host.headerLibrary (h.units.flatMap fun u => u.parse.blocks)

theorem Program.exampleBuild_program (host : Program) (settings : Settings) :
    (host.exampleBuild settings).program
      = assemble host.headerLibrary
          (((Snippets.ofProgram settings host).toUnits host settings).flatMap
            fun u => u.parse.blocks) := by
  simp only [exampleBuild, Build.ofUnits, List.flatMap_map]

/-- An origin of a generated unit is synthetic. -/
theorem isSynthetic_of_contains_sorted {s : Snippets} {host : Program}
    {settings : Settings} {o : Origin}
    (h :
      (Origin.sorted ((s.toUnits host settings).map SourceUnit.origin)).contains
      o = true) :
    o.isSynthetic = true := by
  rw [List.contains_iff_mem, Origin.mem_sorted] at h
  obtain ⟨u, hu, rfl⟩ := List.mem_map.mp h
  obtain ⟨space, hspace⟩ := Snippets.exists_origin_of_mem_toUnits hu
  rw [hspace]
  rfl

/-- The headers of a host are references, so no generated origin is among
theirs. -/
theorem origin_of_mem_headerLibrary {host : Program} {ns : Namespace}
    (hns : ns ∈ host.headerLibrary.namespaces) {d : Declaration}
    (hd : d ∈ ns.decls) :
    d.origin.isSynthetic = false := by
  have hmem : ns ∈ host.namespaces.map Namespace.headers := by
    simpa [Program.headerLibrary, Library.single, Library.namespaces] using hns
  obtain ⟨ns', -, rfl⟩ := List.mem_map.mp hmem
  obtain ⟨d', -, rfl⟩ := List.mem_map.mp hd
  rfl

theorem Program.harvested_of_merged {host : Program} {settings : Settings}
    (hmerged : (host.harvested settings).status = .merged) :
    let units := (Snippets.ofProgram settings host).toUnits host settings
    let origins := Origin.sorted (units.map SourceUnit.origin)
    (host.harvested settings).units = units
      ∧ (host.harvested settings).program
        = (host.mergeFrom (host.exampleBuild settings).program
          origins).markTests origins
            settings.testMarks := by
  unfold harvested at hmerged ⊢
  dsimp only at hmerged ⊢
  by_cases hempty :
    ((Snippets.ofProgram settings host).toUnits host settings).isEmpty = true
  · rw [if_pos hempty] at hmerged
    cases hmerged
  · rw [if_neg hempty] at hmerged ⊢
    by_cases herr : (host.exampleBuild settings).hasErrors = true
    · rw [if_pos herr] at hmerged
      cases hmerged
    · rw [if_neg herr]
      exact ⟨rfl, rfl⟩

/-- **A harvest extends its host.** When examples are merged, the entry points
are the host's, and for some `added` and `fresh` the namespaces are the
host's, each with `added` behind its own declarations, followed by the new and
non-empty `fresh` (`Extends`). What is added is what the generated units
declare: under each name the declarations of the blocks of that name, in
order, and altogether each of them once. Each is changed in its attributes
only (`Declaration.Harvested`). -/
theorem harvest_extends {host : Program} {settings : Settings} {h : Harvest}
    (hnames : (host.namespaces.map Namespace.name).Nodup)
    (hhost : ∀ ns ∈ host.namespaces, ∀ d ∈ ns.decls,
      d.origin.isSynthetic = false)
    (hrun : host.harvest settings = .ok h) (hmerged : h.status = .merged) :
    h.program.entryPoints = host.entryPoints
      ∧ ∃ (added : String → List Declaration) (fresh : List Namespace)
          (grow : Block × Declaration → Declaration),
        Extends added host.namespaces h.program.namespaces fresh
        ∧ (∀ p ∈ h.parsed, Declaration.Harvested (h.compiledIn host)
          settings.testMarks
            p.1 p.2 (grow p))
        ∧ (∀ n, added n = (h.parsed.filter fun p => p.1.name == n).map grow)
        ∧ (host.namespaces.flatMap (fun ns => added ns.name)
            ++ fresh.flatMap Namespace.decls).Perm (h.parsed.map grow) := by
  obtain rfl := eq_harvested_of_ok hrun
  obtain ⟨hunits, hprogram⟩ := Program.harvested_of_merged hmerged
  unfold Harvest.parsed Harvest.compiledIn
  rw [hunits, hprogram]
  generalize hus : (Snippets.ofProgram settings host).toUnits host settings
    = units
  let origins := Origin.sorted (units.map SourceUnit.origin)
  let blocks := units.flatMap fun u => u.parse.blocks
  -- generated origins are those of the blocks, and of nothing in the host
  have hgenerated : ∀ o, o.isSynthetic = false →
      origins.contains o = false := by
    intro o ho
    cases hc : origins.contains o with
    | false => rfl
    | true =>
        have hsyn : o.isSynthetic = true := by
          subst hus
          exact isSynthetic_of_contains_sorted hc
        rw [ho] at hsyn
        cases hsyn
  have hblocks : ∀ b ∈ blocks, ∀ d ∈ b.decls,
      origins.contains d.origin = true := by
    intro b hb d hd
    obtain ⟨u, hu, hb⟩ := List.mem_flatMap.mp hb
    rw [origin_of_mem_decls hb hd, List.contains_iff_mem, Origin.mem_sorted]
    exact List.mem_map_of_mem hu
  have hheaders : ∀ ns ∈ host.headerLibrary.namespaces, ∀ d ∈ ns.decls,
      origins.contains d.origin = false :=
    fun ns hns d hd => hgenerated _ (origin_of_mem_headerLibrary hns hd)
  refine ⟨rfl, ?_⟩
  obtain ⟨fresh, hmerge⟩ :=
    extends_mergeFrom hnames (host.exampleBuild settings).program origins
  have hmark :=
    hmerge.mapDecls (f := fun d => d.markTest origins settings.testMarks)
    fun ns hns d hd => Declaration.markTest_of_not_isTest
      (by rw [Declaration.isTest,
        hgenerated _ (hhost ns hns d hd)]; exact Bool.false_ne_true)
  have hadded : ∀ n,
    ((declsNamed n (host.exampleBuild settings).program.namespaces).filter
        fun d => origins.contains d.origin).map (fun d =>
        d.markTest origins settings.testMarks)
      = ((declsOfBlocks blocks).filter fun p => p.1.name == n).map fun p =>
          (Block.storedDecl (writtenProgram host.headerLibrary blocks)
            p).markTest origins
            settings.testMarks := by
    intro n
    rw [Program.exampleBuild_program, hus,
      filter_decls_assemble n hheaders hblocks, List.map_map]
    rfl
  exact ⟨_, _, _, hmark, fun p _ =>
    Declaration.harvested_markTest _ _ _ p.1 p.2, hadded,
      hmark.perm_added hnames hadded⟩

/-- One example is merged: its operation comes behind the one it documents,
and there is no further namespace. -/
theorem harvest_extends_flip :
    ∃ h added fresh,
      (hostWithExample "operation T() : Unit \x7b Flip(); \x7d").harvest {}
        = .ok h
        ∧ Extends added
          (hostWithExample "operation T() : Unit \x7b Flip(); \x7d").namespaces
            h.program.namespaces fresh
        ∧ (added "Demo" ++ fresh.flatMap Namespace.decls).length = 1 := by
  have hrun :
      ((hostWithExample "operation T() : Unit \x7b Flip(); \x7d").harvest
        {}).toOption.map (fun h => (h.status, h.parsed.length))
          = some (.merged, 1) := by decide +kernel
  cases hh : (hostWithExample "operation T() : Unit \x7b Flip(); \x7d").harvest
    {} with
  | error e =>
      rw [hh] at hrun
      cases hrun
  | ok h =>
      rw [hh] at hrun
      obtain ⟨hmerged, hlength⟩ := Prod.mk.inj (Option.some.inj hrun)
      obtain ⟨-, added, fresh, grow, hE, -, -, hperm⟩ :=
        harvest_extends (by decide) (by decide) hh hmerged
      refine ⟨h, added, fresh, rfl, hE, ?_⟩
      calc (added "Demo" ++ fresh.flatMap Namespace.decls).length
          = (h.parsed.map grow).length := by
            simpa [hostWithExample] using hperm.length_eq
        _ = 1 := by rw [List.length_map, hlength]

end Exemplar
