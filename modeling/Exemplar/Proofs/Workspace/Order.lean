import Mathlib.Data.List.Perm.Basic
import Exemplar.Proofs.Check.Alike
import Exemplar.Proofs.Check.Duplicates
import Exemplar.Proofs.Example.Lookup
import Exemplar.Proofs.Workspace.History

/-!
# The order of units

A lookup takes the first declaration of a name, and namespaces are filled in
the order of the units, so the order might show everywhere. It does not, as
long as no name is defined twice, and whether one is does not depend on the
order either (`duplicates_assemble_eq_nil_iff`): headers stand first, and
among what is compiled the condition is that names are distinct.

Without clashes, the written programs of two orders are alike; then attributes
are stored under the same names, so the assembled programs are alike too
(`Unambiguous.alike_written`, `Unambiguous.alike_assemble`). Alike programs
give every block the same findings, and what remains of the order is the order
of the reports (`build_perm`).
-/

namespace Exemplar

/-! ## What blocks declare under a name -/

/-- What blocks declare in a namespace, each with its block. -/
def declaredUnder (n : String) (blocks : List Block) :
    List (Block × Declaration) :=
  (declsOfBlocks blocks).filter fun p => p.1.name == n

/-- The short names that blocks define in a namespace. -/
def definedUnder (n : String) (blocks : List Block) : List String :=
  ((declaredUnder n blocks).filter fun p => p.2.definesName).map
    fun p => p.2.name.name

/-- A way to store declarations that leaves alone what clashes are about. -/
structure KeepsNames (f : Block × Declaration → Declaration) : Prop where
  definesName : ∀ p, (f p).definesName = p.2.definesName
  name : ∀ p, (f p).name = p.2.name
  origin : ∀ p, (f p).origin = p.2.origin

theorem keepsNames_snd : KeepsNames Prod.snd :=
  ⟨fun _ => rfl, fun _ => rfl, fun _ => rfl⟩

theorem keepsNames_storedDecl (program : Program) :
    KeepsNames (Block.storedDecl program) where
  definesName := fun ⟨_, d⟩ => by
    obtain ⟨_, _, _, _, detail⟩ := d
    cases detail <;> rfl
  name := fun _ => Declaration.name_mapAttributes ..
  origin := fun _ => Declaration.origin_mapAttributes ..

section

variable {f : Block × Declaration → Declaration} {library : Library}
  {blocks blocks' : List Block} {n : String}

theorem KeepsNames.names_filter (hf : KeepsNames f)
    (ps : List (Block × Declaration)) :
    ((ps.map f).filter Declaration.definesName).map (fun d => d.name.name)
      = (ps.filter fun p => p.2.definesName).map fun p => p.2.name.name := by
  have hcomp : Declaration.definesName ∘ f = fun p => p.2.definesName :=
    funext hf.definesName
  rw [List.filter_map, hcomp, List.map_map]
  refine List.map_congr_left fun p _ => ?_
  rw [Function.comp_apply, hf.name]

theorem perm_declaredUnder (hperm : blocks.Perm blocks') (n : String) :
    (declaredUnder n blocks).Perm (declaredUnder n blocks') :=
  (hperm.flatMap_right _).filter _

theorem perm_definedUnder (hperm : blocks.Perm blocks') (n : String) :
    (definedUnder n blocks).Perm (definedUnder n blocks') :=
  ((perm_declaredUnder hperm n).filter _).map _

theorem declsNamed_written (n : String) (library : Library)
    (blocks : List Block) :
    declsNamed n (writtenProgram library blocks).namespaces
      = declsNamed n library.namespaces ++ (declaredUnder n blocks).map
        Prod.snd := by
  have hblocks : (blocks.filter fun b => b.name == n).flatMap Block.decls
      = (declaredUnder n blocks).map Prod.snd := by
    induction blocks with
    | nil => rfl
    | cons b bs ih =>
        have hcons : declaredUnder n (b :: bs)
            = (b.decls.map fun d => (b, d)).filter (fun p => p.1.name == n)
              ++ declaredUnder n bs := List.filter_append ..
        rw [hcons, List.map_append, ← ih, List.filter_map]
        by_cases hb : b.name = n <;> simp [hb, Function.comp_def]
  rw [← hblocks]
  exact declsNamed_placeBlocks n library blocks

theorem mem_names_placeBlocks :
    n ∈ (placeBlocks library blocks).map Namespace.name
      ↔ n ∈ library.namespaces.map Namespace.name
        ∨ n ∈ blocks.map Block.name := by
  rw [placeBlocks, mem_names_foldl_contribute, linkedSpaces,
    mem_names_foldl_contribute]
  simp only [List.map_nil, List.not_mem_nil, false_or]

/-! ## Clashes -/

/-- No name is defined twice, headers that repeat headers apart. -/
structure Unambiguous (library : Library) (blocks : List Block) : Prop where
  headers : ∀ n,
    ((declsNamed n library.namespaces).filter Declaration.definesName).Pairwise
      Declaration.MayFollow
  distinct : ∀ n, (definedUnder n blocks).Nodup
  apart : ∀ n,
    ∀ e ∈ (declsNamed n library.namespaces).filter Declaration.definesName,
      e.name.name ∉ definedUnder n blocks

/-- It does not matter in which order blocks come. -/
theorem Unambiguous.perm (h : Unambiguous library blocks)
    (hperm : blocks.Perm blocks') :
    Unambiguous library blocks' where
  headers := h.headers
  distinct := fun n => (perm_definedUnder hperm n).nodup_iff.mp (h.distinct n)
  apart := fun n e he hmem =>
    h.apart n e he ((perm_definedUnder hperm n).mem_iff.mpr hmem)

theorem mem_decls_of_mem_declaredUnder {p : Block × Declaration}
    (hp : p ∈ declaredUnder n blocks) : p.1 ∈ blocks ∧ p.2 ∈ p.1.decls := by
  obtain ⟨b, hb, hmem⟩ := List.mem_flatMap.mp (List.mem_filter.mp hp).1
  obtain ⟨d, hd, rfl⟩ := List.mem_map.mp hmem
  exact ⟨hb, hd⟩

/-- Clashes are reported exactly when there are any. -/
theorem duplicates_assemble_eq_nil_iff
    (hcompiled : ∀ b ∈ blocks, ∀ d ∈ b.decls, d.origin.isReference = false) :
    (assemble library blocks).duplicates = [] ↔ Unambiguous library blocks := by
  have hkeeps := keepsNames_storedDecl (writtenProgram library blocks)
  have hname : ∀ n, ((declsNamed n (assemble library blocks).namespaces).filter
      Declaration.definesName).Pairwise Declaration.MayFollow
        ↔ ((declsNamed n library.namespaces).filter
          Declaration.definesName).Pairwise
            Declaration.MayFollow
          ∧ (definedUnder n blocks).Nodup
          ∧ ∀ e ∈ (declsNamed n library.namespaces).filter
            Declaration.definesName,
              e.name.name ∉ definedUnder n blocks := by
    intro n
    have horigins : ∀ d ∈ ((declaredUnder n blocks).map
        (Block.storedDecl (writtenProgram library blocks))).filter
          Declaration.definesName, d.origin.isReference = false := by
      intro d hd
      obtain ⟨p, hp, rfl⟩ := List.mem_map.mp (List.mem_filter.mp hd).1
      obtain ⟨hb, hd⟩ := mem_decls_of_mem_declaredUnder hp
      rw [hkeeps.origin]
      exact hcompiled p.1 hb p.2 hd
    have hnames := hkeeps.names_filter (declaredUnder n blocks)
    rw [declsNamed_assemble, List.filter_append]
    refine (pairwise_append_compiled horigins).trans ?_
    rw [hnames]
    refine and_congr_right fun _ => and_congr_right fun _ =>
      forall₂_congr fun e _ => ?_
    have hmem : e.name.name ∈ definedUnder n blocks
      ↔ ∃ d ∈ ((declaredUnder n blocks).map
        (Block.storedDecl (writtenProgram library blocks))).filter
          Declaration.definesName, d.name.name = e.name.name := by
      rw [definedUnder, ← hnames, List.mem_map]
    rw [hmem]
    exact ⟨fun h ⟨d, hd, heq⟩ => h d hd heq.symm,
      fun h d hd heq => h ⟨d, hd, heq.symm⟩⟩
  rw [Program.duplicates_eq_nil_iff_declsNamed
    (nodup_names_assemble library blocks)]
  constructor
  · intro h
    exact ⟨fun n => ((hname n).mp (h n)).1, fun n => ((hname n).mp (h n)).2.1,
      fun n => ((hname n).mp (h n)).2.2⟩
  · intro h n
    exact (hname n).mpr ⟨h.headers n, h.distinct n, h.apart n⟩

/-! ## Two orders of blocks -/

/-- Programs in which headers come first and the same declarations behind
them, under distinct names. -/
theorem lookup?_eq_of_perm {p q : Program} (hf : KeepsNames f)
    (hblocks : ∀ n, (definedUnder n blocks).Nodup) (hperm : blocks.Perm blocks')
    (hp : (p.namespaces.map Namespace.name).Nodup)
    (hq : (q.namespaces.map Namespace.name).Nodup)
    (hpdecls : ∀ n, declsNamed n p.namespaces
      = declsNamed n library.namespaces ++ (declaredUnder n blocks).map f)
    (hqdecls : ∀ n, declsNamed n q.namespaces
      = declsNamed n library.namespaces ++ (declaredUnder n blocks').map f) :
    p.lookup? = q.lookup? := by
  funext name
  have hnodup : ((((declaredUnder name.space blocks).map f).filter
      Declaration.definesName).map fun d => d.name.name).Nodup := by
    rw [hf.names_filter]
    exact hblocks name.space
  have hfind := find?_defines_perm ((perm_declaredUnder hperm name.space).map f)
    hnodup name.name
  rw [Program.lookup?_eq_find? hp, Program.lookup?_eq_find? hq,
    hpdecls, hqdecls, List.find?_append, List.find?_append, hfind]

theorem hasNamespace_eq_of_mem {p q : Program}
    (h : ∀ n, n ∈ p.namespaces.map Namespace.name
      ↔ n ∈ q.namespaces.map Namespace.name) :
    p.hasNamespace = q.hasNamespace := by
  funext n
  rw [Bool.eq_iff_iff, Program.hasNamespace_iff, Program.hasNamespace_iff]
  exact h n

theorem Unambiguous.alike_written (h : Unambiguous library blocks)
    (hperm : blocks.Perm blocks') :
    (writtenProgram library blocks).Alike (writtenProgram library blocks') where
  hasNamespace := hasNamespace_eq_of_mem fun _ =>
    mem_names_placeBlocks.trans ((or_congr_right (hperm.map _).mem_iff).trans
      mem_names_placeBlocks.symm)
  lookup? := lookup?_eq_of_perm keepsNames_snd h.distinct hperm
    (nodup_names_placeBlocks ..) (nodup_names_placeBlocks ..)
      (declsNamed_written · library blocks)
    (declsNamed_written · library blocks')

/-- In both orders, declarations are stored alike. -/
theorem Unambiguous.declsNamed_assemble_perm (h : Unambiguous library blocks)
    (hperm : blocks.Perm blocks') (n : String) :
    declsNamed n (assemble library blocks').namespaces
      = declsNamed n library.namespaces
        ++ (declaredUnder n blocks').map
          (Block.storedDecl (writtenProgram library blocks)) := by
  have hstored : Block.storedDecl (writtenProgram library blocks)
      = Block.storedDecl (writtenProgram library blocks') := by
    funext p
    rw [Block.storedDecl, Block.storedDecl,
      (h.alike_written hperm).resolveAttribute_eq]
  rw [hstored]
  exact declsNamed_assemble n library blocks'

theorem mem_names_assemble_perm (hperm : blocks.Perm blocks') (n : String) :
    n ∈ (assemble library blocks).namespaces.map Namespace.name
      ↔ n ∈ (assemble library blocks').namespaces.map Namespace.name :=
  mem_names_assemble.trans
    ((or_congr_right (hperm.map _).mem_iff).trans mem_names_assemble.symm)

theorem Unambiguous.alike_assemble (h : Unambiguous library blocks)
    (hperm : blocks.Perm blocks') :
    (assemble library blocks).Alike (assemble library blocks') where
  hasNamespace := hasNamespace_eq_of_mem (mem_names_assemble_perm hperm)
  lookup? := lookup?_eq_of_perm (keepsNames_storedDecl _) h.distinct hperm
    (nodup_names_assemble ..) (nodup_names_assemble ..)
      (declsNamed_assemble · library blocks)
    (h.declsNamed_assemble_perm hperm)

end

/-! ## Two orders of units -/

theorem Finding.code_toDiagnostic (f : Finding) :
    f.toDiagnostic.code = some f.problem.code := by
  unfold toDiagnostic Problem.addContext
  split <;> rfl

/-- What is wrong with a text has one of two codes. -/
theorem code_of_mem_parse {u : SourceUnit} {d : Diagnostic}
    (hd : d ∈ u.parse.diagnostics) :
    d.code = some "E0001" ∨ d.code = some "E0100" := by
  obtain ⟨error, herror, rfl⟩ := List.mem_map.mp hd
  rcases List.mem_append.mp herror with herror | herror
  · obtain ⟨e, -, rfl⟩ := List.mem_map.mp herror
    exact Or.inl rfl
  · obtain ⟨f, -, rfl⟩ := List.mem_map.mp herror
    exact Or.inr rfl

namespace Build

variable {library : Library} {units units' : List SourceUnit}

theorem program_ofSources (library : Library) (units : List SourceUnit) :
    (ofSources library units).program
      = assemble library (units.flatMap fun u => u.parse.blocks) := by
  simp only [ofSources, ofUnits, List.flatMap_map]

/-- The reports about texts, and those about blocks without errors. -/
theorem diagnostics_ofSources (library : Library) (units : List SourceUnit) :
    (ofSources library units).diagnostics
      = units.flatMap (fun u => u.parse.diagnostics)
        ++ ((ofSources library units).program.duplicates
          ++ (units.filter fun u => u.parse.isClean).flatMap fun u =>
              u.parse.blocks.flatMap
                (checkBlock (ofSources library units).program u.origin)).map
            Finding.toDiagnostic := by
  simp only [ofSources, ofUnits, List.flatMap_map, List.filter_map,
    Function.comp_def]

theorem mem_diagnostics_of_mem_duplicates {f : Finding}
    (hf : f ∈ (ofSources library units).program.duplicates) :
    f.toDiagnostic ∈ (ofSources library units).diagnostics := by
  rw [diagnostics_ofSources]
  exact List.mem_append_right _
    (List.mem_map_of_mem (List.mem_append_left _ hf))

theorem hasErrors_of_duplicates
    (h : (ofSources library units).program.duplicates ≠ []) :
    (ofSources library units).hasErrors = true := by
  obtain ⟨f, hf⟩ := List.exists_mem_of_ne_nil _ h
  refine List.any_eq_true.mpr ⟨_, mem_diagnostics_of_mem_duplicates hf, ?_⟩
  obtain ⟨ns, -, d, -, first, -, -, rfl⟩ := exists_of_mem_duplicates hf
  rw [Diagnostic.isError, Finding.severity_toDiagnostic]
  rfl

theorem duplicates_of_not_code
    (h : ∀ d ∈ (ofSources library units).diagnostics, d.code ≠ some "E0201") :
    (ofSources library units).program.duplicates = [] := by
  rw [List.eq_nil_iff_forall_not_mem]
  intro f hf
  refine h _ (mem_diagnostics_of_mem_duplicates hf) ?_
  obtain ⟨ns, -, d, -, first, -, -, rfl⟩ := exists_of_mem_duplicates hf
  rw [Finding.code_toDiagnostic]
  rfl

theorem duplicates_ofSources_iff
    (hunits : ∀ u ∈ units, u.origin.isReference = false) :
    (ofSources library units).program.duplicates = []
      ↔ Unambiguous library (units.flatMap fun u => u.parse.blocks) := by
  rw [program_ofSources]
  refine duplicates_assemble_eq_nil_iff fun b hb d hd => ?_
  obtain ⟨u, hu, hb⟩ := List.mem_flatMap.mp hb
  rw [origin_of_mem_decls hb hd]
  exact hunits u hu

/-- Without clashes, the reports are the same but for their order. -/
theorem perm_diagnostics
    (h : Unambiguous library (units.flatMap fun u => u.parse.blocks))
    (hunits : ∀ u ∈ units, u.origin.isReference = false)
    (hperm : units.Perm units') :
    (ofSources library units).diagnostics.Perm
      (ofSources library units').diagnostics := by
  have hblocks := hperm.flatMap_right fun u => u.parse.blocks
  have hunits' : ∀ u ∈ units', u.origin.isReference = false :=
    fun u hu => hunits u (hperm.mem_iff.mpr hu)
  have hcheck : checkBlock (ofSources library units').program
      = checkBlock (ofSources library units).program := by
    rw [program_ofSources, program_ofSources,
      (h.alike_assemble hblocks).checkBlock_eq]
  rw [diagnostics_ofSources, diagnostics_ofSources,
    (duplicates_ofSources_iff hunits).mpr h,
    (duplicates_ofSources_iff hunits').mpr (h.perm hblocks), hcheck]
  exact (hperm.flatMap_right _).append
    (((hperm.filter _).flatMap_right _).map _)

theorem hasErrors_perm (hunits : ∀ u ∈ units, u.origin.isReference = false)
    (hperm : units.Perm units') :
    (ofSources library units).hasErrors
      = (ofSources library units').hasErrors := by
  have hblocks := hperm.flatMap_right fun u => u.parse.blocks
  have hunits' : ∀ u ∈ units', u.origin.isReference = false :=
    fun u hu => hunits u (hperm.mem_iff.mpr hu)
  by_cases h : Unambiguous library (units.flatMap fun u => u.parse.blocks)
  · exact (perm_diagnostics h hunits hperm).any_eq
  · -- a clash is an error, and there is one in both orders
    have hclash := mt (duplicates_ofSources_iff hunits).mp h
    have hclash' := mt (duplicates_ofSources_iff hunits').mp fun h' =>
      h (h'.perm hblocks.symm)
    rw [hasErrors_of_duplicates hclash, hasErrors_of_duplicates hclash']

/-- Without clashes, namespaces hold the same but for its order. -/
theorem perm_decls
    (h : Unambiguous library (units.flatMap fun u => u.parse.blocks))
    (hperm : units.Perm units') {ns ns' : Namespace}
    (hns : ns ∈ (ofSources library units).program.namespaces)
    (hns' : ns' ∈ (ofSources library units').program.namespaces)
    (hname : ns.name = ns'.name) :
    ns.decls.Perm ns'.decls := by
  have hblocks := hperm.flatMap_right fun u => u.parse.blocks
  rw [program_ofSources] at hns hns'
  rw [← declsNamed_name (nodup_names_assemble ..) hns,
    ← declsNamed_name (nodup_names_assemble ..) hns', ← hname,
    declsNamed_assemble, h.declsNamed_assemble_perm hblocks]
  exact ((perm_declaredUnder hblocks _).map _).append_left _

/-- What is reported, in short: about which source, under which code. -/
def reports (b : Build) : List (Option Origin × Option String) :=
  b.diagnostics.map fun d => (d.origin, d.code)

theorem code_ne_of_reports {b : Build}
    {rs : List (Option Origin × Option String)} {code : String}
    (hreports : b.reports = rs) (hrs : ∀ r ∈ rs, r.2 ≠ some code) :
    ∀ d ∈ b.diagnostics, d.code ≠ some code := by
  intro d hd
  have hmem : (d.origin, d.code) ∈ b.reports := List.mem_map_of_mem hd
  rw [hreports] at hmem
  exact hrs _ hmem

theorem perm_names (library : Library) (hperm : units.Perm units') :
    ((ofSources library units).program.namespaces.map Namespace.name).Perm
      ((ofSources library units').program.namespaces.map Namespace.name) := by
  rw [program_ofSources, program_ofSources,
    List.perm_ext_iff_of_nodup (nodup_names_assemble ..)
      (nodup_names_assemble ..)]
  exact mem_names_assemble_perm (hperm.flatMap_right _)

end Build

namespace Workspace

/-- Units that a new workspace accepts after a library. -/
theorem follows_of_accepted {library : Library} {units : List SourceUnit}
    {putOff : Bool} {ws : Workspace}
    (h : (empty.link library >>= fun new => new.add units putOff) = .ok ws) :
    Ledger.Apart ⟨units, library⟩ ∧ ws.Follows ⟨units, library⟩ := by
  by_cases hlinks : library.origins.all (Ledger.mk [] .empty).links = true
  · rw [link_of_links Follows.empty hlinks] at h
    have hlinked : Follows { empty with library := library } ⟨[], library⟩ :=
      Follows.empty.link library
    by_cases hadmits : units.all (Ledger.mk [] library).admits = true
    · have hadd := add_of_admits hlinked hadmits putOff
      obtain rfl := Except.ok.inj (hadd.symm.trans h)
      have hunit := fun u hu =>
        Ledger.admits_iff.mp (List.all_eq_true.mp hadmits u hu)
      refine ⟨⟨fun u hu => (hunit u hu).1, fun o ho => ?_, fun u hu =>
        (hunit u hu).2⟩, Follows.foldl_put putOff units hlinked⟩
      exact (Ledger.links_iff.mp (List.all_eq_true.mp hlinks o ho)).1
    · obtain ⟨e, he⟩ := add_of_not_admits hlinked hadmits putOff
      cases he.symm.trans h
  · obtain ⟨e, he⟩ := link_of_not_links Follows.empty hlinks
    rw [he] at h
    cases h

/-- **The order of units does not matter.** If units of distinct origins are
accepted after a library, they are accepted in every order, parsed at once or
not, and the builds agree on whether there are errors. If moreover neither
build reports a name defined twice, they make the same reports but for their
order, and their programs have the same namespaces with the same declarations,
again but for the order. -/
theorem build_perm {library : Library} {units units' : List SourceUnit}
    {putOff : Bool} {ws : Workspace}
    (hdistinct : (units.map SourceUnit.origin).Nodup)
    (haccepted : (empty.link library >>= fun new => new.add units putOff)
      = .ok ws) (hperm : units.Perm units') (putOff' : Bool) :
    ∃ ws', (empty.link library >>= fun new => new.add units' putOff') = .ok ws'
      ∧ ws.build.1.hasErrors = ws'.build.1.hasErrors
      ∧ ((∀ d ∈ ws.build.1.diagnostics, d.code ≠ some "E0201") →
          (∀ d ∈ ws'.build.1.diagnostics, d.code ≠ some "E0201") →
          ws.build.1.diagnostics.Perm ws'.build.1.diagnostics
            ∧ (ws.build.1.program.namespaces.map Namespace.name).Perm
                (ws'.build.1.program.namespaces.map Namespace.name)
            ∧ ∀ ns ∈ ws.build.1.program.namespaces,
              ∀ ns' ∈ ws'.build.1.program.namespaces,
                ns.name = ns'.name → ns.decls.Perm ns'.decls) := by
  obtain ⟨hapart, hfollows⟩ := follows_of_accepted haccepted
  have hdistinct' : (units'.map SourceUnit.origin).Nodup :=
    (hperm.map _).nodup_iff.mp hdistinct
  have hapart' : Ledger.Apart ⟨units', library⟩ :=
    ⟨fun u hu => hapart.units u (hperm.mem_iff.mpr hu), hapart.library,
      fun u hu => hapart.names u (hperm.mem_iff.mpr hu)⟩
  obtain ⟨ws', haccepted', hfollows'⟩ := exists_batch hapart' putOff'
  have hsettled : settled units' = units' := settled_of_nodup hdistinct'
  dsimp only at haccepted' hfollows'
  rw [hsettled] at haccepted' hfollows'
  have hbuild : ws.build.1 = .ofSources library units := by
    rw [hfollows.sound.build_eq, hfollows.library, hfollows.units,
      settled_of_nodup hdistinct]
  have hbuild' : ws'.build.1 = .ofSources library units' := by
    rw [hfollows'.sound.build_eq, hfollows'.library, hfollows'.units, hsettled]
  refine ⟨ws', haccepted', ?_⟩
  rw [hbuild, hbuild']
  refine ⟨Build.hasErrors_perm hapart.units hperm, fun hcodes _ => ?_⟩
  have hclear := (Build.duplicates_ofSources_iff hapart.units).mp
    (Build.duplicates_of_not_code hcodes)
  exact ⟨Build.perm_diagnostics hclear hapart.units hperm,
    Build.perm_names library hperm,
    fun ns hns ns' hns' => Build.perm_decls hclear hperm hns hns'⟩

/-- A header that both of two files use, one of which calls the other. -/
def pairLibrary : Library :=
  Library.empty.insertText (.reference "lib.vl")
    "namespace L\x7bfunction H():Int;\x7d"

def pairUnits : List SourceUnit :=
  [⟨.primary "a.vl",
    "namespace A\x7bopen L;function F():Int\x7blet x=H();return G();\x7d\x7d"⟩,
    ⟨.primary "b.vl",
      "namespace A\x7bfunction G():Int\x7blet y=1;return L.H();\x7d\x7d"⟩]

/-- Each file has an unused binding, and the two reports change places with
the files. -/
theorem build_perm_pair :
    ∃ ws ws', (empty.link pairLibrary >>= fun new => new.add pairUnits false)
      = .ok ws
      ∧ (empty.link pairLibrary >>= fun new => new.add pairUnits.reverse true)
        = .ok ws'
      ∧ ws.build.1.diagnostics ≠ ws'.build.1.diagnostics
      ∧ ws.build.1.hasErrors = ws'.build.1.hasErrors
      ∧ ws.build.1.diagnostics.Perm ws'.build.1.diagnostics
      ∧ (ws.build.1.program.namespaces.map Namespace.name).Perm
          (ws'.build.1.program.namespaces.map Namespace.name)
      ∧ ∀ ns ∈ ws.build.1.program.namespaces,
        ∀ ns' ∈ ws'.build.1.program.namespaces,
          ns.name = ns'.name → ns.decls.Perm ns'.decls := by
  have hfirst : (empty.link pairLibrary >>= fun new =>
    new.add pairUnits false).toOption.map
      (fun ws => ws.build.1.reports)
        = some [(some (.primary "a.vl"), some "W0001"),
          (some (.primary "b.vl"), some "W0001")] := by decide +kernel
  have hsecond : (empty.link pairLibrary >>= fun new =>
    new.add pairUnits.reverse true).toOption.map
      (fun ws => ws.build.1.reports)
        = some [(some (.primary "b.vl"), some "W0001"),
          (some (.primary "a.vl"), some "W0001")] := by decide +kernel
  cases hws : empty.link pairLibrary >>= fun new => new.add pairUnits false with
  | error e =>
      rw [hws] at hfirst
      cases hfirst
  | ok ws =>
      obtain ⟨ws', hws', herrors, hsame⟩ :=
        build_perm (by decide) hws (List.reverse_perm pairUnits).symm true
      rw [hws] at hfirst
      rw [hws'] at hsecond
      have hreports : ws.build.1.reports = _ := Option.some.inj hfirst
      have hreports' : ws'.build.1.reports = _ := Option.some.inj hsecond
      refine ⟨ws, ws', rfl, hws', fun heq => ?_, herrors,
        hsame (Build.code_ne_of_reports hreports (by decide))
          (Build.code_ne_of_reports hreports' (by decide))⟩
      rw [Build.reports, heq] at hreports
      exact absurd (hreports.symm.trans hreports') (by decide)

end Workspace

end Exemplar
