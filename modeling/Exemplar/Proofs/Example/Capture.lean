import Exemplar.Proofs.Example.Lookup
import Exemplar.Proofs.Workspace.History

/-!
# Host names after a merge

Examples are added to the namespaces that the blocks of the host look into
first. So an example can take a name away: where a block of the host refers to
an opened namespace, to `Std.Core` or to a global declaration, a generated
declaration of the same name in the block's own namespace comes before it
(`exists_captured_name`).

That is all that can happen. The headline `resolve?_merged` says which names
stay: the candidates of a path are the same before and after the merge, the
host's declaration is found under one of them, and it is found there again
unless a generated declaration has the name of an earlier candidate, in which
case that one is found.

Two things are used of the host. Its namespaces have distinct names, as those
of every assembled program do; and it was built without errors, so that its
blocks open only namespaces that are there, and the merge cannot bring a
passed-over directive to life.
-/

namespace Exemplar

/-! ## Hosts without errors -/

theorem isError_of_mem_parse {u : SourceUnit} {d : Diagnostic}
    (hd : d ∈ u.parse.diagnostics) :
    d.isError = true := by
  obtain ⟨d', hd', rfl⟩ := List.mem_map.mp hd
  rcases List.mem_append.mp hd' with h | h
  · obtain ⟨e, -, rfl⟩ := List.mem_map.mp h
    rfl
  · obtain ⟨f, -, rfl⟩ := List.mem_map.mp h
    rfl

section Clean

variable {library : Library} {units : List SourceUnit}

theorem isError_of_mem_clean
    (h : (Build.ofSources library units).hasErrors = false) {d : Diagnostic}
    (hd : d ∈ (Build.ofSources library units).diagnostics) :
    d.isError = false :=
  Bool.eq_false_iff.mpr (List.any_eq_false.mp h d hd)

/-- Without errors every unit is clean, and so every unit is checked. -/
theorem isClean_of_clean (h : (Build.ofSources library units).hasErrors = false)
    {u : SourceUnit} (hu : u ∈ units) : u.parse.isClean = true := by
  unfold ParsedUnit.isClean
  rw [List.isEmpty_iff, List.eq_nil_iff_forall_not_mem]
  intro d hd
  have hmem : d ∈ (Build.ofSources library units).diagnostics := by
    refine List.mem_append_left _
      (List.mem_flatMap.mpr ⟨(u.origin, u.parse), ?_, hd⟩)
    exact List.mem_map.mpr ⟨u, hu, rfl⟩
  have hfalse := isError_of_mem_clean h hmem
  rw [isError_of_mem_parse hd] at hfalse
  cases hfalse

theorem severity_of_mem_checkBlock
    (h : (Build.ofSources library units).hasErrors = false) {u : SourceUnit}
    (hu : u ∈ units) {b : Block} (hb : b ∈ u.parse.blocks) {f : Finding}
    (hf : f ∈ checkBlock (Build.ofSources library units).program u.origin b) :
    f.problem.severity ≠ .error := by
  have hclean : (u.origin, u.parse)
    ∈ (units.map fun u => (u.origin, u.parse)).filter
      fun p => p.2.isClean :=
    List.mem_filter.mpr ⟨List.mem_map.mpr ⟨u, hu, rfl⟩, isClean_of_clean h hu⟩
  have hmem : f.toDiagnostic ∈ (Build.ofSources library units).diagnostics := by
    refine List.mem_append_right _
      (List.mem_map_of_mem (List.mem_append_right _ ?_))
    exact List.mem_flatMap.mpr ⟨_, hclean, List.mem_flatMap.mpr ⟨b, hb, hf⟩⟩
  have hfalse := isError_of_mem_clean h hmem
  unfold Diagnostic.isError at hfalse
  rw [Finding.severity_toDiagnostic] at hfalse
  simpa using hfalse

/-- Without errors, what a block opens is there. -/
theorem hasNamespace_of_clean
    (h : (Build.ofSources library units).hasErrors = false) {u : SourceUnit}
    (hu : u ∈ units) {b : Block} (hb : b ∈ u.parse.blocks) {o : Open}
    (ho : o ∈ b.opens) :
    (Build.ofSources library units).program.hasNamespace o.space = true := by
  apply Classical.byContradiction
  intro hnot
  have hfound : Finding.mk (.unknownNamespace o.space) o.span u.origin
      ∈ checkBlock (Build.ofSources library units).program u.origin b := by
    refine List.mem_append_left _
      (List.mem_map.mpr ⟨o, List.mem_filter.mpr ⟨ho, ?_⟩, rfl⟩)
    rw [Bool.not_eq_true']
    exact Bool.eq_false_iff.mpr hnot
  exact severity_of_mem_checkBlock h hu hb hfound rfl

end Clean

/-! ## Generated names -/

/-- An example declares the full name. -/
def Harvest.Declares (h : Harvest) (q : QualifiedName) : Prop :=
  ∃ p ∈ h.parsed, p.1.name = q.space ∧ p.2.defines q.name = true

theorem defines_storedDecl (program : Program) (p : Block × Declaration)
    (name : String) :
    (Block.storedDecl program p).defines name = p.2.defines name := by
  obtain ⟨b, full, doc, origin, span, detail⟩ := p
  cases detail <;> rfl

theorem exists_parsed_of_find? {h : Harvest} {host : Program}
    {q : QualifiedName} {d : Declaration}
    (hd : (h.generated host q.space).find? (Declaration.defines q.name)
      = some d) :
    ∃ p ∈ h.parsed, (p.1.name = q.space ∧ p.2.defines q.name = true)
      ∧ d = Block.storedDecl (h.compiledIn host) p := by
  obtain ⟨p, hp, rfl⟩ := List.mem_map.mp (List.mem_of_find?_eq_some hd)
  obtain ⟨hmem, hspace⟩ := List.mem_filter.mp hp
  refine ⟨p, hmem, ⟨by simpa using hspace, ?_⟩, rfl⟩
  rw [← defines_storedDecl (h.compiledIn host)]
  exact List.find?_some hd

theorem find?_generated_eq_none_iff {h : Harvest} {host : Program}
    {q : QualifiedName} :
    (h.generated host q.space).find? (Declaration.defines q.name) = none
      ↔ ¬h.Declares q := by
  constructor
  · rintro hnone ⟨p, hp, hspace, hname⟩
    have hmem : Block.storedDecl (h.compiledIn host) p
        ∈ h.generated host q.space :=
      List.mem_map_of_mem (List.mem_filter.mpr ⟨hp, by simpa using hspace⟩)
    rw [← defines_storedDecl (h.compiledIn host)] at hname
    exact List.find?_eq_none.mp hnone _ hmem hname
  · intro hnot
    cases hd : (h.generated host q.space).find? (Declaration.defines q.name)
      with
    | none => rfl
    | some d =>
        obtain ⟨p, hp, hdeclares, -⟩ := exists_parsed_of_find? hd
        exact absurd ⟨p, hp, hdeclares⟩ hnot

theorem withoutAttributes_markTest (d : Declaration) (origins : List Origin)
    (marks : List Attribute) :
    (d.markTest origins marks).withoutAttributes = d.withoutAttributes := by
  by_cases htest : d.isTest origins = true
  · obtain ⟨name, doc, origin, span, detail⟩ := d
    cases detail with
    | newtype | specialization => rfl
    | callable c => rw [Declaration.markTest_of_isTest rfl htest]; rfl
  · rw [Declaration.markTest_of_not_isTest htest]

/-! ## What a host name refers to -/

section Merged

variable {host : Program} {settings : Settings} {h : Harvest}

theorem lookup?_merged_of_found
    (hnames : (host.namespaces.map Namespace.name).Nodup)
    (hrun : host.harvest settings = .ok h) (hmerged : h.status = .merged)
    {q : QualifiedName} {d : Declaration} (hd : host.lookup? q = some d) :
    ∃ d', h.program.lookup? q = some d' ∧ d'.withoutAttributes
      = d.withoutAttributes := by
  refine ⟨h.mark settings d, ?_, withoutAttributes_markTest d _ _⟩
  rw [lookup?_merged hnames hrun hmerged, hd]
  rfl

theorem lookup?_merged_of_free
    (hnames : (host.namespaces.map Namespace.name).Nodup)
    (hrun : host.harvest settings = .ok h) (hmerged : h.status = .merged)
    {q : QualifiedName} (hq : host.lookup? q = none) (hfree : ¬h.Declares q) :
    h.program.lookup? q = none := by
  rw [lookup?_merged hnames hrun hmerged, hq,
    find?_generated_eq_none_iff.mpr hfree]
  rfl

theorem exists_parsed_of_lookup?_merged
    (hnames : (host.namespaces.map Namespace.name).Nodup)
    (hrun : host.harvest settings = .ok h) (hmerged : h.status = .merged)
    {q : QualifiedName} (hq : host.lookup? q = none) {d : Declaration}
    (hd : h.program.lookup? q = some d) :
    ∃ p ∈ h.parsed, (p.1.name = q.space ∧ p.2.defines q.name = true)
      ∧ d.withoutAttributes = p.2.withoutAttributes := by
  rw [lookup?_merged hnames hrun hmerged, hq] at hd
  obtain ⟨d', hd', rfl⟩ := Option.map_eq_some_iff.mp hd
  obtain ⟨p, hp, hdeclares, rfl⟩ := exists_parsed_of_find? hd'
  exact ⟨p, hp, hdeclares, (Declaration.harvested_markTest _ _ _ p.1 p.2).same⟩

theorem exists_lookup?_merged_of_declares
    (hnames : (host.namespaces.map Namespace.name).Nodup)
    (hrun : host.harvest settings = .ok h) (hmerged : h.status = .merged)
    {q : QualifiedName} (hdeclares : h.Declares q) :
    ∃ d, h.program.lookup? q = some d := by
  rw [lookup?_merged hnames hrun hmerged]
  cases host.lookup? q with
  | some d => exact ⟨_, rfl⟩
  | none =>
      cases hd : (h.generated host q.space).find? (Declaration.defines q.name)
        with
      | some d => exact ⟨_, rfl⟩
      | none => exact absurd hdeclares (find?_generated_eq_none_iff.mp hd)

/-- The search in the merged program, when the host's stops at `q`. -/
theorem findSome?_merged (hnames : (host.namespaces.map Namespace.name).Nodup)
    (hrun : host.harvest settings = .ok h) (hmerged : h.status = .merged)
    {earlier later : List QualifiedName} {q : QualifiedName} {d : Declaration}
    (hearlier : ∀ q' ∈ earlier, host.lookup? q' = none)
    (hq : host.lookup? q = some d) :
    ((∀ q' ∈ earlier, ¬h.Declares q') →
        ∃ d', (earlier ++ q :: later).findSome? h.program.lookup? = some d'
          ∧ d'.withoutAttributes = d.withoutAttributes)
      ∧ ((∃ q' ∈ earlier, h.Declares q') →
        ∃ q' ∈ earlier, ∃ p ∈ h.parsed,
          (p.1.name = q'.space ∧ p.2.defines q'.name = true)
          ∧ ∃ d', (earlier ++ q :: later).findSome? h.program.lookup? = some d'
            ∧ d'.withoutAttributes = p.2.withoutAttributes) := by
  constructor
  · intro hfree
    obtain ⟨d', hd', hsame⟩ := lookup?_merged_of_found hnames hrun hmerged hq
    refine ⟨d', List.findSome?_eq_some_iff.mpr ⟨earlier, q, later, rfl, hd',
      ?_⟩, hsame⟩
    intro q' hq'
    exact lookup?_merged_of_free hnames hrun hmerged (hearlier q' hq')
      (hfree q' hq')
  · rintro ⟨q₀, hq₀, hdeclares⟩
    obtain ⟨d₀, hd₀⟩ :=
      exists_lookup?_merged_of_declares hnames hrun hmerged hdeclares
    cases hfound : earlier.findSome? h.program.lookup? with
    | none =>
        rw [List.findSome?_eq_none_iff.mp hfound q₀ hq₀] at hd₀
        cases hd₀
    | some d' =>
        obtain ⟨q', hq', hd'⟩ := List.exists_of_findSome?_eq_some hfound
        obtain ⟨p, hp, hname, hsame⟩ :=
          exists_parsed_of_lookup?_merged hnames hrun hmerged
            (hearlier q' hq') hd'
        refine ⟨q', hq', p, hp, hname, d', ?_, hsame⟩
        rw [List.findSome?_append, hfound]
        rfl

end Merged

/-- **What a host name refers to after a merge.** Let a program be built
without errors, after any calls to a workspace, and let its examples be
merged. If a path refers to `d` from a block of that program, then `d` is
found under some candidate `q` of the path and nothing under the earlier ones.
After the merge the path still refers to `d`, up to attributes, unless an
example declares an earlier candidate; then it refers to such a generated
declaration. -/
theorem resolve?_merged {calls : List Call} {build : Build}
    {settings : Settings} {h : Harvest}
    (hbuild : (Workspace.after calls).build.1 = build)
    (hclean : build.hasErrors = false)
    (hrun : build.program.harvest settings = .ok h)
    (hmerged : h.status = .merged) {b : Block}
    (hb : b ∈ (Workspace.after calls).units.flatMap fun u => u.parse.blocks)
    {path : String} {d : Declaration}
    (hd : (View.ofBlock build.program b).resolve? path = some d) :
    ∃ earlier q later,
      (View.ofBlock build.program b).candidates path = earlier ++ q :: later
      ∧ (∀ q' ∈ earlier, build.program.lookup? q' = none)
        ∧ build.program.lookup? q = some d
      ∧ ((∀ q' ∈ earlier, ¬h.Declares q') →
          ∃ d', (View.ofBlock h.program b).resolve? path = some d'
            ∧ d'.withoutAttributes = d.withoutAttributes)
      ∧ ((∃ q' ∈ earlier, h.Declares q') →
          ∃ q' ∈ earlier, ∃ p ∈ h.parsed,
            (p.1.name = q'.space ∧ p.2.defines q'.name = true)
            ∧ ∃ d', (View.ofBlock h.program b).resolve? path = some d'
              ∧ d'.withoutAttributes = p.2.withoutAttributes) := by
  have hsources : build
      = .ofSources (Workspace.after calls).library
        (Workspace.after calls).units :=
    hbuild.symm.trans (Workspace.follows_after calls).sound.build_eq
  have hnames : (build.program.namespaces.map Namespace.name).Nodup := by
    rw [hsources]
    exact nodup_names_assemble ..
  obtain ⟨u, hu, hb⟩ := List.mem_flatMap.mp hb
  -- what the block opens is in the host, and so it is in the merged program
  have hopens : ∀ o ∈ b.opens,
      build.program.hasNamespace o.space = h.program.hasNamespace o.space := by
    intro o ho
    have hhost : build.program.hasNamespace o.space = true := by
      rw [hsources] at hclean ⊢
      exact hasNamespace_of_clean hclean hu hb ho
    have hmem := Program.hasNamespace_iff.mp hhost
    rw [hhost, eq_comm, Program.hasNamespace_iff,
      (names_merged hnames hrun hmerged).2]
    exact Or.inl hmem
  rw [View.resolve?_eq_findSome?] at hd
  obtain ⟨earlier, q, later, hcandidates, hq, hearlier⟩ :=
    List.findSome?_eq_some_iff.mp hd
  refine ⟨earlier, q, later, hcandidates, hearlier, hq, ?_⟩
  rw [View.resolve?_eq_findSome?, ← View.candidates_ofBlock hopens, hcandidates]
  exact findSome?_merged hnames hrun hmerged hearlier hq

/-! ## A captured name -/

/-- `G` calls the `F` of an opened namespace, and its example declares
another one. -/
def captureUnit : SourceUnit :=
  ⟨.primary "", String.intercalate "\n"
    ["namespace L\x7bfunction F():Int;\x7dnamespace D\x7bopen L;",
      "/// # Example", "/// ```", "///function F():Int;", "/// ```",
      "function G():Int\x7breturn F();\x7d\x7d"]⟩

def captureBlock : Block :=
  captureUnit.parse.blocks.getLastD ⟨"", [], [], [], .nowhere⟩

def captureBuild : Build := (Workspace.after [.add [captureUnit] true]).build.1

/-- What the two programs say: the host is built without errors, `L.F` has one
candidate, and `F` changes from `L.F` to `D.F` when the example is merged. -/
theorem captureBuild_eval :
    captureBlock ∈ ((Workspace.after [.add [captureUnit] true]).units.flatMap
        fun u => u.parse.blocks)
      ∧ captureBuild.hasErrors = false
      ∧ (View.ofBlock captureBuild.program captureBlock).candidates "L.F"
        = [⟨"L", "F"⟩]
      ∧ (["L.F", "F"].map fun path =>
          ((View.ofBlock captureBuild.program captureBlock).resolve? path).map
            Declaration.name)
        = [some ⟨"L", "F"⟩, some ⟨"L", "F"⟩]
      ∧ ((captureBuild.program.harvest {}).toOption.map fun h =>
          (h.status, ((View.ofBlock h.program captureBlock).resolve? "F").map
            Declaration.name))
        = some (.merged, some ⟨"D", "F"⟩) := by
  decide +kernel

theorem name_withoutAttributes (d : Declaration) :
    d.withoutAttributes.name = d.name := by
  obtain ⟨name, doc, origin, span, detail⟩ := d
  cases detail <;> rfl

/-- **A merge can capture a name of the host.** The program of `captureUnit` is
built without errors and its example is merged. Before, `F` refers to `L.F` in
the block of `G`; after, it refers to another declaration. -/
theorem exists_captured_name :
    ∃ h d, captureBuild.hasErrors = false
      ∧ captureBuild.program.harvest {} = .ok h ∧ h.status = .merged
      ∧ captureBlock ∈ (Workspace.after [.add [captureUnit] true]).units.flatMap
          (fun u => u.parse.blocks)
      ∧ (View.ofBlock captureBuild.program captureBlock).resolve? "F" = some d
      ∧ d.name = ⟨"L", "F"⟩
      ∧ ¬∃ d', (View.ofBlock h.program captureBlock).resolve? "F" = some d'
          ∧ d'.withoutAttributes = d.withoutAttributes := by
  obtain ⟨hmem, hclean, -, hbefore, hafter⟩ := captureBuild_eval
  obtain ⟨-, hbefore, -⟩ : _ ∧ _
    ∧ _ := by simpa only [List.map_cons, List.cons.injEq] using hbefore
  obtain ⟨d, hd, hname⟩ := Option.map_eq_some_iff.mp hbefore
  cases hrun : captureBuild.program.harvest {} with
  | error e =>
      rw [hrun] at hafter
      cases hafter
  | ok h =>
      rw [hrun] at hafter
      obtain ⟨hmerged, hafter⟩ := Prod.mk.inj (Option.some.inj hafter)
      refine ⟨h, d, hclean, rfl, hmerged, hmem, hd, hname, ?_⟩
      rintro ⟨d', hd', hsame⟩
      have hnames : d'.name = d.name := by
        rw [← name_withoutAttributes d', ← name_withoutAttributes d, hsame]
      rw [hd', Option.map_some, hnames, hname] at hafter
      revert hafter
      decide

/-- Under its full name, `L.F` stays what it is. -/
theorem resolve?_merged_full_name :
    ∃ h d d', captureBuild.hasErrors = false
      ∧ captureBuild.program.harvest {} = .ok h ∧ h.status = .merged
      ∧ (View.ofBlock captureBuild.program captureBlock).resolve? "L.F" = some d
      ∧ (View.ofBlock h.program captureBlock).resolve? "L.F" = some d'
      ∧ d'.withoutAttributes = d.withoutAttributes := by
  obtain ⟨hmem, hclean, hone, hbefore, hafter⟩ := captureBuild_eval
  obtain ⟨hbefore, -⟩ : _
    ∧ _ := by simpa only [List.map_cons, List.cons.injEq] using hbefore
  obtain ⟨d, hd, -⟩ := Option.map_eq_some_iff.mp hbefore
  cases hrun : captureBuild.program.harvest {} with
  | error e =>
      rw [hrun] at hafter
      cases hafter
  | ok h =>
      rw [hrun] at hafter
      have hmerged : h.status = .merged :=
        (Prod.mk.inj (Option.some.inj hafter)).1
      obtain ⟨earlier, q, later, hcandidates, -, -, hstays, -⟩ :=
        resolve?_merged
          (show (Workspace.after [.add [captureUnit] true]).build.1
            = captureBuild from rfl) hclean hrun hmerged hmem hd
      rw [hone] at hcandidates
      have hnil : earlier = [] := by
        cases earlier with
        | nil => rfl
        | cons q' qs => simp at hcandidates
      obtain ⟨d', hd', hsame⟩ := hstays (by rw [hnil]; exact nofun)
      exact ⟨h, d, d', hclean, rfl, hmerged, hd, hd', hsame⟩

end Exemplar
