import Exemplar.Proofs.Example.Capture
import Exemplar.Proofs.Grammar.Braces
import Exemplar.Proofs.Workspace.Locations

/-!
# Reports about texts that are wrong

The blocks of a unit whose text is wrong are not checked, but they stand in
the program. What a build reports about such a unit are the errors in its text
and behind them the names that it defines again, because these are looked for
in the program as a whole (`build_about_broken`).

So a wrong text leads to reports of other errors than its own exactly when the
unit redefines something (`Program.Redefines`), be it in the text itself or
after another unit or a header.
-/

namespace Exemplar

/-! ## Definitions that come again -/

/-- A definition of the origin stands behind another of its name. -/
def RedefinedIn (ds : List Declaration) (origin : Origin) : Prop :=
  ∃ e d, [e, d].Sublist ds ∧ e.name.name = d.name.name ∧ d.origin = origin

/-- In some namespace, a definition of the origin stands behind another of its
name. -/
def Program.Redefines (p : Program) (origin : Origin) : Prop :=
  ∃ ns ∈ p.namespaces, RedefinedIn ns.definitions origin

theorem redefinedIn_cons (d : Declaration) (ds : List Declaration)
    (origin : Origin) :
    RedefinedIn (d :: ds) origin
      ↔ (∃ d' ∈ ds, d.name.name = d'.name.name ∧ d'.origin = origin)
        ∨ RedefinedIn ds origin := by
  constructor
  · rintro ⟨e, d', hsub, hname, horigin⟩
    rcases List.sublist_cons_iff.mp hsub with hsub | ⟨rest, heq, hsub⟩
    · exact Or.inr ⟨e, d', hsub, hname, horigin⟩
    · obtain ⟨rfl, rfl⟩ := List.cons.inj heq
      exact Or.inl ⟨d', List.singleton_sublist.mp hsub, hname, horigin⟩
  · rintro (⟨d', hd', hname, horigin⟩ | ⟨e, d', hsub, hname, horigin⟩)
    · exact ⟨d, d', (List.singleton_sublist.mpr hd').cons_cons d,
        hname, horigin⟩
    · exact ⟨e, d', hsub.cons d, hname, horigin⟩

/-- A definition is reported exactly when it has the name of one before it. -/
theorem exists_mem_duplicatesAfter_singleton (space : String)
    (earlier : List Declaration) (d : Declaration) {origin : Origin}
    (horigin : origin.isReference = false) :
    (∃ f ∈ duplicatesAfter space earlier [d], f.origin = origin)
      ↔ (∃ e ∈ earlier, e.name.name = d.name.name) ∧ d.origin = origin := by
  have hfound : ∀ f ∈ duplicatesAfter space earlier [d],
      f.origin = d.origin := by
    intro f hf
    obtain ⟨d', hd', -, -, -, rfl⟩ := exists_of_mem_duplicatesAfter hf
    rw [List.mem_singleton.mp hd']
  have hnil := duplicatesAfter_singleton_eq_nil_iff space earlier d
  constructor
  · rintro ⟨f, hf, rfl⟩
    refine ⟨?_, (hfound f hf).symm⟩
    apply Classical.byContradiction
    intro hnone
    have hempty := hnil.mpr fun e he hname => absurd ⟨e, he, hname⟩ hnone
    rw [hempty] at hf
    cases hf
  · rintro ⟨⟨e, he, hname⟩, rfl⟩
    have hne : duplicatesAfter space earlier [d] ≠ [] := by
      intro hempty
      have href := hnil.mp hempty e he hname
      rw [horigin] at href
      cases href
    obtain ⟨f, hf⟩ := List.exists_mem_of_ne_nil _ hne
    exact ⟨f, hf, hfound f hf⟩

theorem exists_mem_duplicatesAfter_iff (space : String) {origin : Origin}
    (horigin : origin.isReference = false) :
    ∀ (ds earlier : List Declaration),
      (∃ f ∈ duplicatesAfter space earlier ds, f.origin = origin)
        ↔ (∃ e ∈ earlier, ∃ d ∈ ds, e.name.name = d.name.name
          ∧ d.origin = origin)
          ∨ RedefinedIn ds origin
  | [], earlier => by simp [duplicatesAfter, RedefinedIn]
  | d :: ds, earlier => by
      rw [duplicatesAfter_cons]
      simp only [List.mem_append, or_and_right, exists_or,
        exists_mem_duplicatesAfter_singleton space earlier d horigin,
        exists_mem_duplicatesAfter_iff space horigin ds, redefinedIn_cons,
        List.mem_cons, List.not_mem_nil, or_false, exists_eq_left]
      grind

/-- A program has reports about a compiled origin exactly when that origin
redefines something. -/
theorem Program.exists_mem_duplicates_iff (p : Program) {origin : Origin}
    (horigin : origin.isReference = false) :
    (∃ f ∈ p.duplicates, f.origin = origin) ↔ p.Redefines origin := by
  have hns : ∀ ns : Namespace, (∃ f ∈ ns.duplicates, f.origin = origin)
      ↔ RedefinedIn ns.definitions origin := by
    intro ns
    rw [Namespace.duplicates, exists_mem_duplicatesAfter_iff ns.name horigin]
    exact or_iff_right (by simp)
  simp only [Redefines, ← hns, duplicates, List.mem_flatMap]
  constructor
  · rintro ⟨f, ⟨ns, hns, hf⟩, horigin⟩
    exact ⟨ns, hns, f, hf, horigin⟩
  · rintro ⟨ns, hns, f, hf, horigin⟩
    exact ⟨f, ⟨ns, hns, hf⟩, horigin⟩

/-! ## Errors in texts -/

/-- There are characters in the text that are no token, or tokens that are no
declaration. -/
def SourceUnit.Broken (u : SourceUnit) : Prop :=
  (Scan.ofText u.text).errors ≠ []
    ∨ (Parsed.ofTokens (Scan.ofText u.text).tokens u.origin).faults ≠ []

theorem SourceUnit.Broken.isClean_eq_false {u : SourceUnit} (h : u.Broken) :
    u.parse.isClean = false := by
  rw [Bool.eq_false_iff]
  intro hclean
  obtain ⟨herrors, hfaults⟩ := errors_eq_nil_of_isClean hclean
  exact h.elim (· herrors) (· hfaults)

/-! ## Reports about a unit -/

namespace Build

def reportsAbout (b : Build) (origin : Origin) : List Diagnostic :=
  b.diagnostics.filter fun d => d.origin == some origin

variable {library : Library} {units : List SourceUnit} {u : SourceUnit}

/-- Of the errors in texts, those about a unit are the ones in its own. -/
theorem filter_parse (horigins : (units.map SourceUnit.origin).Nodup)
    (hu : u ∈ units) :
    (units.flatMap fun v => v.parse.diagnostics).filter (fun d =>
      d.origin == some u.origin)
      = u.parse.diagnostics := by
  obtain ⟨before, behind, rfl⟩ := List.append_of_mem hu
  have hown : u.parse.diagnostics.filter (fun d => d.origin == some u.origin)
      = u.parse.diagnostics :=
    List.filter_eq_self.mpr fun d hd =>
      beq_iff_eq.mpr (locations_of_mem_parse hd).1
  have hothers : ∀ vs : List SourceUnit, u.origin ∉ vs.map SourceUnit.origin →
      (vs.flatMap fun v => v.parse.diagnostics).filter (fun d =>
        d.origin == some u.origin)
        = [] := by
    intro vs hvs
    refine List.filter_eq_nil_iff.mpr fun d hd heq => ?_
    obtain ⟨v, hv, hd⟩ := List.mem_flatMap.mp hd
    rw [beq_iff_eq, (locations_of_mem_parse hd).1, Option.some.injEq] at heq
    exact hvs (heq ▸ List.mem_map_of_mem hv)
  rw [List.map_append, List.map_cons, List.nodup_middle, List.nodup_cons,
    List.mem_append, not_or] at horigins
  rw [List.flatMap_append, List.flatMap_cons, List.filter_append,
    List.filter_append, hothers _ horigins.1.1, hothers _ horigins.1.2, hown,
    List.nil_append, List.append_nil]

theorem filter_findings (fs : List Finding) (origin : Origin) :
    (fs.map Finding.toDiagnostic).filter (fun d => d.origin == some origin)
      = (fs.filter fun f => f.origin == origin).map Finding.toDiagnostic := by
  rw [List.filter_map]
  rfl

/-- A unit that is wrong is not among those whose blocks are checked. -/
theorem filter_checked (horigins : (units.map SourceUnit.origin).Nodup)
    (hu : u ∈ units) (hbroken : u.parse.isClean = false) (program : Program) :
    (((units.filter fun v => v.parse.isClean).flatMap fun v =>
        v.parse.blocks.flatMap (checkBlock program v.origin)).filter
          fun f => f.origin == u.origin) = [] := by
  refine List.filter_eq_nil_iff.mpr fun f hf heq => ?_
  obtain ⟨v, hv, hf⟩ := List.mem_flatMap.mp hf
  obtain ⟨b, -, hf⟩ := List.mem_flatMap.mp hf
  obtain ⟨hv, hclean⟩ := List.mem_filter.mp hv
  rw [beq_iff_eq, (points_of_mem_checkBlock hf).origin] at heq
  obtain rfl := List.inj_on_of_nodup_map horigins hv hu heq
  rw [hbroken] at hclean
  cases hclean

theorem reportsAbout_broken (horigins : (units.map SourceUnit.origin).Nodup)
    (hu : u ∈ units) (hbroken : u.parse.isClean = false) :
    (ofSources library units).reportsAbout u.origin
      = u.parse.diagnostics
        ++ ((ofSources library units).program.duplicates.filter
            fun f => f.origin == u.origin).map Finding.toDiagnostic := by
  rw [reportsAbout, diagnostics_ofSources, List.filter_append,
    filter_parse horigins hu, filter_findings, List.filter_append,
    filter_checked horigins hu hbroken, List.append_nil]

end Build

namespace Workspace

/-- **What is reported about a wrong text.** After any calls, the next build
reports about a unit whose text is wrong the errors in the text, of which there
are some, and behind them its redefinitions, of which there are some exactly
when a definition in the unit has the name of an earlier one in its namespace.
Nothing else is reported about the unit. -/
theorem build_about_broken (calls : List Call) {u : SourceUnit}
    (hu : u ∈ (after calls).units) (hbroken : u.Broken) :
    let build := (after calls).build.1
    let again := build.program.duplicates.filter fun f => f.origin == u.origin
    build.reportsAbout u.origin = u.parse.diagnostics
      ++ again.map Finding.toDiagnostic
      ∧ u.parse.diagnostics ≠ []
      ∧ (∀ d ∈ u.parse.diagnostics,
          d.isError = true ∧ (d.code = some "E0001" ∨ d.code = some "E0100"))
      ∧ (∀ d ∈ again.map Finding.toDiagnostic, d.code = some "E0201")
      ∧ (again = [] ↔ ¬build.program.Redefines u.origin) := by
  have hws := follows_after calls
  have horigins : ((after calls).units.map SourceUnit.origin).Nodup := by
    rw [hws.units]
    exact nodup_origins_settled _
  have hreference : u.origin.isReference = false := by
    rw [hws.units] at hu
    obtain ⟨v, hv, heq⟩ :=
      List.mem_map.mp (mem_origins_settled.mp (List.mem_map_of_mem hu))
    rw [← heq]
    exact (Ledger.apart_after calls).units v hv
  have hnot := hbroken.isClean_eq_false
  intro build again
  have hreports : build.reportsAbout u.origin
      = u.parse.diagnostics ++ again.map Finding.toDiagnostic := by
    simp only [build, again, hws.sound.build_eq]
    exact Build.reportsAbout_broken horigins hu hnot
  have hcodes : ∀ d ∈ again.map Finding.toDiagnostic,
      d.code = some "E0201" := by
    intro d hd
    obtain ⟨f, hf, rfl⟩ := List.mem_map.mp hd
    obtain ⟨ns, -, d, -, first, -, -, rfl⟩ :=
      exists_of_mem_duplicates (List.mem_filter.mp hf).1
    exact Finding.code_toDiagnostic _
  refine ⟨hreports, ?_, fun d hd =>
    ⟨isError_of_mem_parse hd, code_of_mem_parse hd⟩, hcodes, ?_⟩
  · intro hnil
    rw [ParsedUnit.isClean, hnil] at hnot
    cases hnot
  · rw [← build.program.exists_mem_duplicates_iff hreference,
      List.filter_eq_nil_iff]
    simp only [beq_iff_eq, not_exists, not_and]

/-- Each of two namespaces is closed too early, by a brace too many. -/
def strayBraces : SourceUnit :=
  ⟨.primary "main.vl",
    "namespace A\x7b\x7dfunction F():Int;\x7dnamespace B\x7b\x7dfunction F():Int;\x7d"⟩

/-- The functions behind the braces have one name, and both come to stand in
the global namespace. -/
theorem build_about_broken_strayBraces :
    strayBraces ∈ (after [.add [strayBraces] false]).units ∧ strayBraces.Broken
      ∧ (after [.add [strayBraces] false]).build.1.program.Redefines
        strayBraces.origin := by
  have hu : strayBraces ∈ (after [.add [strayBraces] false]).units := by
    decide +kernel
  have hbroken : strayBraces.Broken := Or.inr (by decide +kernel)
  obtain ⟨-, -, -, -, hagain⟩ :=
    build_about_broken [.add [strayBraces] false] hu hbroken
  refine ⟨hu, hbroken, ?_⟩
  apply Classical.byContradiction
  intro hnone
  exact absurd (hagain.mpr hnone) (by decide +kernel)

/-- Not all that is reported about a wrong text is wrong with the text. -/
theorem exists_report_beyond_text :
    strayBraces ∈ (after [.add [strayBraces] false]).units ∧ strayBraces.Broken
      ∧ ¬∀ d ∈ (after [.add [strayBraces] false]).build.1.diagnostics,
        d.origin = some strayBraces.origin → d.code = some "E0001"
          ∨ d.code = some "E0100" :=
  ⟨by decide +kernel, Or.inr (by decide +kernel), by decide +kernel⟩

end Workspace

end Exemplar
