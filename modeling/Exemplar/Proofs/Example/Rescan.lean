import Exemplar.Proofs.Example.Marking

/-!
# Generated code is not searched

The snippets of a harvested program are those of its host (`harvest_rescan`):
the same texts in the same groups, and the same open fences, whatever
documentation the generated declarations have. What a search sees of a program
is in each namespace its name and the declarations that are searched. Both
steps of a harvest leave that as it is:

- *merging* adds declarations from generated origins only, behind others or in
  new namespaces, and these are not searched (`ofProgram_mergeFrom`);
- *marking* changes attributes, which a search does not look at
  (`ofProgram_markTests`).

Nothing is asked of the workspace: units that are left over in it from earlier
harvests may be compiled again, but they are not merged.
-/

namespace Exemplar

namespace Snippets

variable {settings : Settings} {origins : List Origin}

theorem searches_of_isSynthetic (hreferences : settings.scanReferences = false)
    {d : Declaration} (h : d.origin.isSynthetic = true) :
    searches settings d = false := by
  have hrole : d.origin.role = .synthetic := eq_of_beq h
  rw [searches, hreferences, Bool.or_false, Origin.isPrimary, hrole]
  rfl

theorem filter_eq_nil_of_not_searched {decls : List Declaration}
    (h : ∀ d ∈ decls, searches settings d = false) :
    decls.filter (searches settings) = [] :=
  List.filter_eq_nil_iff.mpr fun d hd => Bool.eq_false_iff.mp (h d hd)

theorem addNamespace_of_not_searched (s : Snippets) {ns : Namespace}
    (h : ∀ d ∈ ns.decls, searches settings d = false) :
    addNamespace settings s ns = s := by
  rw [addNamespace, filter_eq_nil_of_not_searched h]
  rfl

/-! ## Merging -/

/-- Declarations that are not searched can be added under any name. -/
theorem foldl_addNamespace_contribute {decls : List Declaration}
    (h : ∀ d ∈ decls, searches settings d = false) (name : String) (doc : Doc)
    (nss : List Namespace) : ∀ s : Snippets,
      (contribute name doc decls nss).foldl (addNamespace settings) s
        = nss.foldl (addNamespace settings) s := by
  induction nss with
  | nil => exact fun s => addNamespace_of_not_searched s h
  | cons ns nss ih =>
      intro s
      rw [contribute]
      split
      · rw [List.foldl_cons, List.foldl_cons]
        refine congrArg (List.foldl (addNamespace settings) · nss) ?_
        simp only [addNamespace, List.filter_append,
          filter_eq_nil_of_not_searched h, List.append_nil]
        rfl
      · rw [List.foldl_cons, List.foldl_cons, ih]

theorem ofProgram_mergeFrom
    (horigins : ∀ d : Declaration, origins.contains d.origin = true →
      searches settings d = false)
    (host other : Program) :
    ofProgram settings (host.mergeFrom other origins)
      = ofProgram settings host := by
  unfold Program.mergeFrom ofProgram
  generalize host.namespaces = placed
  dsimp only
  induction other.namespaces generalizing placed with
  | nil => rfl
  | cons ns nss ih =>
      rw [List.foldl_cons, ih]
      have hgenerated : ∀ d ∈ ns.declsFrom origins,
          searches settings d = false :=
        fun d hd => horigins d (List.mem_filter.mp hd).2
      cases hdecls : ns.declsFrom origins with
      | nil => rfl
      | cons d ds =>
          rw [hdecls] at hgenerated
          exact foldl_addNamespace_contribute hgenerated ns.name [] placed empty

/-! ## Marking -/

/-- A declaration counts by its name and its documentation. -/
theorem addDeclaration_markTest (s : Snippets) (space : Option String)
    (d : Declaration) (marks : List Attribute) :
    s.addDeclaration space (d.markTest origins marks)
      = s.addDeclaration space d := by
  simp only [addDeclaration, (d.kept_markTest origins marks).1, name_markTest]

theorem searches_markTest (d : Declaration) (marks : List Attribute) :
    searches settings (d.markTest origins marks) = searches settings d := by
  rw [searches, searches, (d.kept_markTest origins marks).2]

theorem ofProgram_markTests (p : Program) (marks : List Attribute) :
    ofProgram settings (p.markTests origins marks) = ofProgram settings p := by
  have hsame : ∀ s ns, addNamespace settings s
      { ns with decls := ns.decls.map fun d => d.markTest origins marks }
        = addNamespace settings s ns := by
    intro s ns
    unfold addNamespace
    rw [List.filter_map, List.foldl_map, Function.comp_def]
    simp only [searches_markTest, addDeclaration_markTest]
    rfl
  unfold ofProgram Program.markTests
  simp only [List.foldl_map, hsame]

end Snippets

/-! ## The headline -/

theorem Workspace.origins_of_buildExamples {ws ws' : Workspace}
    {units : List SourceUnit} {library : Library} {build : ExampleBuild}
    (h : ws.buildExamples units library = .ok (build, ws')) :
    build.origins = Origin.sorted (units.map SourceUnit.origin) := by
  unfold buildExamples at h
  cases hadd : ws.add units true with
  | error e => simp [hadd, bind, Except.bind] at h
  | ok added =>
      cases hlink : added.link library with
      | error e => simp [hadd, hlink, bind, Except.bind] at h
      | ok linked =>
          simp only [hadd, hlink, bind, Except.bind, pure, Except.pure,
            Except.ok.injEq, Prod.mk.injEq] at h
          exact h.1 ▸ rfl

/-- What a harvest returns: the host, or the host with declarations of the
generated origins, marked. -/
theorem Workspace.program_of_harvest {ws ws' : Workspace} {settings : Settings}
    {host : Program} {h : Harvest}
    (hrun : ws.harvest settings host = .ok (h, ws')) :
    let units := (Snippets.ofProgram settings host).toUnits host settings
    let origins := Origin.sorted (units.map SourceUnit.origin)
    h.program = host
      ∨ ∃ other : Program,
          h.program = (host.mergeFrom other origins).markTests origins
            settings.testMarks := by
  intro units origins
  unfold harvest at hrun
  cases hvalid : settings.validate with
  | error why => simp [hvalid] at hrun
  | ok =>
      rw [hvalid] at hrun
      dsimp only at hrun
      split at hrun
      · cases hrun
        exact .inl rfl
      · cases hbuild : ws.buildExamples units host.headerLibrary with
        | error e => simp [units, hbuild] at hrun
        | ok built =>
            obtain ⟨build, ws''⟩ := built
            rw [hbuild] at hrun
            dsimp only at hrun
            split at hrun
            · cases hrun
              exact .inl rfl
            · cases hrun
              exact .inr ⟨build.program,
                by rw [origins_of_buildExamples hbuild]⟩

/-- A harvest of a program alone is one in a new workspace. -/
theorem Program.exists_run_of_harvest {settings : Settings} {host : Program}
    {h : Harvest} (hh : host.harvest settings = .ok h) :
    ∃ ws, Workspace.empty.harvest settings host = .ok (h, ws) := by
  rw [Program.harvest] at hh
  cases hreturn : Workspace.empty.harvest settings host with
  | error e =>
      rw [hreturn] at hh
      cases hh
  | ok returned =>
      rw [hreturn] at hh
      obtain rfl : returned.1 = h := Except.ok.inj hh
      exact ⟨returned.2, rfl⟩

/-- **Generated code produces no further examples.** If references are not
searched, the snippets of the program that a harvest returns are those of its
host, whatever workspace the examples were compiled in. Under valid settings a
new workspace does return one. -/
theorem harvest_rescan {settings : Settings}
    (hvalid : settings.validate = .ok ())
    (hreferences : settings.scanReferences = false) (host : Program) :
    (∀ ws h ws', Workspace.harvest ws settings host = .ok (h, ws') →
        Snippets.ofProgram settings h.program
          = Snippets.ofProgram settings host)
      ∧ ∃ h, host.harvest settings = .ok h
        ∧ Snippets.ofProgram settings h.program
          = Snippets.ofProgram settings host := by
  have hsame : ∀ ws h ws', Workspace.harvest ws settings host = .ok (h, ws') →
      Snippets.ofProgram settings h.program
        = Snippets.ofProgram settings host := by
    intro ws h ws' hrun
    rcases Workspace.program_of_harvest hrun with hhost | ⟨other, hprogram⟩
    · rw [hhost]
    · rw [hprogram, Snippets.ofProgram_markTests]
      exact Snippets.ofProgram_mergeFrom (fun d hd =>
        Snippets.searches_of_isSynthetic hreferences
          (isSynthetic_of_contains_sorted hd)) host other
  have hharvest := harvest_of_valid hvalid host
  obtain ⟨ws, hrun⟩ := Program.exists_run_of_harvest hharvest
  exact ⟨hsame, host.harvested settings, hharvest, hsame _ _ _ hrun⟩

/-- One example is merged, and it is the only one that is found again, in the
program with two operations. -/
theorem harvest_rescan_flip :
    let host := hostWithExample "operation T() : Unit \x7b Flip(); \x7d"
    ∃ h ws, Workspace.empty.harvest {} host = .ok (h, ws)
      ∧ host.harvest {} = .ok h
      ∧ h.status = .merged ∧ h.program.decls.length = 2
      ∧ Snippets.ofProgram {} h.program = Snippets.ofProgram {} host
      ∧ (Snippets.ofProgram {} host).size = 1 := by
  intro host
  have hrun : (Workspace.empty.harvest {} host).toOption.map
      (fun (h, _) => (h.status, h.program.decls.length))
        = some (.merged, 2) := by decide +kernel
  obtain ⟨-, h, hharvest, hsame⟩ := @harvest_rescan {} (by decide) rfl host
  obtain ⟨ws, hreturn⟩ := Program.exists_run_of_harvest hharvest
  rw [hreturn] at hrun
  obtain ⟨hmerged, hlength⟩ := Prod.mk.inj (Option.some.inj hrun)
  exact ⟨h, ws, hreturn, hharvest, hmerged, hlength, hsame, by decide +kernel⟩

end Exemplar
