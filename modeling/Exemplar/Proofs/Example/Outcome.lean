import Exemplar.Example.Pipeline

/-!
# How a harvest ends

A harvest runs in an empty workspace, where nothing can refuse the generated
units: their origins are synthetic, pairwise distinct, and none has the name
under which the headers of the host are linked. So the workspace drops out of
the picture: under valid settings a harvest is the plain function
`Program.harvested` of the host (`harvest_of_valid`), and this is the form
the other proofs about harvests start from.

The headline `harvest_outcome` reads the law of outcomes off that form:
settings are the only thing that can go wrong, the status follows from the
snippets and from the diagnostics, and a harvest that adds nothing leaves the
host alone.
-/

namespace Exemplar

/-! ## The origins of generated units -/

theorem exampleOrigin_injective {a b : String}
    (h : exampleOrigin a = exampleOrigin b) : a = b := by
  have hname : a ++ ".doctest.vl" = b ++ ".doctest.vl" := congrArg Origin.name h
  have hlist := congrArg String.toList hname
  rw [String.toList_append, String.toList_append] at hlist
  exact String.toList_inj.mp (List.append_cancel_right hlist)

/-- No generated unit is named like the headers of the host: the names end in
different letters. -/
theorem exampleOrigin_name_ne (space : String) :
    (exampleOrigin space).name ≠ hostHeaders.name := by
  intro h
  have hlast := congrArg (fun s => s.toList.getLast?) h
  simp [exampleOrigin, Origin.synthetic, hostHeaders, Origin.reference,
    String.toList_append] at hlast

namespace Snippets

theorem keys_mergeInto (space : String) (texts : List String)
    (grouped : List (String × List String)) :
    (mergeInto space texts grouped).map Prod.fst
      = if space ∈ grouped.map Prod.fst then grouped.map Prod.fst
        else grouped.map Prod.fst ++ [space] := by
  induction grouped with
  | nil => simp [mergeInto]
  | cons g rest ih =>
      obtain ⟨s, ts⟩ := g
      simp only [mergeInto]
      by_cases hs : s = space
      · simp [hs]
      · simp only [if_neg hs, List.map_cons, ih, List.mem_cons,
          Ne.symm hs, false_or]
        split <;> simp

theorem nodup_keys_mergeInto {space : String} {texts : List String}
    {grouped : List (String × List String)}
    (h : (grouped.map Prod.fst).Nodup) :
    ((mergeInto space texts grouped).map Prod.fst).Nodup := by
  rw [keys_mergeInto]
  split
  · exact h
  · next hs =>
      refine List.nodup_append.mpr ⟨h, by simp, ?_⟩
      intro a ha b hb
      rw [List.mem_singleton.mp hb]
      exact fun heq => hs (heq ▸ ha)

theorem mem_texts_mergeInto {t space : String} {texts : List String}
    {grouped : List (String × List String)} :
    t ∈ (mergeInto space texts grouped).flatMap Prod.snd
      ↔ t ∈ texts ∨ t ∈ grouped.flatMap Prod.snd := by
  induction grouped with
  | nil => simp [mergeInto]
  | cons g rest ih =>
      obtain ⟨s, ts⟩ := g
      simp only [mergeInto]
      split
      · simp only [List.flatMap_cons, List.mem_append]
        rw [or_assoc, or_left_comm]
      · rw [List.flatMap_cons, List.mem_append, ih, List.flatMap_cons,
          List.mem_append]
        exact or_left_comm

/-- One more group of snippets, under the namespace it goes to. -/
def fileGroup (settings : Settings) (grouped : List (String × List String))
    (group : Option String × List String) : List (String × List String) :=
  mergeInto (group.1.getD settings.defaultNamespace)
    (group.2.filter fun t => !Chars.isBlankText t) grouped

theorem byNamespace_eq_foldl (s : Snippets) (settings : Settings) :
    s.byNamespace settings = s.groups.foldl (fileGroup settings) [] := rfl

/-- Each namespace receives its snippets in one group. -/
theorem nodup_keys_byNamespace (s : Snippets) (settings : Settings) :
    ((s.byNamespace settings).map Prod.fst).Nodup := by
  rw [byNamespace_eq_foldl]
  suffices h : ∀ grouped : List (String × List String),
      (grouped.map Prod.fst).Nodup →
        ((s.groups.foldl (fileGroup settings) grouped).map Prod.fst).Nodup from
    h [] List.nodup_nil
  induction s.groups with
  | nil => exact fun _ h => h
  | cons g gs ih => exact fun grouped h => ih _ (nodup_keys_mergeInto h)

/-- The texts of all groups, together, are the snippets that are not blank. -/
theorem mem_texts_byNamespace {s : Snippets} {settings : Settings}
    {t : String} :
    t ∈ (s.byNamespace settings).flatMap Prod.snd
      ↔ t ∈ s.groups.flatMap Prod.snd ∧ Chars.isBlankText t = false := by
  rw [byNamespace_eq_foldl]
  suffices h : ∀ grouped : List (String × List String),
      t ∈ (s.groups.foldl (fileGroup settings) grouped).flatMap Prod.snd
        ↔ t ∈ grouped.flatMap Prod.snd
          ∨ t ∈ s.groups.flatMap Prod.snd ∧ Chars.isBlankText t = false by
    simpa using h []
  induction s.groups with
  | nil => simp
  | cons g gs ih =>
      intro grouped
      rw [List.foldl_cons, ih, fileGroup, mem_texts_mergeInto, List.mem_filter,
        List.flatMap_cons, List.mem_append, Bool.not_eq_true',
        or_and_right, or_assoc]
      exact or_left_comm

/-- There is nothing to compile exactly when every snippet is blank. -/
theorem toUnits_eq_nil_iff (s : Snippets) (host : Program)
    (settings : Settings) :
    s.toUnits host settings = []
      ↔ ∀ t ∈ s.groups.flatMap Prod.snd, Chars.isBlankText t = true := by
  have hunits : s.toUnits host settings = []
      ↔ ∀ t, t ∉ (s.byNamespace settings).flatMap Prod.snd := by
    simp only [toUnits, List.map_eq_nil_iff, List.filter_eq_nil_iff,
      Bool.not_eq_true, Bool.not_eq_false', List.isEmpty_iff,
      ← List.eq_nil_iff_forall_not_mem, List.flatMap_eq_nil_iff]
  rw [hunits]
  constructor
  · intro h t ht
    cases hblank : Chars.isBlankText t with
    | true => rfl
    | false => exact absurd (mem_texts_byNamespace.mpr ⟨ht, hblank⟩) (h t)
  · intro h t ht
    obtain ⟨hmem, hblank⟩ := mem_texts_byNamespace.mp ht
    rw [h t hmem] at hblank
    cases hblank

/-- The units and the groups they are made of, one for one. -/
theorem origins_toUnits (s : Snippets) (host : Program) (settings : Settings) :
    (s.toUnits host settings).map SourceUnit.origin
      = ((s.byNamespace settings).filter fun g => !g.2.isEmpty).map
          fun g => exampleOrigin g.1 := by
  simp [toUnits, List.map_map, Function.comp_def]

theorem exists_origin_of_mem_toUnits {s : Snippets} {host : Program}
    {settings : Settings} {u : SourceUnit} (h : u ∈ s.toUnits host settings) :
    ∃ space, u.origin = exampleOrigin space := by
  have hmem := List.mem_map_of_mem (f := SourceUnit.origin) h
  rw [origins_toUnits] at hmem
  obtain ⟨g, -, hg⟩ := List.mem_map.mp hmem
  exact ⟨g.1, hg.symm⟩

theorem nodup_origins_toUnits (s : Snippets) (host : Program)
    (settings : Settings) :
    ((s.toUnits host settings).map SourceUnit.origin).Nodup := by
  rw [origins_toUnits]
  have hkeys : (((s.byNamespace settings).filter fun g => !g.2.isEmpty).map
      Prod.fst).Nodup :=
    (List.filter_sublist.map Prod.fst).nodup (nodup_keys_byNamespace s settings)
  rw [List.nodup_iff_pairwise_ne, List.pairwise_map] at hkeys ⊢
  exact hkeys.imp fun hne heq => hne (exampleOrigin_injective heq)

end Snippets

/-! ## The workspace drops out -/

namespace Workspace

/-- Putting units of new origins, without parsing them, lines them up behind
the ones that are there. -/
theorem foldl_put_of_nodup :
    ∀ (units : List SourceUnit) (ws : Workspace),
      ((ws.units ++ units).map SourceUnit.origin).Nodup →
        units.foldl (fun ws unit => ws.put true unit) ws
          = { ws with entries := ws.entries ++ units.map fun u => ⟨u, none⟩ }
  | [], ws, _ => by simp
  | u :: us, ws, hnodup => by
      have hput : putEntry u ws.entries = ws.entries ++ [⟨u, none⟩] := by
        have hnew : ∀ e ∈ ws.entries, e.unit.origin ≠ u.origin := by
          intro e he heq
          rw [List.map_append, List.nodup_append] at hnodup
          exact hnodup.2.2 e.unit.origin
            (List.mem_map_of_mem (List.mem_map_of_mem he)) u.origin
            (by simp) heq
        generalize ws.entries = entries at hnew
        induction entries with
        | nil => rfl
        | cons e rest ih =>
            rw [putEntry, if_neg (hnew e (by simp)),
              ih (fun e' he' => hnew e' (List.mem_cons_of_mem _ he')),
              List.cons_append]
      rw [List.foldl_cons]
      have hstep : ws.put true u
          = { ws with entries := ws.entries ++ [⟨u, none⟩] } := by
        simp [put, hput]
      rw [hstep, foldl_put_of_nodup us]
      · simp
      · simpa [units] using hnodup

def ofUnits (units : List SourceUnit) (library : Library) : Workspace :=
  ⟨units.map fun u => ⟨u, none⟩, library, 0⟩

theorem add_empty {units : List SourceUnit}
    (hunits : ∀ u ∈ units, u.origin.isReference = false)
    (hnodup : (units.map SourceUnit.origin).Nodup) :
    Workspace.empty.add units true = .ok (ofUnits units .empty) := by
  have hnone : units.findSome? Workspace.empty.rejection? = none := by
    rw [List.findSome?_eq_none_iff]
    intro u hu
    rw [rejection?, hunits u hu]
    rfl
  rw [add, hnone, foldl_put_of_nodup units .empty hnodup]
  rfl

theorem link_ofUnits {units : List SourceUnit} {library : Library} {o : Origin}
    (hlibrary : library.origins = [o]) (ho : o.isReference = true)
    (hunits : ∀ u ∈ units, u.origin.name ≠ o.name) :
    (ofUnits units .empty).link library = .ok (ofUnits units library) := by
  have hfree : ((ofUnits units .empty).entries.any
      fun e => e.unit.origin.name == o.name) = false := by
    rw [List.any_eq_false]
    intro e he
    obtain ⟨u, hu, rfl⟩ := List.mem_map.mp he
    simpa using hunits u hu
  have hnone : library.origins.findSome? (ofUnits units .empty).linkRejection?
      = none := by
    rw [List.findSome?_eq_none_iff, hlibrary]
    intro o' ho'
    rw [List.mem_singleton.mp ho', linkRejection?, ho, hfree]
    rfl
  rw [link, hnone]
  rfl

theorem build_ofUnits (units : List SourceUnit) (library : Library) :
    (ofUnits units library).build.1
      = .ofUnits library (units.map fun u => (u.origin, u.parse)) := by
  simp [build, ofUnits, parseWhere, Entry.parse, Entry.result,
    Function.comp_def]

/-- An empty workspace refuses no generated units and no headers, and builds
each unit as it is. -/
theorem buildExamples_empty {units : List SourceUnit} {library : Library}
    (hunits : ∀ u ∈ units, ∃ space, u.origin = exampleOrigin space)
    (hnodup : (units.map SourceUnit.origin).Nodup)
    (hlibrary : library.origins = [hostHeaders]) :
    Workspace.empty.buildExamples units library
      = .ok
        (⟨(Build.ofUnits library
            (units.map fun u => (u.origin, u.parse))).program,
          (Build.ofUnits library
            (units.map fun u => (u.origin, u.parse))).diagnostics,
          Origin.sorted (units.map SourceUnit.origin)⟩,
        (ofUnits units library).build.2) := by
  have hadd : Workspace.empty.add units true = .ok (ofUnits units .empty) := by
    refine add_empty (fun u hu => ?_) hnodup
    obtain ⟨space, hspace⟩ := hunits u hu
    rw [hspace]
    rfl
  have hlink : (ofUnits units .empty).link library
      = .ok (ofUnits units library) := by
    refine link_ofUnits hlibrary rfl (fun u hu => ?_)
    obtain ⟨space, hspace⟩ := hunits u hu
    rw [hspace]
    exact exampleOrigin_name_ne space
  rw [buildExamples, hadd, ← build_ofUnits]
  simp only [bind, Except.bind, hlink, pure, Except.pure]

end Workspace

/-! ## The law of outcomes -/

/-- The build of a host's example units, against the host's headers. -/
def Program.exampleBuild (host : Program) (settings : Settings) : Build :=
  .ofUnits host.headerLibrary
    (((Snippets.ofProgram settings host).toUnits host settings).map
      fun u => (u.origin, u.parse))

/-- A harvest under valid settings, said without a workspace. -/
def Program.harvested (host : Program) (settings : Settings) : Harvest :=
  let snippets := Snippets.ofProgram settings host
  let warnings := snippets.warnings settings
  let units := snippets.toUnits host settings
  let build := host.exampleBuild settings
  let origins := Origin.sorted (units.map SourceUnit.origin)
  if units.isEmpty then ⟨host, warnings, units, [], .noExamples⟩
  else if build.hasErrors then
    ⟨host, warnings ++ build.diagnostics, units, [], .failed⟩
  else
    ⟨(host.mergeFrom build.program origins).markTests origins
      settings.testMarks, warnings ++ build.diagnostics, units,
      (host.mergeFrom build.program origins).tests origins, .merged⟩

theorem harvest_of_valid {settings : Settings} (h : settings.validate = .ok ())
    (host : Program) :
    host.harvest settings = .ok (host.harvested settings) := by
  have hbuild := Workspace.buildExamples_empty
    (fun u hu => Snippets.exists_origin_of_mem_toUnits hu)
    (Snippets.nodup_origins_toUnits (Snippets.ofProgram settings host)
      host settings)
    (show host.headerLibrary.origins = [hostHeaders] from rfl)
  rw [← Program.exampleBuild] at hbuild
  unfold Program.harvest Workspace.harvest Program.harvested
  rw [h]
  simp only [hbuild]
  by_cases hempty :
    ((Snippets.ofProgram settings host).toUnits host settings).isEmpty = true
  · rw [if_pos hempty, if_pos hempty]
    rfl
  · rw [if_neg hempty, if_neg hempty]
    by_cases herr : (host.exampleBuild settings).hasErrors = true
    · rw [if_pos herr, if_pos]
      · rfl
      · exact herr
    · rw [if_neg herr, if_neg]
      · rfl
      · exact herr

theorem harvest_of_invalid {settings : Settings} {why : SettingsError}
    (h : settings.validate = .error why) (host : Program) :
    host.harvest settings = .error (.settings why) := by
  unfold Program.harvest Workspace.harvest
  rw [h]
  rfl

theorem eq_harvested_of_ok {host : Program} {settings : Settings} {h : Harvest}
    (hrun : host.harvest settings = .ok h) : h = host.harvested settings := by
  cases hvalid : settings.validate with
  | error why =>
      rw [harvest_of_invalid hvalid] at hrun
      cases hrun
  | ok u =>
      rw [harvest_of_valid hvalid] at hrun
      exact (Except.ok.inj hrun).symm

/-- Warnings about fences are no errors. -/
theorem Snippets.hasErrors_warnings (s : Snippets) (settings : Settings) :
    hasErrors (s.warnings settings) = false := by
  have hfence : ∀ a : OpenFence, a.toDiagnostic.isError = false := by
    intro a
    unfold OpenFence.toDiagnostic
    dsimp only
    split <;> rfl
  unfold warnings
  split
  · rfl
  · simp [hasErrors, hfence]

theorem hasErrors_append (as bs : List Diagnostic) :
    hasErrors (as ++ bs) = (hasErrors as || hasErrors bs) := List.any_append

theorem harvested_outcome (host : Program) (settings : Settings) :
    let snippets := (Snippets.ofProgram settings host).groups.flatMap Prod.snd
    let h := host.harvested settings
    (h.status = .noExamples ↔ ∀ t ∈ snippets, Chars.isBlankText t = true)
      ∧ (h.status = .failed ↔ hasErrors h.diagnostics = true)
      ∧ (h.status = .merged
        ↔ (∃ t ∈ snippets, Chars.isBlankText t = false)
          ∧ hasErrors h.diagnostics = false)
      ∧ (h.status ≠ .merged → h.program = host ∧ h.tests = []) := by
  intro snippets h
  have hsome : (∃ t ∈ snippets, Chars.isBlankText t = false)
      ↔ ¬∀ t ∈ snippets, Chars.isBlankText t = true := by simp
  rw [hsome, ← Snippets.toUnits_eq_nil_iff (Snippets.ofProgram settings host)
    host settings]
  have hwarn := (Snippets.ofProgram settings host).hasErrors_warnings settings
  -- the three branches of `harvested`, in its own order
  by_cases hempty : (Snippets.ofProgram settings host).toUnits host settings
    = []
  · have hh : h = ⟨host, (Snippets.ofProgram settings host).warnings settings,
        (Snippets.ofProgram settings host).toUnits host settings, [],
        .noExamples⟩ :=
      if_pos (List.isEmpty_iff.mpr hempty)
    simp [hh, hempty, hwarn]
  · have hne : ¬((Snippets.ofProgram settings host).toUnits host
        settings).isEmpty = true :=
      fun hc => hempty (List.isEmpty_iff.mp hc)
    by_cases herr : (host.exampleBuild settings).hasErrors = true
    · have hh : h = ⟨host, (Snippets.ofProgram settings host).warnings settings
            ++ (host.exampleBuild settings).diagnostics,
          (Snippets.ofProgram settings host).toUnits host settings, [],
          .failed⟩ :=
        (if_neg hne).trans (if_pos herr)
      have hdiag : hasErrors h.diagnostics = true := by
        rw [hh, hasErrors_append, hwarn]
        exact herr
      simp [hdiag, hempty]
      simp [hh]
    · have hmerged : h.status = .merged := by
        simp [h, Program.harvested, hne, herr]
      have hdiag : hasErrors h.diagnostics = false := by
        have hd : h.diagnostics
          = (Snippets.ofProgram settings host).warnings settings
            ++ (host.exampleBuild settings).diagnostics := by
          simp [h, Program.harvested, hne, herr]
        rw [hd, hasErrors_append, hwarn]
        exact Bool.eq_false_iff.mpr herr
      simp [hmerged, hdiag, hempty]

/-- **The law of outcomes.** A harvest fails exactly when its settings are
refused, and with that refusal; the workspace never adds one of its own.
Otherwise it ends without examples exactly when every snippet is blank, as
failed exactly when its diagnostics have an error, and as merged in all other
cases; and unless it is merged, the program is the host and nothing is a
test. -/
theorem harvest_outcome (host : Program) (settings : Settings) :
    (∀ e, host.harvest settings = .error e
      ↔ ∃ why, settings.validate = .error why ∧ e = .settings why)
    ∧ (settings.validate = .ok () ↔ ∃ h, host.harvest settings = .ok h)
    ∧ ∀ h, host.harvest settings = .ok h →
      (h.status = .noExamples
        ↔ ∀ t ∈ (Snippets.ofProgram settings host).groups.flatMap Prod.snd,
            Chars.isBlankText t = true)
      ∧ (h.status = .failed ↔ hasErrors h.diagnostics = true)
      ∧ (h.status = .merged
        ↔ (∃ t ∈ (Snippets.ofProgram settings host).groups.flatMap Prod.snd,
            Chars.isBlankText t = false) ∧ hasErrors h.diagnostics = false)
      ∧ (h.status ≠ .merged → h.program = host ∧ h.tests = []) := by
  cases hvalid : settings.validate with
  | error why =>
      have hrun := harvest_of_invalid hvalid host
      refine ⟨fun e => ?_, ?_, ?_⟩
      · simp [hrun, eq_comm]
      · simp [hrun]
      · intro h hh
        rw [hrun] at hh
        cases hh
  | ok u =>
      have hrun := harvest_of_valid hvalid host
      refine ⟨fun e => ?_, ?_, ?_⟩
      · simp [hrun]
      · simp [hrun]
      · intro h hh
        obtain rfl := eq_harvested_of_ok hh
        exact harvested_outcome host settings

/-- A host of one operation, `Flip`, with one line of code as its example. -/
def hostWithExample (line : String) : Program :=
  ⟨[⟨"Demo", [],
      [⟨⟨"Demo", "Flip"⟩, ["# Example", "```", line, "```"],
        .primary "main.vl", .nowhere,
        .callable ⟨.operation, [], .builtin .unit, [], some []⟩⟩]⟩], []⟩

/-- An example that calls what does not exist: the harvest fails, with an
error among its diagnostics, and leaves the host alone. -/
theorem harvest_outcome_unresolved :
    ∃ h, (hostWithExample "operation T() : Unit \x7b Flop(); \x7d").harvest {}
      = .ok h
      ∧ h.status = .failed ∧ hasErrors h.diagnostics = true
      ∧ h.program = hostWithExample "operation T() : Unit \x7b Flop(); \x7d"
      ∧ h.tests = [] := by
  obtain ⟨-, -, hlaw⟩ :=
    harvest_outcome (hostWithExample "operation T() : Unit \x7b Flop(); \x7d")
      {}
  have hrun :
      ((hostWithExample "operation T() : Unit \x7b Flop(); \x7d").harvest
        {}).toOption.map Harvest.status = some .failed := by decide +kernel
  cases hh : (hostWithExample "operation T() : Unit \x7b Flop(); \x7d").harvest
    {} with
  | error e =>
      rw [hh] at hrun
      cases hrun
  | ok h =>
      rw [hh] at hrun
      have hfailed : h.status = .failed := Option.some.inj hrun
      obtain ⟨-, herr, -, hhost⟩ := hlaw h hh
      exact ⟨h, rfl, hfailed, herr.mp hfailed, hhost (by rw [hfailed]; decide)⟩

end Exemplar
