import Exemplar.Proofs.Example.Outcome
import Exemplar.Proofs.Workspace.Order

/-!
# Harvests in one workspace

A harvest can be made in a workspace that earlier harvests have used. Each one
replaces the library, but a workspace keeps the units it was given: the
examples of earlier programs are built again, now against the headers of the
new one, and may not fit (`harvest_reused_stale`).

The headline `harvest_reused` says what is built: for each namespace its latest
unit, in the order in which the namespaces first came up. The rest of a harvest
does not look at the workspace, so it is the one that a new workspace gives as
soon as no unit of another namespace is left over and the order is the same. If
only the order differs, it ends in the same way.

Nothing is ever refused along the way. The invariant is `HoldsExamples`: all
units are generated, and what is linked are the headers of a host.
-/

namespace Exemplar

/-! ## What is built -/

def Program.exampleUnits (settings : Settings) (host : Program) :
    List SourceUnit :=
  (Snippets.ofProgram settings host).toUnits host settings

theorem nodup_origins_exampleUnits (settings : Settings) (host : Program) :
    ((host.exampleUnits settings).map SourceUnit.origin).Nodup :=
  Snippets.nodup_origins_toUnits ..

theorem exists_origin_of_mem_exampleUnits {settings : Settings} {host : Program}
    {u : SourceUnit} (hu : u ∈ host.exampleUnits settings) :
    ∃ space, u.origin = exampleOrigin space :=
  Snippets.exists_origin_of_mem_toUnits hu

theorem isReference_of_mem_exampleUnits {settings : Settings} {host : Program}
    {u : SourceUnit} (hu : u ∈ host.exampleUnits settings) :
    u.origin.isReference = false := by
  obtain ⟨space, hspace⟩ := exists_origin_of_mem_exampleUnits hu
  rw [hspace]
  rfl

/-- A harvest whose examples are built among the given units. -/
def Program.harvestedAmong (host : Program) (settings : Settings)
    (units : List SourceUnit) :
    Harvest :=
  let warnings := (Snippets.ofProgram settings host).warnings settings
  let own := host.exampleUnits settings
  let build := Build.ofSources host.headerLibrary units
  let origins := Origin.sorted (own.map SourceUnit.origin)
  if own.isEmpty then ⟨host, warnings, own, [], .noExamples⟩
  else if build.hasErrors then ⟨host, warnings ++ build.diagnostics, own,
    [], .failed⟩
  else
    ⟨(host.mergeFrom build.program origins).markTests origins
      settings.testMarks, warnings ++ build.diagnostics, own,
      (host.mergeFrom build.program origins).tests origins, .merged⟩

theorem harvested_eq_among (host : Program) (settings : Settings) :
    host.harvested settings
      = host.harvestedAmong settings (host.exampleUnits settings) := rfl

section Among

variable {host : Program} {settings : Settings} {units units' : List SourceUnit}

theorem harvestedAmong_of_nil (h : host.exampleUnits settings = []) :
    host.harvestedAmong settings units
      = host.harvestedAmong settings units' := by
  have hempty : (host.exampleUnits settings).isEmpty = true :=
    List.isEmpty_iff.mpr h
  rw [Program.harvestedAmong, Program.harvestedAmong, if_pos hempty,
    if_pos hempty]

/-- In another order, the build has errors or not as before. -/
theorem status_among_perm (hunits : ∀ u ∈ units, u.origin.isReference = false)
    (hperm : units.Perm units') :
    (host.harvestedAmong settings units).status
      = (host.harvestedAmong settings units').status := by
  have herrors : (Build.ofSources host.headerLibrary units).hasErrors
      = (Build.ofSources host.headerLibrary units').hasErrors :=
      Build.hasErrors_perm hunits hperm
  simp only [Program.harvestedAmong, herrors, apply_ite Harvest.status]

theorem units_among :
    (host.harvestedAmong settings units).units
      = host.exampleUnits settings := by
  simp only [Program.harvestedAmong, apply_ite Harvest.units, ite_self]

theorem diagnostics_among (h : host.exampleUnits settings ≠ []) :
    (host.harvestedAmong settings units).diagnostics
      = (Snippets.ofProgram settings host).warnings settings
        ++ (Build.ofSources host.headerLibrary units).diagnostics := by
  have hne : ¬(host.exampleUnits settings).isEmpty = true := fun hc =>
    h (List.isEmpty_iff.mp hc)
  rw [Program.harvestedAmong, if_neg hne]
  split <;> rfl

/-- In another order, and if no name is defined twice, the reports are the same
but for their order. -/
theorem perm_diagnostics_among
    (hunits : ∀ u ∈ units, u.origin.isReference = false)
    (hperm : units.Perm units')
    (hcodes : ∀ d ∈ (host.harvestedAmong settings units).diagnostics,
      d.code ≠ some "E0201") :
    (host.harvestedAmong settings units).diagnostics.Perm
      (host.harvestedAmong settings units').diagnostics := by
  by_cases hown : host.exampleUnits settings = []
  · rw [harvestedAmong_of_nil hown]
  · rw [diagnostics_among hown] at hcodes ⊢
    rw [diagnostics_among hown]
    have hclear := (Build.duplicates_ofSources_iff hunits).mp
      (Build.duplicates_of_not_code fun d hd =>
        hcodes d (List.mem_append_right _ hd))
    exact (Build.perm_diagnostics hclear hunits hperm).append_left _

end Among

/-! ## What is left over -/

theorem eraseDups_of_nodup {α : Type} [DecidableEq α] {as : List α}
    (h : as.Nodup) :
    as.eraseDups = as := by
  induction as using List.reverseRecOn with
  | nil => rfl
  | append_singleton as a ih =>
      obtain ⟨has, -, hdisjoint⟩ := List.nodup_append.mp h
      have ha : a ∉ as := fun hmem =>
        hdisjoint a hmem a (List.mem_singleton_self a) rfl
      rw [eraseDups_concat, ih has, if_neg ha]

/-- Distinct entries that start with those of another list stay as they are
behind it. -/
theorem eraseDups_append_of_isPrefix {α : Type} [DecidableEq α] {as bs : List α}
    (hbs : bs.Nodup) (h : as.eraseDups <+: bs) : (as ++ bs).eraseDups = bs := by
  obtain ⟨rest, rfl⟩ := h
  obtain ⟨-, hrest, hdisjoint⟩ := List.nodup_append.mp hbs
  have hold : as.eraseDups.filter (fun a => !as.contains a) = [] := by
    rw [List.filter_eq_nil_iff]
    intro a ha
    simp [List.mem_eraseDups.mp ha]
  have hnew : rest.filter (fun a => !as.contains a) = rest := by
    rw [List.filter_eq_self]
    intro a ha
    have hnot : a ∉ as := fun hmem =>
      hdisjoint a (List.mem_eraseDups.mpr hmem) a ha rfl
    simpa using hnot
  rw [List.eraseDups_append, List.removeAll]
  change _ ++ ((as.eraseDups ++ rest).filter fun a => !as.contains a).eraseDups
    = _
  rw [List.filter_append, hold, hnew, List.nil_append, eraseDups_of_nodup hrest]

section Settled

variable {kept own : List SourceUnit}

/-- If all origins come up again, the later units count, in the order of all
origins. -/
theorem settled_append_of_covered
    (h : ∀ u ∈ kept, u.origin ∈ own.map SourceUnit.origin) :
    settled (kept ++ own)
      = ((kept ++ own).map SourceUnit.origin).eraseDups.filterMap fun o =>
          (own.filter fun u => u.origin == o).getLast? := by
  refine List.filterMap_congr fun o ho => ?_
  have howns : o ∈ own.map SourceUnit.origin := by
    obtain ⟨u, hu, rfl⟩ := List.mem_map.mp (List.mem_eraseDups.mp ho)
    exact (List.mem_append.mp hu).elim (h u) (List.mem_map_of_mem ·)
  obtain ⟨v, hv, -⟩ := exists_getLast?_filter howns
  rw [List.filter_append, List.getLast?_append, hv, Option.some_or]

theorem filterMap_own (h : (own.map SourceUnit.origin).Nodup) :
    ((own.map SourceUnit.origin).filterMap fun o =>
      (own.filter fun u => u.origin == o).getLast?) = own := by
  have hsettled := settled_of_nodup h
  rwa [settled, eraseDups_of_nodup h] at hsettled

theorem settled_append_of_isPrefix (hown : (own.map SourceUnit.origin).Nodup)
    (h : (kept.map SourceUnit.origin).eraseDups <+: own.map SourceUnit.origin) :
    settled (kept ++ own) = own := by
  have hcovered : ∀ u ∈ kept, u.origin ∈ own.map SourceUnit.origin :=
    fun u hu => h.subset (List.mem_eraseDups.mpr (List.mem_map_of_mem hu))
  rw [settled_append_of_covered hcovered, List.map_append,
    eraseDups_append_of_isPrefix hown h, filterMap_own hown]

theorem perm_settled_append (hown : (own.map SourceUnit.origin).Nodup)
    (h : ∀ u ∈ kept, u.origin ∈ own.map SourceUnit.origin) :
    (settled (kept ++ own)).Perm own := by
  have horigins : ((kept ++ own).map SourceUnit.origin).eraseDups.Perm
      (own.map SourceUnit.origin) := by
    rw [List.perm_ext_iff_of_nodup (nodup_eraseDups _) hown]
    intro o
    rw [List.mem_eraseDups, List.map_append, List.mem_append,
      or_iff_right_iff_imp]
    intro ho
    obtain ⟨u, hu, rfl⟩ := List.mem_map.mp ho
    exact h u hu
  have hperm := horigins.filterMap fun o =>
    (own.filter fun u => u.origin == o).getLast?
  rwa [filterMap_own hown, ← settled_append_of_covered h] at hperm

/-- If all namespaces have examples again, a harvest among what is left over
ends as one on its own. -/
theorem harvestedAmong_of_covered {settings : Settings} {host : Program}
    (h : ∀ u ∈ kept, u.origin
      ∈ (host.exampleUnits settings).map SourceUnit.origin) :
    let alone := host.harvestedAmong settings (host.exampleUnits settings)
    let among := host.harvestedAmong settings
      (settled (kept ++ host.exampleUnits settings))
    among.units = alone.units ∧ among.status = alone.status
      ∧ ((∀ d ∈ alone.diagnostics, d.code ≠ some "E0201") →
        alone.diagnostics.Perm among.diagnostics) := by
  intro alone among
  have hcompiled : ∀ u ∈ host.exampleUnits settings,
      u.origin.isReference = false :=
    fun u hu => isReference_of_mem_exampleUnits hu
  have hperm :=
    (perm_settled_append (nodup_origins_exampleUnits settings host) h).symm
  refine ⟨?_, (status_among_perm hcompiled hperm).symm,
    perm_diagnostics_among hcompiled hperm⟩
  exact units_among.trans units_among.symm

end Settled

/-! ## One harvest, and many -/

namespace Workspace

/-- The workspace has been given generated units, in this order, and is linked
against headers of a host at most. -/
structure HoldsExamples (ws : Workspace) (given : List SourceUnit) : Prop where
  generated : ∀ u ∈ given, ∃ space, u.origin = exampleOrigin space
  headers : ∀ o ∈ ws.library.origins, o = hostHeaders
  follows : ws.Follows ⟨given, ws.library⟩

theorem HoldsExamples.empty : Workspace.empty.HoldsExamples [] :=
  ⟨nofun, nofun, Follows.empty⟩

/-- Generated units are accepted, and then the headers of a host. -/
theorem HoldsExamples.buildExamples {ws : Workspace}
    {given units : List SourceUnit} {library : Library}
    (h : ws.HoldsExamples given)
    (hunits : ∀ u ∈ units, ∃ space, u.origin = exampleOrigin space)
    (hlibrary : library.origins = [hostHeaders]) :
    ∃ ws', ws.buildExamples units library
        = .ok (⟨(Build.ofSources library (settled (given ++ units))).program,
            (Build.ofSources library (settled (given ++ units))).diagnostics,
            Origin.sorted (units.map SourceUnit.origin)⟩, ws')
      ∧ ws'.HoldsExamples (given ++ units) := by
  have hgenerated : ∀ u ∈ given ++ units, ∃ space,
      u.origin = exampleOrigin space := fun u hu =>
    (List.mem_append.mp hu).elim (h.generated u) (hunits u)
  have hadmits : units.all (Ledger.mk given ws.library).admits = true := by
    refine List.all_eq_true.mpr fun u hu => Ledger.admits_iff.mpr ?_
    obtain ⟨space, hspace⟩ := hunits u hu
    rw [hspace]
    refine ⟨rfl, fun o ho => ?_⟩
    rw [h.headers o ho]
    exact (exampleOrigin_name_ne space).symm
  have hadded : Follows (units.foldl (fun ws u => ws.put true u) ws)
      ⟨given ++ units, ws.library⟩ := Follows.foldl_put true units h.follows
  have hlinks : library.origins.all
      (Ledger.mk (given ++ units) ws.library).links = true := by
    refine List.all_eq_true.mpr fun o ho => Ledger.links_iff.mpr ?_
    rw [hlibrary, List.mem_singleton] at ho
    refine ⟨ho ▸ rfl, fun u hu => ?_⟩
    obtain ⟨space, hspace⟩ := hgenerated u hu
    rw [hspace, ho]
    exact exampleOrigin_name_ne space
  have hlinked := hadded.link library
  have hbuild := hlinked.sound.build_eq
  rw [hlinked.library, hlinked.units] at hbuild
  refine ⟨_, ?_, hgenerated, fun o ho => ?_, hlinked.call .build⟩
  · rw [Workspace.buildExamples, add_of_admits h.follows hadmits true]
    simp only [bind, Except.bind, link_of_links hadded hlinks, pure,
      Except.pure, ← hbuild]
    rfl
  · exact List.mem_singleton.mp (hlibrary ▸ ho)

/-- One harvest: its units are built with those that are there, and stay. -/
theorem HoldsExamples.harvest {ws : Workspace} {given : List SourceUnit}
    (h : ws.HoldsExamples given) {settings : Settings}
    (hvalid : settings.validate = .ok ()) (host : Program) :
    ∃ ws', ws.harvest settings host
        = .ok
          (host.harvestedAmong settings
            (settled (given ++ host.exampleUnits settings)), ws')
      ∧ ws'.HoldsExamples (given ++ host.exampleUnits settings) := by
  by_cases hempty : (host.exampleUnits settings).isEmpty = true
  · refine ⟨ws, ?_, ?_⟩
    · rw [Workspace.harvest, hvalid, Program.harvestedAmong, if_pos hempty]
      exact if_pos hempty
    · rw [List.isEmpty_iff.mp hempty, List.append_nil]
      exact h
  · obtain ⟨ws', hbuild, hws'⟩ := h.buildExamples
      (fun u hu => exists_origin_of_mem_exampleUnits hu)
      (show host.headerLibrary.origins = [hostHeaders] from rfl)
    refine ⟨ws', ?_, hws'⟩
    rw [Workspace.harvest, hvalid, Program.harvestedAmong, if_neg hempty]
    refine (if_neg hempty).trans ?_
    rw [← Program.exampleUnits, hbuild]
    dsimp only
    rw [ExampleBuild.hasErrors, ← Build.hasErrors]
    split <;> rfl

theorem harvest_of_invalid {settings : Settings} {why : SettingsError}
    (h : settings.validate = .error why) (ws : Workspace) (host : Program) :
    ws.harvest settings host = .error (.settings why) := by
  rw [Workspace.harvest, h]

/-- The workspace after a harvest, which stays as it is when there is none. -/
def afterHarvest (settings : Settings) (ws : Workspace) (host : Program) :
    Workspace :=
  match ws.harvest settings host with
  | .ok (_, ws') => ws'
  | .error _ => ws

/-- A new workspace after harvests, one after the other. -/
def afterHarvests (settings : Settings) (hosts : List Program) : Workspace :=
  hosts.foldl (afterHarvest settings) empty

theorem holdsExamples_afterHarvests {settings : Settings}
    (hvalid : settings.validate = .ok ()) (hosts : List Program) :
    (afterHarvests settings hosts).HoldsExamples
      (hosts.flatMap (Program.exampleUnits settings)) := by
  induction hosts using List.reverseRecOn with
  | nil => exact HoldsExamples.empty
  | append_singleton hosts host ih =>
      obtain ⟨ws', hrun, hws'⟩ := ih.harvest hvalid host
      rw [afterHarvests, List.foldl_append, List.foldl_cons, List.foldl_nil,
        ← afterHarvests, afterHarvest, hrun, List.flatMap_append,
        List.flatMap_singleton]
      exact hws'

end Workspace

/-- **Harvests in a workspace that was used before.** Let programs be harvested
one after the other in a new workspace, and then `host`. Refused settings are
refused again. Otherwise the examples of `host` are built among the latest
units of all namespaces that had examples so far, those of `host` replacing
older ones. It is the harvest that a new workspace gives if `host` has no
examples, or if the namespaces of its examples start with those that had some
before. If at least all of these have examples again, the harvest ends in the
same way, and with the same reports but for their order unless a name is
defined twice. -/
theorem harvest_reused (settings : Settings) (earlier : List Program)
    (host : Program) :
    let kept := earlier.flatMap (Program.exampleUnits settings)
    let own := host.exampleUnits settings
    let reused :=
      ((Workspace.afterHarvests settings earlier).harvest settings host).map
        Prod.fst
    (∀ why, settings.validate = .error why →
        reused = .error (.settings why) ∧ host.harvest settings
          = .error (.settings why))
      ∧ (settings.validate = .ok () →
          reused = .ok (host.harvestedAmong settings (settled (kept ++ own)))
            ∧ host.harvest settings = .ok (host.harvestedAmong settings own))
      ∧ (own = [] ∨ (kept.map SourceUnit.origin).eraseDups
        <+: own.map SourceUnit.origin →
          reused = host.harvest settings)
      ∧ ((∀ u ∈ kept, u.origin ∈ own.map SourceUnit.origin) →
          ∀ h, host.harvest settings = .ok h →
            ∃ h', reused = .ok h' ∧ h'.units = h.units ∧ h'.status = h.status
              ∧ ((∀ d ∈ h.diagnostics, d.code ≠ some "E0201") →
                h.diagnostics.Perm h'.diagnostics)) := by
  intro kept own reused
  cases hsettings : settings.validate with
  | error why =>
      have hagain : reused = .error (.settings why) :=
        congrArg (Except.map Prod.fst)
          (Workspace.harvest_of_invalid hsettings _ host)
      rw [hagain, harvest_of_invalid hsettings host]
      refine ⟨fun why' hwhy => ?_, nofun, fun _ => rfl,
        fun _ h hrun => nomatch hrun⟩
      obtain rfl := Except.error.inj hwhy
      exact ⟨rfl, rfl⟩
  | ok =>
      obtain ⟨ws', hrun, -⟩ :=
        (Workspace.holdsExamples_afterHarvests hsettings earlier).harvest
          hsettings host
      have hagain : reused
          = .ok (host.harvestedAmong settings (settled (kept ++ own))) :=
        congrArg (Except.map Prod.fst) hrun
      rw [hagain, harvest_of_valid hsettings host, harvested_eq_among]
      refine ⟨nofun, fun _ => ⟨rfl, rfl⟩, fun hsame => ?_,
        fun hcovered h hfresh => ?_⟩
      · rcases hsame with hnil | hstart
        · rw [harvestedAmong_of_nil hnil]
        · rw [settled_append_of_isPrefix
            (nodup_origins_exampleUnits settings host) hstart]
      · obtain rfl := Except.ok.inj hfresh
        exact ⟨_, rfl, harvestedAmong_of_covered hcovered⟩

/-- In each of the namespaces an operation, with an example that calls it. -/
def hostOf (spaces : List String) : Program :=
  ⟨spaces.map fun n =>
      ⟨n, [],
        [⟨⟨n, "Run"⟩,
          ["# Example", "```", "operation T() : Unit \x7b Run(); \x7d", "```"],
          .primary "main.vl", .nowhere,
        .callable ⟨.operation, [], .builtin .unit, [], some []⟩⟩]⟩, []⟩

/-- After the examples of `B`, those of `B` and `A` are harvested as in a new
workspace, and those of `A` and `B` are built in the other order. -/
theorem harvest_reused_again :
    let reused := fun host =>
      ((Workspace.afterHarvests {} [hostOf ["B"]]).harvest {} host).map Prod.fst
    reused (hostOf ["B", "A"]) = (hostOf ["B", "A"]).harvest {}
      ∧ ∃ h h', (hostOf ["A", "B"]).harvest {} = .ok h
        ∧ reused (hostOf ["A", "B"]) = .ok h'
        ∧ h.status = .merged ∧ h'.status = .merged
        ∧ h.diagnostics.Perm h'.diagnostics := by
  intro reused
  have hstart : ((hostOf ["B"]).exampleUnits {}).map SourceUnit.origin
      <+: ((hostOf ["B", "A"]).exampleUnits {}).map SourceUnit.origin := by
        decide +kernel
  have hcovered : ∀ u ∈ (hostOf ["B"]).exampleUnits {},
      u.origin ∈ ((hostOf ["A", "B"]).exampleUnits {}).map
        SourceUnit.origin := by decide +kernel
  have hfresh : ((hostOf ["A", "B"]).harvest {}).toOption.map
      (fun h => (h.status, h.diagnostics.map Diagnostic.code))
        = some (.merged, []) := by
    decide +kernel
  refine ⟨(harvest_reused {} [hostOf ["B"]] (hostOf ["B", "A"])).2.2.1
    (.inr ?_), ?_⟩
  · rw [List.flatMap_singleton,
      eraseDups_of_nodup (nodup_origins_exampleUnits ..)]
    exact hstart
  · cases hrun : (hostOf ["A", "B"]).harvest {} with
    | error e =>
        rw [hrun] at hfresh
        cases hfresh
    | ok h =>
        rw [hrun] at hfresh
        obtain ⟨hstatus, hcodes⟩ := Prod.mk.inj (Option.some.inj hfresh)
        obtain ⟨h', hagain, -, hsame, hperm⟩ :=
          (harvest_reused {} [hostOf ["B"]] (hostOf ["A", "B"])).2.2.2
            (by rwa [List.flatMap_singleton]) h hrun
        refine ⟨h, h', rfl, hagain, hstatus, hsame.trans hstatus,
          hperm fun d hd => ?_⟩
        rw [List.map_eq_nil_iff.mp hcodes] at hd
        cases hd

/-- **Examples that are left over are in the way.** The examples of `A` are
merged, and so are those of `B` in a new workspace. After `A` in the same
workspace they fail: what is left of `A` does not compile against the headers
of `B`. -/
theorem harvest_reused_stale :
    let ws := Workspace.afterHarvests {} [hostOf ["A"]]
    ((hostOf ["A"]).harvest {}).toOption.map Harvest.status = some .merged
      ∧ ((hostOf ["B"]).harvest {}).toOption.map Harvest.status = some .merged
      ∧ ((ws.harvest {} (hostOf ["B"])).map Prod.fst).toOption.map
          Harvest.status = some .failed := by
  decide +kernel

end Exemplar
