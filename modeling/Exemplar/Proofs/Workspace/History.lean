import Mathlib.Data.List.Induction
import Mathlib.Data.List.Nodup
import Exemplar.Workspace

/-!
# Histories of a workspace

A workspace keeps what it has parsed and is changed call by call. What it
builds depends on neither (`build_after`): after any calls, refused ones
included, a build gives what a new workspace gives for the units and the
library that the calls have left.

Which those are is said without a workspace, by a `Ledger`: all units of the
calls that were accepted, in order, and the library linked last. Of the units,
the last one of each origin counts, in the order in which the origins came up
(`settled`).

The argument is one invariant (`Workspace.Follows`). It has a part about the
ledger, which says that nothing is lost, and a part about what is kept
(`Workspace.Sound`), the heart of which is that a kept parse is the parse of
the text that stands there now. Each call preserves both.
-/

namespace Exemplar

/-! ## Calls -/

inductive Call where
  | add (units : List SourceUnit) (putOff : Bool)
  | link (library : Library)
  | build
deriving Repr, DecidableEq

namespace Workspace

/-- The workspace after a call, which stays as it is when the call is
refused. -/
def call (ws : Workspace) : Call → Workspace
  | .add units putOff => (ws.add units putOff).toOption.getD ws
  | .link library => (ws.link library).toOption.getD ws
  | .build => ws.build.2

/-- A new workspace after calls. -/
def after (calls : List Call) : Workspace := calls.foldl call empty

end Workspace

/-! ## Ledgers -/

/-- What calls have left: all units added, in order, and the library. -/
structure Ledger where
  added : List SourceUnit
  library : Library
deriving Repr, DecidableEq

namespace Ledger

/-- A unit can be added: it is no reference and has the name of none. -/
def admits (l : Ledger) (u : SourceUnit) : Bool :=
  !u.origin.isReference && l.library.origins.all fun o =>
    o.name != u.origin.name

/-- An origin can be linked: it is a reference and has the name of no unit. -/
def links (l : Ledger) (o : Origin) : Bool :=
  o.isReference && l.added.all fun u => u.origin.name != o.name

/-- The ledger after a call: all of it counts, or nothing. -/
def call (l : Ledger) : Call → Ledger
  | .add units _ =>
      if units.all l.admits then { l with added := l.added ++ units } else l
  | .link library =>
      if library.origins.all l.links then { l with library := library } else l
  | .build => l

def after (calls : List Call) : Ledger := calls.foldl call ⟨[], .empty⟩

end Ledger

/-- The last unit of each origin, in the order in which the origins first
appear. -/
def settled (units : List SourceUnit) : List SourceUnit :=
  (units.map SourceUnit.origin).eraseDups.filterMap fun o =>
    (units.filter fun u => u.origin == o).getLast?

/-! ## Settling one unit more -/

/-- Put a unit in the place of the one with its origin, or at the end. -/
def register (u : SourceUnit) : List SourceUnit → List SourceUnit
  | [] => [u]
  | v :: vs => if v.origin = u.origin then u :: vs else v :: register u vs

section EraseDups

variable {α : Type} [DecidableEq α]

theorem eraseDups_concat (as : List α) (a : α) :
    (as ++ [a]).eraseDups = as.eraseDups ++ if a ∈ as.eraseDups then []
      else [a] := by
  rw [List.eraseDups_append]
  by_cases ha : a ∈ as
  · simp [List.removeAll, List.mem_eraseDups, ha]
  · simp [List.removeAll, List.mem_eraseDups, ha, List.eraseDups_cons]

theorem nodup_eraseDups (as : List α) : as.eraseDups.Nodup := by
  induction as using List.reverseRecOn with
  | nil => exact List.nodup_nil
  | append_singleton as a ih =>
      rw [eraseDups_concat]
      split
      · rw [List.append_nil]
        exact ih
      · next ha =>
          exact ih.append (List.nodup_singleton a)
            (List.disjoint_singleton.mpr ha)

end EraseDups

/-- Replacing what is chosen for one origin, in a list made by choosing one
unit for each. -/
theorem filterMap_eq_register {f : Origin → Option SourceUnit}
    (u : SourceUnit) :
    ∀ {os : List Origin}, os.Nodup →
      (∀ o ∈ os, ∃ v, f o = some v ∧ v.origin = o) →
      (os ++ if u.origin ∈ os then [] else [u.origin]).filterMap
          (fun o => if u.origin = o then some u else f o)
        = register u (os.filterMap f)
  | [], _, _ => by simp [register]
  | o :: os, hnodup, hf => by
      obtain ⟨v, hv, rfl⟩ := hf o (List.mem_cons_self ..)
      rw [List.nodup_cons] at hnodup
      have ih := filterMap_eq_register u hnodup.2 fun o ho =>
        hf o (List.mem_cons_of_mem _ ho)
      rw [List.filterMap_cons_some hv, register]
      by_cases hu : u.origin = v.origin
      · -- it has its place here, and no place further on
        have hrest : os.filterMap (fun o =>
          if u.origin = o then some u else f o)
            = os.filterMap f := by
          refine List.filterMap_congr fun o ho => if_neg fun heq => ?_
          exact hnodup.1 (hu ▸ heq ▸ ho)
        rw [if_pos hu.symm, if_pos (hu ▸ List.mem_cons_self ..),
          List.append_nil, List.filterMap_cons, if_pos hu, hrest]
      · have hmem : u.origin ∈ v.origin :: os ↔ u.origin ∈ os := by simp [hu]
        rw [if_neg (Ne.symm hu), ← ih, List.cons_append, List.filterMap_cons,
          if_neg hu, hv]
        simp only [hmem]

theorem getLast?_filter_concat (us : List SourceUnit) (u : SourceUnit)
    (o : Origin) :
    ((us ++ [u]).filter fun v => v.origin == o).getLast?
      = if u.origin = o then some u
        else (us.filter fun v => v.origin == o).getLast? := by
  by_cases hu : u.origin = o <;> simp [List.filter_append, hu]

theorem exists_getLast?_filter {us : List SourceUnit} {o : Origin}
    (ho : o ∈ us.map SourceUnit.origin) :
    ∃ v, (us.filter fun u => u.origin == o).getLast? = some v ∧ v.origin = o
      ∧ v ∈ us := by
  obtain ⟨u, hu, rfl⟩ := List.mem_map.mp ho
  have hmem : u ∈ us.filter fun v => v.origin == u.origin :=
    List.mem_filter.mpr ⟨hu, by simp⟩
  have hlast := List.getLast?_eq_some_getLast (List.ne_nil_of_mem hmem)
  obtain ⟨hv, horigin⟩ := List.mem_filter.mp (List.mem_of_getLast? hlast)
  exact ⟨_, hlast, by simpa using horigin, hv⟩

/-- Settling goes unit by unit. -/
theorem settled_concat (us : List SourceUnit) (u : SourceUnit) :
    settled (us ++ [u]) = register u (settled us) := by
  have hchosen : ∀ o ∈ (us.map SourceUnit.origin).eraseDups,
      ∃ v, (us.filter fun u => u.origin == o).getLast? = some v
        ∧ v.origin = o := by
    intro o ho
    obtain ⟨v, hv, horigin, -⟩ :=
      exists_getLast?_filter (List.mem_eraseDups.mp ho)
    exact ⟨v, hv, horigin⟩
  have hkey := filterMap_eq_register u (nodup_eraseDups _) hchosen
  simp only [settled, getLast?_filter_concat, List.map_append,
    List.map_singleton, eraseDups_concat]
  exact hkey

theorem mem_origins_settled {us : List SourceUnit} {o : Origin} :
    o ∈ (settled us).map SourceUnit.origin ↔ o ∈ us.map SourceUnit.origin := by
  constructor
  · intro ho
    obtain ⟨v, hv, rfl⟩ := List.mem_map.mp ho
    obtain ⟨o, -, hlast⟩ := List.mem_filterMap.mp hv
    exact List.mem_map_of_mem
      (List.mem_filter.mp (List.mem_of_getLast? hlast)).1
  · intro ho
    obtain ⟨v, hv, rfl, -⟩ := exists_getLast?_filter ho
    exact List.mem_map_of_mem
      (List.mem_filterMap.mpr ⟨_, List.mem_eraseDups.mpr ho, hv⟩)

theorem nodup_origins_register {u : SourceUnit} :
    ∀ {vs : List SourceUnit}, (vs.map SourceUnit.origin).Nodup →
      ((register u vs).map SourceUnit.origin).Nodup ∧
        ∀ o ∈ (register u vs).map SourceUnit.origin,
          o = u.origin ∨ o ∈ vs.map SourceUnit.origin
  | [], _ => by simp [register]
  | v :: vs, h => by
      rw [List.map_cons, List.nodup_cons] at h
      obtain ⟨hnodup, hmem⟩ := nodup_origins_register (u := u) h.2
      rw [register]
      by_cases hv : v.origin = u.origin
      · rw [if_pos hv, List.map_cons, List.nodup_cons, ← hv]
        exact ⟨h, fun o ho =>
          (List.mem_cons.mp ho).imp id (List.mem_cons_of_mem _)⟩
      · rw [if_neg hv, List.map_cons, List.nodup_cons]
        refine ⟨⟨fun hin => ?_, hnodup⟩, fun o ho => ?_⟩
        · exact (hmem _ hin).elim hv h.1
        · rcases List.mem_cons.mp ho with rfl | ho
          · exact Or.inr (List.mem_cons_self ..)
          · exact (hmem o ho).imp id (List.mem_cons_of_mem _)

theorem nodup_origins_settled (us : List SourceUnit) :
    ((settled us).map SourceUnit.origin).Nodup := by
  induction us using List.reverseRecOn with
  | nil => exact List.nodup_nil
  | append_singleton us u ih =>
      rw [settled_concat]
      exact (nodup_origins_register ih).1

theorem register_of_not_mem {u : SourceUnit} :
    ∀ {vs : List SourceUnit}, u.origin ∉ vs.map SourceUnit.origin →
      register u vs = vs ++ [u]
  | [], _ => rfl
  | v :: vs, h => by
      rw [List.map_cons, List.mem_cons, not_or] at h
      rw [register, if_neg (Ne.symm h.1), register_of_not_mem h.2,
        List.cons_append]

/-- Units of distinct origins are settled. -/
theorem settled_of_nodup {us : List SourceUnit}
    (h : (us.map SourceUnit.origin).Nodup) :
    settled us = us := by
  induction us using List.reverseRecOn with
  | nil => rfl
  | append_singleton us u ih =>
      rw [List.map_append, List.map_singleton, List.nodup_append] at h
      obtain ⟨hus, -, hnew⟩ := h
      have hu : u.origin ∉ us.map SourceUnit.origin := fun hmem =>
        hnew _ hmem _ (List.mem_singleton_self _) rfl
      rw [settled_concat, ih hus, register_of_not_mem hu]

/-! ## What a workspace keeps -/

def Build.ofSources (library : Library) (units : List SourceUnit) : Build :=
  .ofUnits library (units.map fun u => (u.origin, u.parse))

namespace Workspace

/-- A parse that is kept is that of the text that stands there now. -/
def Sound (ws : Workspace) : Prop :=
  ∀ e ∈ ws.entries, ∀ p, e.parsed = some p → p = e.unit.parse

theorem Sound.result_eq {ws : Workspace} (h : ws.Sound) {e : Entry}
    (he : e ∈ ws.entries) :
    e.result = e.unit.parse := by
  unfold Entry.result
  cases hp : e.parsed with
  | none => rfl
  | some p => exact h e he p hp

theorem units_parseWhere (ws : Workspace) (p : SourceUnit → Bool) :
    (ws.parseWhere p).units = ws.units := by
  simp only [units, parseWhere, List.map_map]
  refine List.map_congr_left fun e _ => ?_
  simp only [Function.comp_apply]
  split <;> rfl

theorem Sound.parseWhere {ws : Workspace} (h : ws.Sound)
    (p : SourceUnit → Bool) :
    (ws.parseWhere p).Sound := by
  intro e he q hq
  obtain ⟨e', he', rfl⟩ := List.mem_map.mp he
  split at hq
  · next hp =>
      rw [if_pos hp]
      exact (Option.some.inj hq).symm.trans (h.result_eq he')
  · next hp =>
      rw [if_neg hp]
      exact h e' he' q hq

/-- **A build says nothing about the past**: with sound parses, it is the
build of the units that stand there. -/
theorem Sound.build_eq {ws : Workspace} (h : ws.Sound) :
    ws.build.1 = .ofSources ws.library ws.units := by
  have hparsed := h.parseWhere fun _ => true
  have hunits : ((ws.parseWhere fun _ => true).entries.map fun e =>
    (e.unit.origin, e.result))
      = ws.units.map fun u => (u.origin, u.parse) := by
    rw [← units_parseWhere ws fun _ => true, units, List.map_map]
    refine List.map_congr_left fun e he => ?_
    rw [Function.comp_apply, hparsed.result_eq he]
  rw [Workspace.build, Build.ofSources, ← hunits]
  rfl

theorem units_putEntry (u : SourceUnit) (es : List Entry) :
    (putEntry u es).map Entry.unit = register u (es.map Entry.unit) := by
  induction es with
  | nil => rfl
  | cons e rest ih =>
      simp only [putEntry, List.map_cons, register]
      by_cases ho : e.unit.origin = u.origin
      · rw [if_pos ho, if_pos ho]
        by_cases ht : e.unit.text = u.text
        · have heq : e.unit = u := by
            cases hu : e.unit
            cases u
            simp_all
          simp [heq]
        · simp [ht]
      · rw [if_neg ho, if_neg ho, List.map_cons, ih]

theorem sound_putEntry {u : SourceUnit} {es : List Entry}
    (h : ∀ e ∈ es, ∀ p, e.parsed = some p → p = e.unit.parse) :
    ∀ e ∈ putEntry u es, ∀ p, e.parsed = some p → p = e.unit.parse := by
  induction es with
  | nil =>
      intro e he p hp
      rw [List.mem_singleton.mp he] at hp
      cases hp
  | cons e rest ih =>
      have hrest : ∀ e' ∈ rest, ∀ p, e'.parsed = some p → p = e'.unit.parse :=
        fun e' he' => h e' (List.mem_cons_of_mem _ he')
      intro e' he' p hp
      rw [putEntry] at he'
      split at he'
      · rcases List.mem_cons.mp he' with rfl | he'
        · -- an entry whose text has changed holds no parse
          split at hp
          · next ht =>
              rw [if_pos ht]
              exact h e (List.mem_cons_self ..) p hp
          · cases hp
        · exact hrest e' he' p hp
      · rcases List.mem_cons.mp he' with rfl | he'
        · exact h e' (List.mem_cons_self ..) p hp
        · exact ih hrest e' he' p hp

theorem Sound.put {ws : Workspace} (h : ws.Sound) (putOff : Bool)
    (u : SourceUnit) :
    (ws.put putOff u).Sound := by
  have hput : Sound { ws with entries := putEntry u ws.entries } :=
    sound_putEntry h
  unfold Workspace.put
  dsimp only
  split
  · exact hput
  · exact hput.parseWhere _

theorem units_put (ws : Workspace) (putOff : Bool) (u : SourceUnit) :
    (ws.put putOff u).units = register u ws.units := by
  unfold put
  dsimp only
  split
  · exact units_putEntry u ws.entries
  · rw [units_parseWhere]
    exact units_putEntry u ws.entries

theorem library_put (ws : Workspace) (putOff : Bool) (u : SourceUnit) :
    (ws.put putOff u).library = ws.library := by
  unfold put
  dsimp only
  split <;> rfl

/-! ## Following a ledger -/

/-- The workspace holds what the ledger says, and its parses are sound. -/
structure Follows (ws : Workspace) (l : Ledger) : Prop where
  units : ws.units = settled l.added
  library : ws.library = l.library
  sound : ws.Sound

theorem Follows.empty : Workspace.empty.Follows ⟨[], .empty⟩ :=
  ⟨rfl, rfl, fun _ he => nomatch he⟩

theorem Follows.put {ws : Workspace} {l : Ledger} (h : ws.Follows l)
    (putOff : Bool) (u : SourceUnit) :
    (ws.put putOff u).Follows { l with added := l.added ++ [u] } where
  units := by rw [units_put, h.units, settled_concat]
  library := by rw [library_put, h.library]
  sound := h.sound.put putOff u

theorem Follows.foldl_put (putOff : Bool) :
    ∀ (us : List SourceUnit) {ws : Workspace} {l : Ledger}, ws.Follows l →
      (us.foldl (fun ws u => ws.put putOff u) ws).Follows
        { l with added := l.added ++ us }
  | [], ws, l, h => by simpa using h
  | u :: us, ws, l, h => by
      have ih := Follows.foldl_put putOff us (h.put putOff u)
      simpa using ih

/-! ### Refusals -/

theorem rejection?_eq_none_iff {ws : Workspace} {l : Ledger} (h : ws.Follows l)
    (u : SourceUnit) : ws.rejection? u = none ↔ l.admits u = true := by
  unfold rejection? Ledger.admits
  rw [h.library]
  cases href : u.origin.isReference with
  | true => simp
  | false => simp

theorem linkRejection?_eq_none_iff {ws : Workspace} {l : Ledger}
    (h : ws.Follows l) (o : Origin) : ws.linkRejection? o = none
      ↔ l.links o = true := by
  have hnames : (ws.entries.any fun e => e.unit.origin.name == o.name) = true
      ↔ ∃ u ∈ l.added, u.origin.name = o.name := by
    have hunits : (ws.entries.any fun e => e.unit.origin.name == o.name)
        = (ws.units.map SourceUnit.origin).any fun p => p.name == o.name := by
      simp [Workspace.units, List.any_map, Function.comp_def]
    rw [hunits, h.units, List.any_eq_true]
    constructor
    · rintro ⟨p, hp, heq⟩
      obtain ⟨u, hu, rfl⟩ := List.mem_map.mp (mem_origins_settled.mp hp)
      exact ⟨u, hu, by simpa using heq⟩
    · rintro ⟨u, hu, heq⟩
      exact ⟨u.origin, mem_origins_settled.mpr (List.mem_map_of_mem hu),
        by simpa using heq⟩
  unfold linkRejection? Ledger.links
  cases href : o.isReference with
  | false => simp
  | true =>
      rw [Bool.not_true, if_neg Bool.false_ne_true, Bool.true_and,
        List.all_eq_true]
      split
      · next hany =>
          obtain ⟨u, hu, heq⟩ := hnames.mp hany
          refine ⟨nofun, fun hall => ?_⟩
          have hne := hall u hu
          rw [heq, bne_self_eq_false] at hne
          cases hne
      · next hany =>
          refine ⟨fun _ u hu => ?_, fun _ => rfl⟩
          rw [bne_iff_ne]
          exact fun heq => hany (hnames.mpr ⟨u, hu, heq⟩)

theorem add_of_admits {ws : Workspace} {l : Ledger} (h : ws.Follows l)
    {us : List SourceUnit} (hus : us.all l.admits = true) (putOff : Bool) :
    ws.add us putOff = .ok (us.foldl (fun ws u => ws.put putOff u) ws) := by
  have hnone : us.findSome? ws.rejection? = none := by
    rw [List.findSome?_eq_none_iff]
    intro u hu
    exact (rejection?_eq_none_iff h u).mpr (List.all_eq_true.mp hus u hu)
  rw [add, hnone]

theorem link_of_links {ws : Workspace} {l : Ledger} (h : ws.Follows l)
    {library : Library} (hlibrary : library.origins.all l.links = true) :
    ws.link library = .ok { ws with library := library } := by
  have hnone : library.origins.findSome? ws.linkRejection? = none := by
    rw [List.findSome?_eq_none_iff]
    intro o ho
    exact (linkRejection?_eq_none_iff h o).mpr
      (List.all_eq_true.mp hlibrary o ho)
  rw [link, hnone]

theorem add_of_not_admits {ws : Workspace} {l : Ledger} (h : ws.Follows l)
    {us : List SourceUnit} (hus : ¬us.all l.admits = true) (putOff : Bool) :
    ∃ e, ws.add us putOff = .error e := by
  unfold add
  split
  · next e _ => exact ⟨e, rfl⟩
  · next hnone =>
      refine absurd (List.all_eq_true.mpr fun u hu => ?_) hus
      exact (rejection?_eq_none_iff h u).mp
        (List.findSome?_eq_none_iff.mp hnone u hu)

theorem link_of_not_links {ws : Workspace} {l : Ledger} (h : ws.Follows l)
    {library : Library} (hlibrary : ¬library.origins.all l.links = true) :
    ∃ e, ws.link library = .error e := by
  unfold link
  split
  · next e _ => exact ⟨e, rfl⟩
  · next hnone =>
      refine absurd (List.all_eq_true.mpr fun o ho => ?_) hlibrary
      exact (linkRejection?_eq_none_iff h o).mp
        (List.findSome?_eq_none_iff.mp hnone o ho)

/-! ### Calls and histories -/

theorem Follows.link {ws : Workspace} {l : Ledger} (h : ws.Follows l)
    (library : Library) :
    Follows { ws with library := library } { l with library := library } :=
  ⟨h.units, rfl, h.sound⟩

/-- One call, accepted or refused. -/
theorem Follows.call {ws : Workspace} {l : Ledger} (h : ws.Follows l)
    (c : Call) :
    (ws.call c).Follows (l.call c) := by
  cases c with
  | add us putOff =>
      by_cases hus : us.all l.admits = true
      · rw [Workspace.call, add_of_admits h hus, Ledger.call, if_pos hus]
        exact Follows.foldl_put putOff us h
      · obtain ⟨e, he⟩ := add_of_not_admits h hus putOff
        rw [Workspace.call, he, Ledger.call, if_neg hus]
        exact h
  | link library =>
      by_cases hlibrary : library.origins.all l.links = true
      · rw [Workspace.call, link_of_links h hlibrary, Ledger.call,
          if_pos hlibrary]
        exact h.link library
      · obtain ⟨e, he⟩ := link_of_not_links h hlibrary
        rw [Workspace.call, he, Ledger.call, if_neg hlibrary]
        exact h
  | build =>
      refine ⟨?_, h.library, h.sound.parseWhere _⟩
      exact (units_parseWhere ws _).trans h.units

theorem follows_after (calls : List Call) :
    (after calls).Follows (Ledger.after calls) := by
  unfold after Ledger.after
  generalize hws : Workspace.empty = ws
  generalize hl : Ledger.mk [] .empty = l
  have h : ws.Follows l := hws ▸ hl ▸ Follows.empty
  clear hws hl
  induction calls generalizing ws l with
  | nil => exact h
  | cons c calls ih => exact ih _ _ (h.call c)

end Workspace

/-! ## What a ledger holds can be added anew -/

namespace Ledger

/-- Units and library are apart: units are no references, the library holds
only such, and no name is on both sides. -/
structure Apart (l : Ledger) : Prop where
  units : ∀ u ∈ l.added, u.origin.isReference = false
  library : ∀ o ∈ l.library.origins, o.isReference = true
  names : ∀ u ∈ l.added, ∀ o ∈ l.library.origins, o.name ≠ u.origin.name

theorem admits_iff {l : Ledger} {u : SourceUnit} :
    l.admits u = true ↔ u.origin.isReference = false
      ∧ ∀ o ∈ l.library.origins, o.name ≠ u.origin.name := by
  simp [admits]

theorem links_iff {l : Ledger} {o : Origin} :
    l.links o = true ↔ o.isReference = true ∧ ∀ u ∈ l.added,
      u.origin.name ≠ o.name := by
  simp [links]

theorem Apart.call {l : Ledger} (h : l.Apart) (c : Call) :
    (l.call c).Apart := by
  cases c with
  | add us putOff =>
      rw [Ledger.call]
      split
      · next hus =>
          have hnew : ∀ u ∈ us, u.origin.isReference = false
              ∧ ∀ o ∈ l.library.origins, o.name ≠ u.origin.name :=
            fun u hu => admits_iff.mp (List.all_eq_true.mp hus u hu)
          refine ⟨fun u hu => ?_, h.library, fun u hu => ?_⟩
          · exact (List.mem_append.mp hu).elim (h.units u) fun hu =>
              (hnew u hu).1
          · exact (List.mem_append.mp hu).elim (h.names u) fun hu =>
              (hnew u hu).2
      · exact h
  | link library =>
      rw [Ledger.call]
      split
      · next hlibrary =>
          have hnew : ∀ o ∈ library.origins, o.isReference = true
              ∧ ∀ u ∈ l.added, u.origin.name ≠ o.name :=
            fun o ho => links_iff.mp (List.all_eq_true.mp hlibrary o ho)
          exact ⟨h.units, fun o ho => (hnew o ho).1, fun u hu o ho =>
            Ne.symm ((hnew o ho).2 u hu)⟩
      · exact h
  | build => exact h

theorem apart_after (calls : List Call) : (after calls).Apart := by
  unfold after
  generalize hl : Ledger.mk [] .empty = l
  have h : l.Apart := hl ▸ ⟨nofun, nofun, nofun⟩
  clear hl
  induction calls generalizing l with
  | nil => exact h
  | cons c calls ih => exact ih _ (h.call c)

end Ledger

namespace Workspace

/-- The library and then the settled units of a ledger, each in one call, are
accepted by a new workspace, which then follows them. -/
theorem exists_batch {l : Ledger} (h : l.Apart) (putOff : Bool) :
    ∃ ws, (empty.link l.library >>= fun ws => ws.add (settled l.added) putOff)
      = .ok ws
      ∧ ws.Follows ⟨settled l.added, l.library⟩ := by
  have hlinks : l.library.origins.all (Ledger.mk [] .empty).links = true :=
    List.all_eq_true.mpr fun o ho =>
      Ledger.links_iff.mpr ⟨h.library o ho, nofun⟩
  have hlinked : Follows { empty with library := l.library } ⟨[], l.library⟩ :=
    Follows.empty.link l.library
  have hadmits : (settled l.added).all (Ledger.mk [] l.library).admits
      = true := by
    rw [List.all_eq_true]
    intro u hu
    have horigin : u.origin ∈ l.added.map SourceUnit.origin :=
      mem_origins_settled.mp (List.mem_map_of_mem hu)
    obtain ⟨v, hv, heq⟩ := List.mem_map.mp horigin
    rw [Ledger.admits_iff, ← heq]
    exact ⟨h.units v hv, h.names v hv⟩
  refine ⟨_, ?_, Follows.foldl_put putOff (settled l.added) hlinked⟩
  rw [link_of_links Follows.empty hlinks]
  exact add_of_admits hlinked hadmits putOff

theorem build_build (ws : Workspace) : ws.build.2.build = ws.build := by
  have hall : ws.build.2.parseWhere (fun _ => true) = ws.build.2 := by
    simp only [build, parseWhere, if_true, List.map_map, Bool.true_and]
    congr 1
    rw [Nat.add_eq_left, List.countP_eq_zero]
    intro e he
    obtain ⟨e', -, rfl⟩ := List.mem_map.mp he
    exact Bool.false_ne_true
  have hagain : ∀ ws' : Workspace, ws'.parseWhere (fun _ => true) = ws' →
      ws'.build
        = (.ofUnits ws'.library
            (ws'.entries.map fun e => (e.unit.origin, e.result)), ws') := by
    intro ws' h
    simp only [build, h]
  exact hagain _ hall

/-- **Incremental builds are batch builds.** After any calls, accepted or
refused, the workspace holds the settled units and the library of the ledger,
and its build is that of a new workspace which is given this library and then
these units in one call, parsed at once or not. A build parses exactly the
units that have no parse, so a second one parses nothing and gives the same. -/
theorem build_after (calls : List Call) :
    let ws := after calls
    let l := Ledger.after calls
    ws.units = settled l.added ∧ ws.library = l.library
      ∧ (∀ putOff, ∃ fresh,
          (empty.link l.library >>= fun new => new.add (settled l.added) putOff)
            = .ok fresh
            ∧ fresh.build.1 = ws.build.1)
      ∧ ws.build.2.parses = ws.parses + ws.entries.countP (fun e =>
        e.parsed.isNone)
      ∧ ws.build.2.build = ws.build := by
  intro ws l
  have hws : ws.Follows l := follows_after calls
  refine ⟨hws.units, hws.library, fun putOff => ?_, by simp [build, parseWhere],
    build_build ws⟩
  obtain ⟨fresh, hfresh, hfollows⟩ :=
    exists_batch (Ledger.apart_after calls) putOff
  refine ⟨fresh, hfresh, ?_⟩
  have hsettled : settled (settled l.added) = settled l.added :=
    settled_of_nodup (nodup_origins_settled l.added)
  calc fresh.build.1
      = .ofSources l.library (settled l.added) := by
        rw [hfollows.sound.build_eq, hfollows.library, hfollows.units, hsettled]
    _ = ws.build.1 := by rw [hws.sound.build_eq, hws.library, hws.units]

end Workspace

end Exemplar
