import Mathlib.Data.List.Forall2
import Exemplar.Proofs.Example.Capture
import Exemplar.Proofs.Grammar.Braces

/-!
# Examples stay in their namespaces

The snippets of a namespace are put between the braces of one block, word for
word. What keeps them there is the text alone: a snippet that closes the brace
of its block can open another block behind it, and so can a namespace whose
name is not made of names (`isDisturbed_neighbour`).

The headline `harvest_framed` says what a merge leaves alone otherwise. A unit
whose first brace is closed by its last token is one block, and that block has
the name of its namespace (`name_of_closesLast`); what merging adds goes to
the namespaces of blocks, and all others stay as they are, whether their names
are distinct or not (`framed_mergeFrom`).
-/

namespace Exemplar

/-! ## Where snippets come from and where they go -/

namespace Snippets

/-- The namespaces with snippets; the global one has no name. -/
def spaces (s : Snippets) : List (Option String) := s.groups.map Prod.fst

theorem mem_keys_pushTo {k space : Option String} {t : String} :
    ∀ {groups : List (Option String × List String)},
      k ∈ (pushTo space t groups).map Prod.fst →
      k = space ∨ k ∈ groups.map Prod.fst
  | [], h => Or.inl (List.mem_singleton.mp h)
  | (s, texts) :: rest, h => by
      unfold pushTo at h
      by_cases hs : s = space
      · rw [if_pos hs] at h
        exact Or.inr h
      · rw [if_neg hs] at h
        rcases List.mem_cons.mp h with rfl | h
        · exact Or.inr (List.mem_cons_self ..)
        · exact (mem_keys_pushTo h).imp_right (List.mem_cons_of_mem _)

theorem mem_spaces_addDeclaration {k space : Option String} {s : Snippets}
    {d : Declaration} (h : k ∈ (s.addDeclaration space d).spaces) :
    k = space ∨ k ∈ s.spaces := by
  have hfold : ∀ found : List (List Char),
      k ∈ (found.foldl (fun s snippet => s.push space (String.ofList snippet))
        s).spaces → k = space ∨ k ∈ s.spaces := by
    intro found
    refine List.foldlRecOn (motive := fun s' : Snippets =>
      k ∈ s'.spaces → k = space ∨ k ∈ s.spaces) found _ Or.inr
        fun s' ih snippet _ hk => ?_
    exact (mem_keys_pushTo hk).elim Or.inl ih
  unfold addDeclaration at h
  dsimp only at h
  split at h <;> exact hfold _ h

theorem mem_spaces_addNamespace {k : Option String} {settings : Settings}
    {s : Snippets} {ns : Namespace}
    (h : k ∈ (s.addNamespace settings ns).spaces) :
    k = none ∨ k = some ns.name ∨ k ∈ s.spaces := by
  revert h
  unfold addNamespace
  refine List.foldlRecOn (motive := fun s' : Snippets =>
    k ∈ s'.spaces → k = none ∨ k = some ns.name ∨ k ∈ s.spaces) _ _
      (Or.inr ∘ Or.inr)
    fun s' ih d _ hk => ?_
  rcases mem_spaces_addDeclaration hk with rfl | hk
  · split
    · exact Or.inl rfl
    · exact Or.inr (Or.inl rfl)
  · exact ih hk

/-- Snippets come from the namespaces of the program. -/
theorem mem_names_of_mem_spaces {settings : Settings} {host : Program}
    {n : String} (h : some n ∈ (ofProgram settings host).spaces) :
    n ∈ host.namespaces.map Namespace.name := by
  revert h
  unfold ofProgram
  refine List.foldlRecOn (motive := fun s : Snippets =>
    some n ∈ s.spaces → n ∈ host.namespaces.map Namespace.name) _ _ (by nofun)
    fun s ih ns hns hk => ?_
  rcases mem_spaces_addNamespace hk with hnone | hsome | hk
  · cases hnone
  · rw [Option.some.inj hsome]
    exact List.mem_map_of_mem hns
  · exact ih hk

/-- A snippet that is not blank goes to the namespace `n`: one of its own, or
one of the global namespace if `n` is the default. -/
def Reach (s : Snippets) (settings : Settings) (n : String) : Prop :=
  ∃ g ∈ s.groups, g.1.getD settings.defaultNamespace = n
    ∧ ∃ t ∈ g.2, Chars.isBlankText t = false

instance (s : Snippets) (settings : Settings) (n : String) :
    Decidable (s.Reach settings n) :=
  inferInstanceAs
    (Decidable (∃ g ∈ s.groups, g.1.getD settings.defaultNamespace = n
    ∧ ∃ t ∈ g.2, Chars.isBlankText t = false))

theorem mem_mergeInto {space t : String} {texts : List String}
    {g : String × List String} :
    ∀ {grouped : List (String × List String)},
      g ∈ mergeInto space texts grouped → t ∈ g.2 →
      (g.1 = space ∧ t ∈ texts) ∨ ∃ g' ∈ grouped, g'.1 = g.1 ∧ t ∈ g'.2
  | [], h, ht => by
      obtain rfl := List.mem_singleton.mp h
      exact Or.inl ⟨rfl, ht⟩
  | (s, ts) :: rest, h, ht => by
      unfold mergeInto at h
      by_cases hs : s = space
      · rw [if_pos hs] at h
        rcases List.mem_cons.mp h with rfl | h
        · rcases List.mem_append.mp ht with ht | ht
          · exact Or.inr ⟨_, List.mem_cons_self .., rfl, ht⟩
          · exact Or.inl ⟨hs, ht⟩
        · exact Or.inr ⟨g, List.mem_cons_of_mem _ h, rfl, ht⟩
      · rw [if_neg hs] at h
        rcases List.mem_cons.mp h with rfl | h
        · exact Or.inr ⟨_, List.mem_cons_self .., rfl, ht⟩
        · refine (mem_mergeInto h ht).imp_right ?_
          rintro ⟨g', hg', heq⟩
          exact ⟨g', List.mem_cons_of_mem _ hg', heq⟩

theorem reach_of_mem_byNamespace {s : Snippets} {settings : Settings}
    {g : String × List String} (hg : g ∈ s.byNamespace settings) {t : String}
    (ht : t ∈ g.2) : s.Reach settings g.1 := by
  revert g
  rw [byNamespace_eq_foldl]
  refine List.foldlRecOn (motive := fun grouped : List (String × List String) =>
    ∀ {g}, g ∈ grouped → t ∈ g.2 → s.Reach settings g.1) s.groups _ (by nofun)
    fun grouped ih group hgroup g hg ht => ?_
  rcases mem_mergeInto hg ht with ⟨hspace, ht⟩ | ⟨g', hg', heq, ht⟩
  · obtain ⟨ht, hblank⟩ := List.mem_filter.mp ht
    exact ⟨group, hgroup, hspace.symm, t, ht, by simpa using hblank⟩
  · rw [← heq]
    exact ih hg' ht

theorem exists_toList_wrapSnippets (space : String)
    (opens texts : List String) :
    ∃ more, (wrapSnippets space opens texts).toList
      = ("namespace " ++ space ++ " \x7b").toList ++ more := by
  rw [wrapSnippets, String.toList_intercalate]
  exact ⟨_, intercalate_cons '\n' _ _⟩

/-- Each unit is made for a namespace that snippets go to, and starts with the
first line of its block. -/
theorem exists_space_of_mem_toUnits {s : Snippets} {host : Program}
    {settings : Settings} {u : SourceUnit} (hu : u ∈ s.toUnits host settings) :
    ∃ space more, s.Reach settings space ∧ u.origin = exampleOrigin space
      ∧ u.text.toList = ("namespace " ++ space ++ " \x7b").toList ++ more := by
  obtain ⟨⟨space, texts⟩, hg, rfl⟩ := List.mem_map.mp hu
  obtain ⟨hg, hne⟩ := List.mem_filter.mp hg
  obtain ⟨t, ht⟩ := List.exists_mem_of_ne_nil texts (by simpa using hne)
  obtain ⟨more, htext⟩ := exists_toList_wrapSnippets space
    (settings.openedNamespaces.filter host.hasNamespace) texts
  exact ⟨space, more, reach_of_mem_byNamespace hg ht, rfl, htext⟩

end Snippets

/-! ## What merging leaves alone -/

/-- `ns'` stands where `ns` stood, and is the same unless that is touched. -/
def Namespace.Kept (touched : String → Prop) (ns ns' : Namespace) : Prop :=
  ns'.name = ns.name ∧ (¬touched ns.name → ns' = ns)

/-- The namespaces of `host` come first in `result`, unchanged but for touched
ones; behind them stand new ones, all of them touched. -/
def Framed (touched : String → Prop) (host result : List Namespace) : Prop :=
  ∃ front fresh, result = front ++ fresh
    ∧ List.Forall₂ (Namespace.Kept touched) host front
    ∧ ∀ ns ∈ fresh, touched ns.name ∧ ns.name ∉ host.map Namespace.name

section Framed

variable {touched : String → Prop} {host front result : List Namespace}

theorem Framed.refl (host : List Namespace) : Framed touched host host :=
  ⟨host, [], (List.append_nil host).symm, List.forall₂_same.mpr fun _ _ =>
    ⟨rfl, fun _ => rfl⟩, nofun⟩

theorem names_eq_of_kept
    (h : List.Forall₂ (Namespace.Kept touched) host front) :
    front.map Namespace.name = host.map Namespace.name := by
  induction h with
  | nil => rfl
  | cons hns _ ih => rw [List.map_cons, List.map_cons, hns.1, ih]

theorem kept_contribute (h : List.Forall₂ (Namespace.Kept touched) host front)
    {name : String} (hname : touched name)
    (hmem : name ∈ front.map Namespace.name) (decls : List Declaration) :
    List.Forall₂ (Namespace.Kept touched) host
      (contribute name [] decls front) := by
  induction h with
  | nil => cases hmem
  | @cons ns ns' host front hns hrest ih =>
      rw [contribute]
      by_cases heq : ns'.name = name
      · rw [if_pos heq]
        refine .cons ⟨hns.1, fun hnot => ?_⟩ hrest
        rw [← hns.1, heq] at hnot
        exact absurd hname hnot
      · rw [if_neg heq]
        exact .cons hns
          (ih ((List.mem_cons.mp hmem).resolve_left (Ne.symm heq)))

/-- A contribution to a touched namespace. -/
theorem Framed.contribute (h : Framed touched host result) {name : String}
    (hname : touched name) (decls : List Declaration) :
    Framed touched host (contribute name [] decls result) := by
  obtain ⟨front, fresh, rfl, hfront, hfresh⟩ := h
  by_cases hmem : name ∈ front.map Namespace.name
  · exact ⟨_, fresh, contribute_append_of_mem fresh hmem,
      kept_contribute hfront hname hmem decls, hfresh⟩
  · refine ⟨front, _, contribute_append_of_not_mem fresh hmem, hfront,
      fun ns hns => ?_⟩
    rw [names_eq_of_kept hfront] at hmem
    rcases mem_names_contribute.mp (List.mem_map_of_mem hns) with heq | hold
    · rw [heq]
      exact ⟨hname, hmem⟩
    · obtain ⟨ns', hns', heq⟩ := List.mem_map.mp hold
      rw [← heq]
      exact hfresh ns' hns'

/-- Merging touches the namespaces it selects declarations from. -/
theorem framed_mergeFrom {host other : Program} {origins : List Origin}
    (h : ∀ ns ∈ other.namespaces, ns.declsFrom origins ≠ [] → touched ns.name) :
    Framed touched host.namespaces
      (host.mergeFrom other origins).namespaces := by
  refine List.foldlRecOn (motive := Framed touched host.namespaces)
    other.namespaces _ (Framed.refl host.namespaces) fun result ih ns hns => ?_
  cases hdecls : ns.declsFrom origins with
  | nil => exact ih
  | cons d ds =>
      exact ih.contribute (h ns hns (by rw [hdecls]; nofun)) (d :: ds)

end Framed

/-! ## What examples touch -/

/-- The unit made for `space` is one block: `space` is names with dots between
them, and a brace that leaves none open is the last token. -/
def SourceUnit.staysIn (u : SourceUnit) (space : String) : Bool :=
  isNamePath space && closesLast 0 ((Scan.ofText u.text).tokens.map Token.kind)

/-- A generated unit that does not stay in the namespace it is made for
declares something in the namespace `n`. -/
def Harvest.LeaksInto (h : Harvest) (n : String) : Prop :=
  ∃ u ∈ h.units, ∃ space, u.origin = exampleOrigin space
    ∧ u.staysIn space = false
    ∧ ∃ b ∈ u.parse.blocks, b.name = n ∧ b.decls ≠ []

section Merged

variable {host : Program} {settings : Settings} {h : Harvest}

theorem isClean_of_merged (hrun : host.harvest settings = .ok h)
    (hmerged : h.status = .merged) {u : SourceUnit} (hu : u ∈ h.units) :
    u.parse.isClean = true := by
  have hbuild : (Build.ofSources host.headerLibrary h.units).hasErrors
      = false := by
    rw [units_of_merged hrun hmerged]
    obtain rfl := eq_harvested_of_ok hrun
    unfold Program.harvested at hmerged
    dsimp only at hmerged
    split at hmerged
    · cases hmerged
    · split at hmerged
      · cases hmerged
      · next herr => exact Bool.eq_false_iff.mpr herr
  exact isClean_of_clean hbuild hu

/-- What is generated in a namespace comes from snippets that go there, or from
a unit that leaks. -/
theorem touched_of_generated (hrun : host.harvest settings = .ok h)
    (hmerged : h.status = .merged) {n : String} (hn : h.generated host n ≠ []) :
    (Snippets.ofProgram settings host).Reach settings n ∨ h.LeaksInto n := by
  obtain ⟨⟨b, d⟩, hp, rfl⟩ := Harvest.generated_ne_nil_iff.mp hn
  obtain ⟨b', hb, hp⟩ := List.mem_flatMap.mp hp
  obtain ⟨d', hd, heq⟩ := List.mem_map.mp hp
  obtain ⟨rfl, rfl⟩ := Prod.mk.inj heq
  obtain ⟨u, hu, hb⟩ := List.mem_flatMap.mp hb
  have hmem := hu
  rw [units_of_merged hrun hmerged] at hmem
  obtain ⟨space, more, hreach, horigin, htext⟩ :=
    Snippets.exists_space_of_mem_toUnits hmem
  cases hstays : u.staysIn space with
  | false =>
      exact Or.inr ⟨u, hu, space, horigin, hstays, b', hb, rfl,
        List.ne_nil_of_mem hd⟩
  | true =>
      obtain ⟨hspace, hlast⟩ := Bool.and_eq_true_iff.mp hstays
      have hname : b'.name = space :=
        name_of_closesLast htext hspace (isClean_of_merged hrun hmerged hu)
          hlast hb
      exact Or.inl (hname ▸ hreach)

theorem framed_merged (hrun : host.harvest settings = .ok h)
    (hmerged : h.status = .merged) :
    Framed (fun n => (Snippets.ofProgram settings host).Reach settings n
      ∨ h.LeaksInto n)
      host.namespaces
      (host.mergeFrom (host.exampleBuild settings).program
        h.origins).namespaces := by
  refine framed_mergeFrom fun ns hns hdecls =>
    touched_of_generated hrun hmerged ?_
  have hnodup : ((host.exampleBuild settings).program.namespaces.map
      Namespace.name).Nodup := by
    rw [exampleBuild_program_eq hrun hmerged]
    exact nodup_names_assemble ..
  rw [← filter_exampleBuild hrun hmerged, declsNamed_name hnodup hns]
  exact hdecls

/-- Namespaces that only snippets reach are the host's or the default one. -/
theorem eq_default_of_reach {n : String}
    (hn : (Snippets.ofProgram settings host).Reach settings n)
    (hnew : n ∉ host.namespaces.map Namespace.name) :
    n = settings.defaultNamespace := by
  obtain ⟨⟨space, texts⟩, hg, rfl, -⟩ := hn
  cases space with
  | none => rfl
  | some n =>
      exact absurd (Snippets.mem_names_of_mem_spaces (List.mem_map_of_mem hg))
        hnew

/-- **Examples stay in their namespaces.** When examples are merged, the
namespaces of the host come first and in order. One that no snippet goes to,
and that no unit leaks into, is the same but for marks; marks change nothing
but attributes, and those only in what comes from a generated unit. Behind
them there is nothing new but the default namespace and what units leak
into. -/
theorem harvest_framed (hrun : host.harvest settings = .ok h)
    (hmerged : h.status = .merged) :
    (∃ front fresh, h.program.namespaces = front ++ fresh
      ∧ List.Forall₂ (fun ns ns' => ns'.name = ns.name
          ∧ (¬(Snippets.ofProgram settings host).Reach settings ns.name →
            ¬h.LeaksInto ns.name →
            ns' = { ns with decls := ns.decls.map (h.mark settings) }))
              host.namespaces front
      ∧ ∀ ns ∈ fresh, ns.name ∉ host.namespaces.map Namespace.name
          ∧ (ns.name = settings.defaultNamespace ∨ h.LeaksInto ns.name))
    ∧ ∀ d, (h.mark settings d).withoutAttributes = d.withoutAttributes
      ∧ (d.origin ∉ h.origins → h.mark settings d = d) := by
  constructor
  · obtain ⟨front, fresh, hmerge, hfront, hfresh⟩ := framed_merged hrun hmerged
    have hprogram :=
      congrArg Program.namespaces (program_of_merged hrun hmerged)
    rw [Program.markTests, hmerge, List.map_append] at hprogram
    refine ⟨_, _, hprogram, List.forall₂_map_right_iff.mpr (hfront.imp ?_), ?_⟩
    · rintro ns ns' ⟨hname, hkept⟩
      refine ⟨hname, fun hreach hleaks => ?_⟩
      rw [hkept (not_or.mpr ⟨hreach, hleaks⟩)]
      rfl
    · intro ns hns
      obtain ⟨ns', hns', rfl⟩ := List.mem_map.mp hns
      obtain ⟨htouched, hnew⟩ := hfresh ns' hns'
      exact ⟨hnew, htouched.imp_left fun hreach =>
        eq_default_of_reach hreach hnew⟩
  · intro d
    refine ⟨withoutAttributes_markTest d _ _, fun horigin => ?_⟩
    refine Declaration.markTest_of_not_isTest fun htest => horigin ?_
    exact List.contains_iff_mem.mp (Bool.and_eq_true_iff.mp htest).1

end Merged

/-! ## Neighbours -/

/-- A host of two namespaces: `B` with a function from the given origin, and
`space` with a function that has one line of code as its example. -/
def hostWithNeighbour (origin : Origin) (space line : String) : Program :=
  let detail : Detail := .callable ⟨.function, [], .builtin .int, [], none⟩
  ⟨[⟨"B", [], [⟨⟨"B", "G"⟩, [], origin, .nowhere, detail⟩]⟩,
    ⟨space, [],
      [⟨⟨space, "F"⟩, ["# Example", "```", line, "```"], .primary "", .nowhere,
        detail⟩]⟩], []⟩

/-- The example of `A` has braces of its own, and none too many. -/
def quietHost : Program :=
  hostWithNeighbour (.primary "") "A" "function T():Int\x7breturn 1;\x7d"

/-- The neighbour of `A` is as it was. -/
theorem harvest_framed_neighbour :
    ∃ h, quietHost.harvest {} = .ok h ∧ h.status = .merged
      ∧ ∃ ns ∈ quietHost.namespaces,
        ns.name = "B" ∧ ns ∈ h.program.namespaces := by
  have heval : ((quietHost.harvest {}).toOption.map fun h =>
      (h.status, h.origins, h.units.all fun u =>
        u.origin = exampleOrigin "A" ∧ u.staysIn "A"))
        = some (.merged, [exampleOrigin "A"], true) := by decide +kernel
  have hreach : ¬(Snippets.ofProgram {} quietHost).Reach {} "B" := by
    decide +kernel
  cases hrun : quietHost.harvest {} with
  | error e =>
      rw [hrun] at heval
      cases heval
  | ok h =>
      rw [hrun] at heval
      obtain ⟨hmerged, heval⟩ := Prod.mk.inj (Option.some.inj heval)
      obtain ⟨horigins, hstays⟩ := Prod.mk.inj heval
      have hleaks : ¬h.LeaksInto "B" := by
        rintro ⟨u, hu, space, horigin, hfalse, -⟩
        have hu := List.all_eq_true.mp hstays u hu
        rw [decide_eq_true_eq, horigin] at hu
        rw [exampleOrigin_injective hu.1, hu.2] at hfalse
        cases hfalse
      obtain ⟨⟨front, fresh, hprogram, hfront, -⟩, hmark⟩ :=
        harvest_framed hrun hmerged
      obtain ⟨ns', rest, ⟨-, hkept⟩, -, rfl⟩ :=
        List.forall₂_cons_left_iff.mp hfront
      refine ⟨h, rfl, hmerged, _, List.mem_cons_self .., rfl, ?_⟩
      have hsame := hkept hreach hleaks
      rw [List.map_singleton, (hmark _).2 (by rw [horigins]; decide)] at hsame
      rw [hprogram, hsame]
      exact List.mem_append_left _ (List.mem_cons_self ..)

/-- The examples are merged, and a namespace of the host that no snippet goes
to is not in the result as it was. -/
def Program.IsDisturbed (host : Program) (settings : Settings) : Prop :=
  ∃ h, host.harvest settings = .ok h ∧ h.status = .merged
    ∧ ∃ ns ∈ host.namespaces,
      ¬(Snippets.ofProgram settings host).Reach settings ns.name
      ∧ ns ∉ h.program.namespaces

instance (host : Program) (settings : Settings) :
    Decidable (host.IsDisturbed settings) :=
  match hrun : host.harvest settings with
  | .error _ => isFalse fun ⟨_, hok, _⟩ => nomatch hrun.symm.trans hok
  | .ok h =>
    decidable_of_iff (h.status = .merged
        ∧ ∃ ns ∈ host.namespaces,
          ¬(Snippets.ofProgram settings host).Reach settings ns.name
          ∧ ns ∉ h.program.namespaces)
      ⟨fun hh => ⟨h, hrun, hh⟩, fun ⟨_, hok, hh⟩ =>
        Except.ok.inj (hrun.symm.trans hok) ▸ hh⟩

/-- **Not every neighbour is left alone.** An example can close the brace of
its namespace and open another one; the name of a namespace can do the same,
if it is not made of names; and what comes from the origin of a generated unit
is marked, wherever it is. -/
theorem isDisturbed_neighbour :
    (hostWithNeighbour (.primary "") "A"
      "\x7dnamespace B\x7bfunction T():Int;").IsDisturbed {}
      ∧ (hostWithNeighbour (.primary "") "A\x7b\x7dnamespace B"
        "function T():Int;").IsDisturbed {}
      ∧ (hostWithNeighbour (exampleOrigin "A") "A"
        "function T():Int;").IsDisturbed {} := by
  decide +kernel

end Exemplar
