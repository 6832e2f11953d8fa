import Mathlib.Data.List.Basic
import Mathlib.Tactic.Choose
import Exemplar.Example.Units
import Exemplar.Proofs.Grammar.Joining
import Exemplar.Proofs.Token.Lines

/-!
# Snippets in one block

A snippet that is a block of its own when it is wrapped alone brings the same
directives and declarations into the block of many (`parse_wrapped`): scanning
starts anew at the newline before it, and items do not depend on what stands
around them.

Whether the first lines of such a block can be read is a matter of the names in
them. Valid settings name namespaces by characters alone, and so they may hold
reserved words; these are all that can go wrong (`parse_wrapped_settings`).
-/

namespace Exemplar

open Reading

/-! ## The text around snippets -/

def openWords (space : String) : List Kind :=
  .keyword .open :: (pathWords space ++ [.mark .semi])

theorem outline_open {space : String} (hspace : isNamePath space = true) :
    outline ("open " ++ space ++ ";").toList
      = (openWords space).map .token := by
  have hchars : ("open " ++ space ++ ";").toList
      = "open".toList ++ ' ' :: (space.toList ++ [';']) := by
    rw [String.toList_append, String.toList_append]
    simp
  have hsemi : ∀ c ∈ [';'].head?, Lexeme.isNameRest c = false := by
    rintro c ⟨⟩
    decide
  have hkeyword : Lexeme.word (String.ofList "open".toList)
    = .keyword .open := by decide
  rw [hchars, outline_word (by decide) (isNameRest_blank _),
    outline_gap (by decide), outline_path hspace hsemi,
    outline_mark (m := .semi) (by decide) (by decide) (by decide), hkeyword]
  simp [openWords, outline, lexemes]

theorem toList_wrapSnippets (space : String) (opens snippets : List String) :
    (wrapSnippets space opens snippets).toList
      = ['\n'].intercalate (("namespace " ++ space ++ " \x7b").toList
        :: (opens.map (fun o => ("open " ++ o ++ ";").toList)
          ++ snippets.map String.toList
          ++ [['}']])) := by
  rw [wrapSnippets, String.toList_intercalate]
  simp [Function.comp_def]

theorem outline_closing : outline ['}'] = [Kind.mark .rBrace].map .token := by
  rw [outline_mark (m := .rBrace) (by decide) (by decide) (by decide)]
  simp [outline, lexemes]

theorem outline_head {space : String} (hspace : isNamePath space = true) :
    outline ("namespace " ++ space ++ " \x7b").toList
      = (Kind.keyword .namespace :: (pathWords space ++ [.mark .lBrace])).map
        .token := by
  have hhead := outline_namespace hspace []
  rw [List.append_nil] at hhead
  rw [hhead]
  simp [outline, lexemes]

/-- Snippets without faults are scanned between the lines around them. -/
theorem outline_wrapSnippets {space : String} (hspace : isNamePath space = true)
    {opens snippets : List String} (hopens : ∀ o ∈ opens, isNamePath o = true)
    (hsnippets : ∀ s ∈ snippets, FaultFree s.toList) :
    outline (wrapSnippets space opens snippets).toList
      = (Kind.keyword .namespace :: (pathWords space ++ .mark .lBrace
        :: ((opens.flatMap openWords ++ snippets.flatMap fun s =>
          kindsOf s.toList)
          ++ [.mark .rBrace]))).map .token := by
  have hopening : (opens.map fun o => ("open " ++ o ++ ";").toList).flatMap
    outline
      = (opens.flatMap openWords).map .token := by
    rw [List.flatMap_map, List.map_flatMap]
    exact List.flatMap_congr fun o ho => outline_open (hopens o ho)
  have htexts : (snippets.map String.toList).flatMap outline
      = (snippets.flatMap fun s => kindsOf s.toList).map .token := by
    rw [List.flatMap_map, List.map_flatMap]
    exact List.flatMap_congr fun s hs => (hsnippets s hs).outline_eq
  rw [toList_wrapSnippets, outline_lines]
  · rw [List.flatMap_cons, List.flatMap_append, List.flatMap_append,
      hopening, htexts, outline_head hspace, List.flatMap_singleton,
      outline_closing]
    simp
  · intro line hline
    simp only [List.mem_cons, List.mem_append, List.mem_map, List.not_mem_nil,
      or_false] at hline
    rcases hline with rfl | (⟨o, ho, rfl⟩ | ⟨s, hs, rfl⟩) | rfl
    · exact faultFree_of_outline (outline_head hspace)
    · exact faultFree_of_outline (outline_open (hopens o ho))
    · exact hsnippets s hs
    · exact faultFree_of_outline outline_closing

/-- The lines around a snippet make up for no fault in it. -/
theorem faultFree_of_wrapSnippets {space s : String}
    (hspace : isNamePath space = true)
    (h : FaultFree (wrapSnippets space [] [s]).toList) :
    FaultFree s.toList := by
  have hchars : (wrapSnippets space [] [s]).toList
      = ("namespace " ++ space ++ " \x7b").toList
        ++ '\n' :: (s.toList ++ '\n' :: ['}']) := by
    rw [toList_wrapSnippets]
    simp [List.intercalate]
  rw [hchars] at h
  have hhead := faultFree_of_outline (outline_head hspace)
  have hrest := (h.of_append (outline_append_line hhead _)).2
  exact (hrest.of_append_line (by decide)).1

/-! ## Units of snippets -/

/-- A unit that has snippets in one block. -/
def wrapped (origin : Origin) (space : String) (opens snippets : List String) :
    SourceUnit :=
  ⟨origin, wrapSnippets space opens snippets⟩

theorem itemsForm_open (ctx : Context) {space : String}
    (hspace : isDottedName space = true) :
    ItemsForm ctx [.opening ⟨space, none, .nowhere⟩] (openWords space) := by
  obtain ⟨first, parts, hkinds, hname⟩ := exists_pathKinds space
  rw [openWords, pathWords_of_isDottedName hspace, hkinds, ← hname]
  have hform : ItemsForm ctx _ _ := .cons [] (.opening first parts) (.nil [])
  simpa [docKinds] using hform

def openItems (opens : List String) : List Item :=
  opens.map fun o => .opening ⟨o, none, .nowhere⟩

theorem openings_openItems (opens : List String) :
    (openItems opens).filterMap Item.opening? = opens.map fun o =>
      ⟨o, none, .nowhere⟩ := by
  induction opens with
  | nil => rfl
  | cons o opens ih => exact congrArg (Open.mk o none .nowhere :: ·) ih

theorem decls_openItems (opens : List String) :
    (openItems opens).filterMap Item.decl? = [] := by
  induction opens with
  | nil => rfl
  | cons o opens ih => exact ih

/-- Snippets that are items between the lines around them make one block. -/
theorem parse_wrapped_of_items {origin : Origin} {space : String}
    {opens snippets : List String} (hspace : isDottedName space = true)
    (hopens : ∀ o ∈ opens, isDottedName o = true) {items : String → List Item}
    (hitems : ∀ s ∈ snippets, FaultFree s.toList
      ∧ ItemsForm ⟨origin, space⟩ (items s) (kindsOf s.toList)) :
    (wrapped origin space opens snippets).parse.isClean = true
      ∧ ∃ b, (wrapped origin space opens snippets).parse.blocks = [b]
        ∧ b.name = space
        ∧ b.opens.map Open.bare = opens.map (fun o => ⟨o, none, .nowhere⟩)
          ++ (snippets.flatMap items).filterMap Item.opening?
        ∧ b.decls.map (fun d => d.bare.undocumented)
          = ((snippets.flatMap items).filterMap Item.decl?).map
            Declaration.undocumented := by
  -- the items of the block are the lines that open namespaces, and those of the
  -- snippets
  obtain ⟨heads, hheads, hopening⟩ :=
    ItemsForm.flatten fun o ho => itemsForm_open ⟨origin, space⟩ (hopens o ho)
  obtain ⟨bodies, hbodies, hsame⟩ := ItemsForm.flatten fun s hs =>
    (hitems s hs).2
  obtain ⟨is, his, hall⟩ := hheads.append hbodies
  have hlines : openItems opens
      = opens.flatMap fun o => [.opening ⟨o, none, .nowhere⟩] :=
      List.map_eq_flatMap
  have hundoc : is.map Item.undocumented
      = (openItems opens ++ snippets.flatMap items).map Item.undocumented := by
    rw [hall, List.map_append, List.map_append, hopening, hsame, hlines]
  have htext := outline_wrapSnippets (isDottedName_iff.mp hspace).1
    (fun o ho => (isDottedName_iff.mp (hopens o ho)).1) fun s hs =>
    (hitems s hs).1
  obtain ⟨hclean, hblocks⟩ :=
    parse_of_items (u := wrapped origin space opens snippets) hspace his htext
  obtain ⟨b, hb, hname, hopens, hdecls⟩ := exists_of_blockOf hblocks
  refine ⟨hclean, b, hb, hname, ?_, ?_⟩
  · rw [hopens, openings_of_undocumented hundoc, List.filterMap_append,
      openings_openItems]
  · have hkept := decls_of_undocumented hundoc
    rw [List.filterMap_append, decls_openItems, List.nil_append, ← hdecls,
      List.map_map] at hkept
    exact hkept

/-- A snippet that is a block of its own is items between its two lines. -/
theorem exists_items_of_alone {origin : Origin} {space s : String}
    (hspace : isNamePath space = true)
    (hclean : (wrapped origin space [] [s]).parse.isClean = true)
    (hone : (wrapped origin space [] [s]).parse.blocks.length = 1) :
    isDottedName space = true ∧ FaultFree s.toList
      ∧ ∃ is, ItemsForm ⟨origin, space⟩ is (kindsOf s.toList)
        ∧ (wrapped origin space [] [s]).parse.blocks.map Block.bare
          = [blockOf space is] := by
  have herrors := (errors_eq_nil_of_isClean hclean).1
  have hfree :=
    faultFree_of_wrapSnippets hspace (Scan.errors_eq_nil_iff.mp herrors)
  have hkinds : kindsOf (wrapSnippets space [] [s]).toList
      = .keyword .namespace :: (pathWords space
        ++ .mark .lBrace :: (kindsOf s.toList ++ [.mark .rBrace])) := by
    have hnone : ∀ o ∈ ([] : List String), isNamePath o = true := nofun
    rw [kindsOf_eq_outline,
      outline_wrapSnippets hspace hnone (List.forall_mem_singleton.mpr hfree),
      filterMap_token]
    simp
  obtain ⟨is, his, ⟨first, parts, hwords⟩, hblocks⟩ :=
    exists_items_of_clean hclean hone hkinds
  exact ⟨isDottedName_of_pathWords hspace hwords, hfree, is, his, hblocks⟩

/-- **Wrapping snippets is compositional.** If each of the snippets alone is
read as one block without errors, so are all of them together. The block has
the directives given and then those of the snippets, and it has the
declarations of the snippets, in order, up to places and documentation. -/
theorem parse_wrapped (origin : Origin) {space : String}
    (hspace : isNamePath space = true) {opens : List String}
    (hopens : ∀ o ∈ opens, isDottedName o = true) {snippets : List String}
    (hne : snippets ≠ [])
    (halone : ∀ s ∈ snippets, (wrapped origin space [] [s]).parse.isClean = true
      ∧ (wrapped origin space [] [s]).parse.blocks.length = 1) :
    let alone := snippets.flatMap fun s =>
      (wrapped origin space [] [s]).parse.blocks
    (wrapped origin space opens snippets).parse.isClean = true
      ∧ ∃ b, (wrapped origin space opens snippets).parse.blocks = [b]
        ∧ b.name = space
        ∧ b.opens.map Open.bare = opens.map (fun o => ⟨o, none, .nowhere⟩)
          ++ (alone.flatMap Block.opens).map Open.bare
        ∧ b.decls.map (fun d => d.bare.undocumented)
          = (alone.flatMap Block.decls).map fun d => d.bare.undocumented := by
  intro alone
  have hitems : ∀ s ∈ snippets, isDottedName space = true ∧ FaultFree s.toList
      ∧ ∃ is, ItemsForm ⟨origin, space⟩ is (kindsOf s.toList)
        ∧ (wrapped origin space [] [s]).parse.blocks.map Block.bare
          = [blockOf space is] :=
    fun s hs => exists_items_of_alone hspace (halone s hs).1 (halone s hs).2
  obtain ⟨s, hs⟩ := List.exists_mem_of_ne_nil _ hne
  have hdotted := (hitems s hs).1
  choose! items hforms hblocks using fun s hs => (hitems s hs).2.2
  obtain ⟨hclean, b, hb, hname, hbopens, hbdecls⟩ :=
    parse_wrapped_of_items hdotted hopens fun s hs =>
      ⟨(hitems s hs).2.1, hforms s hs⟩
  refine ⟨hclean, b, hb, hname, ?_, ?_⟩
  · rw [hbopens, List.filterMap_flatMap, List.flatMap_assoc, List.map_flatMap]
    congr 1
    refine List.flatMap_congr fun s hs => ?_
    obtain ⟨b, hb, -, hsopens, -⟩ := exists_of_blockOf (hblocks s hs)
    rw [hb, List.flatMap_singleton, hsopens]
  · rw [hbdecls, List.filterMap_flatMap, List.flatMap_assoc, List.map_flatMap,
      List.map_flatMap]
    refine List.flatMap_congr fun s hs => ?_
    obtain ⟨b, hb, -, -, hsdecls⟩ := exists_of_blockOf (hblocks s hs)
    rw [hb, List.flatMap_singleton, ← hsdecls, List.map_map]
    rfl

/-- The first snippet ends in documentation and the second one in a comment,
and a string goes over two lines. -/
def sampleSnippets : List String :=
  ["open B;\nfunction F():Int;\r\n/// The next one.",
    "function G():String\x7breturn \"a\nb\";\x7d//"]

theorem parse_wrapped_sample :
    (∀ s ∈ sampleSnippets,
      (wrapped (.synthetic "A.vl") "A" [] [s]).parse.isClean = true
        ∧ (wrapped (.synthetic "A.vl") "A" [] [s]).parse.blocks.length = 1)
      ∧ ∃ b,
        (wrapped (.synthetic "A.vl") "A" ["C.D"] sampleSnippets).parse.blocks
          = [b]
        ∧ b.opens.map Open.space = ["C.D", "B"]
        ∧ b.decls.map (fun d => d.name.path) = ["A.F", "A.G"] := by
  have halone : ∀ s ∈ sampleSnippets,
      (wrapped (.synthetic "A.vl") "A" [] [s]).parse.isClean = true
        ∧ (wrapped (.synthetic "A.vl") "A" [] [s]).parse.blocks.length
          = 1 := by decide +kernel
  have hspace : isNamePath "A" = true := by decide
  have hdotted : ∀ o ∈ ["C.D"], isDottedName o = true := by decide
  have hne : sampleSnippets ≠ [] := by decide
  obtain ⟨-, b, hb, -, hopens, hdecls⟩ :=
    parse_wrapped (.synthetic "A.vl") hspace hdotted hne halone
  have hspaces := congrArg (List.map Open.space) hopens
  have hnames := congrArg (List.map fun d => d.name.path) hdecls
  rw [List.map_map] at hspaces hnames
  exact ⟨halone, b, hb, hspaces.trans (by decide +kernel),
    hnames.trans (by decide +kernel)⟩

/-! ## Names in settings -/

/-- In valid settings, the names of namespaces are made of the right
characters. -/
theorem Settings.isNamePath_of_validate {settings : Settings}
    (h : settings.validate = .ok ()) :
    isNamePath settings.defaultNamespace = true
      ∧ ∀ o ∈ settings.openedNamespaces, isNamePath o = true := by
  unfold Settings.validate at h
  split at h
  · cases h
  · next hdefault =>
      split at h
      · cases h
      · next hfind =>
          refine ⟨by simpa using hdefault, fun o ho => ?_⟩
          simpa using List.find?_eq_none.mp hfind o ho

/-- Between the parts of a path there are dots, and no keyword. -/
theorem dottedWords_ne_append_keyword (word : Keyword) (rest : List Kind) :
    ∀ (pieces : List (List Char)) (parts : List String),
      dottedWords pieces ≠ dottedKinds parts ++ .keyword word :: rest
  | [], [] | [], _ :: _ => nofun
  | _ :: _, [] => nofun
  | piece :: pieces, part :: parts => by
      intro h
      have htail := (List.cons.inj (List.cons.inj h).2).2
      exact dottedWords_ne_append_keyword word rest pieces parts htail

theorem pathWords_ne_append_keyword (path : String) (first : Kind)
    (parts : List String) (word : Keyword) (rest : List Kind) :
    pathWords path ≠ first :: (dottedKinds parts ++ .keyword word :: rest) := by
  unfold pathWords
  split
  · nofun
  · intro h
    exact dottedWords_ne_append_keyword word rest _ parts (List.cons.inj h).2

/-- Lines that open namespaces are read as items only if no word in them is
reserved. -/
theorem isDottedName_of_itemsForm {ctx : Context} :
    ∀ {opens : List String} {is : List Item},
      (∀ o ∈ opens, isNamePath o = true) →
      ItemsForm ctx is (opens.flatMap openWords) → ∀ o ∈ opens,
        isDottedName o = true
  | [], _, _, _ => nofun
  | o :: opens, is, hopens, h => by
      obtain ⟨ho, hopens⟩ := List.forall_mem_cons.mp hopens
      have hsemi : .mark .semi ∉ pathWords o := fun hmem =>
        nomatch mark_of_mem_pathWords hmem
      generalize htext : (o :: opens).flatMap openWords = text at h
      rw [List.flatMap_cons, openWords, List.cons_append,
        List.append_assoc] at htext
      cases h with
      | nil lines => cases lines <;> cases htext
      | @cons i is ks ks' lines item items =>
          cases lines with
          | cons line lines => cases htext
          | nil =>
              rw [docKinds, List.map_nil, List.nil_append] at htext
              cases item with
              | opening first parts =>
                  have hcut : pathWords o
                    ++ .mark .semi :: opens.flatMap openWords
                      = (.ident first :: dottedKinds parts)
                        ++ .mark .semi :: ks' := by
                    simpa using (List.cons.inj htext).2
                  obtain ⟨hwords, rfl⟩ :=
                    cut_unique hsemi (by simp [dottedKinds]) hcut
                  exact List.forall_mem_cons.mpr
                    ⟨isDottedName_of_pathWords ho hwords,
                      isDottedName_of_itemsForm hopens items⟩
              | openingAs first parts first' parts' =>
                  have hcut : pathWords o
                    ++ .mark .semi :: opens.flatMap openWords
                      = (.ident first :: (dottedKinds parts ++ .keyword .as
                        :: .ident first' :: dottedKinds parts'))
                          ++ .mark .semi :: ks' := by
                    simpa using (List.cons.inj htext).2
                  have hwords :=
                    (cut_unique hsemi (by simp [dottedKinds]) hcut).1
                  exact (pathWords_ne_append_keyword _ _ _ _ _ hwords).elim
              | newtype attributes => cases attributes <;> cases htext
              | callable attributes kind =>
                  cases attributes <;> cases kind <;> cases htext
              | specialization variant => cases variant <;> cases htext

/-- **Valid settings and the blocks they lead to.** Whichever of the
namespaces are opened, the block around no snippets is read without errors, as
one block of the default namespace with these directives, exactly if no part
of their names is a reserved word. -/
theorem parse_wrapped_settings {settings : Settings}
    (hvalid : settings.validate = .ok ()) {opens : List String}
    (hopens : opens.Sublist settings.openedNamespaces) (origin : Origin) :
    ((wrapped origin settings.defaultNamespace opens []).parse.isClean = true
        ∧ ∃ b, (wrapped origin settings.defaultNamespace opens []).parse.blocks
          = [b]
          ∧ b.name = settings.defaultNamespace
          ∧ b.opens.map Open.bare = opens.map (fun o => ⟨o, none, .nowhere⟩)
          ∧ b.decls = [])
      ↔ ∀ path ∈ settings.defaultNamespace :: opens,
        ∀ part ∈ Chars.splitOn '.' path.toList,
          isReserved (String.ofList part) = false := by
  obtain ⟨hspace, hall⟩ := Settings.isNamePath_of_validate hvalid
  have hpaths : ∀ o ∈ opens, isNamePath o = true := fun o ho =>
    hall o (hopens.subset ho)
  have hdotted : (∀ path ∈ settings.defaultNamespace :: opens,
        ∀ part ∈ Chars.splitOn '.' path.toList,
          isReserved (String.ofList part) = false)
      ↔ isDottedName settings.defaultNamespace = true ∧ ∀ o ∈ opens,
        isDottedName o = true := by
    rw [List.forall_mem_cons, isDottedName_iff, and_iff_right hspace]
    refine and_congr_right fun _ => forall₂_congr fun o ho => ?_
    rw [isDottedName_iff, and_iff_right (hpaths o ho)]
  rw [hdotted]
  constructor
  · rintro ⟨hclean, b, hb, -⟩
    have hnone : ∀ s ∈ ([] : List String), FaultFree s.toList := nofun
    have hkinds : kindsOf
      (wrapSnippets settings.defaultNamespace opens []).toList
        = .keyword .namespace :: (pathWords settings.defaultNamespace
          ++ .mark .lBrace :: (opens.flatMap openWords
            ++ [.mark .rBrace])) := by
      rw [kindsOf_eq_outline, outline_wrapSnippets hspace hpaths hnone,
        filterMap_token]
      simp
    obtain ⟨is, his, ⟨first, parts, hwords⟩, -⟩ :=
      exists_items_of_clean hclean (by rw [hb]; rfl) hkinds
    exact ⟨isDottedName_of_pathWords hspace hwords,
      isDottedName_of_itemsForm hpaths his⟩
  · rintro ⟨hspace, hopens⟩
    have hnone : ∀ s ∈ ([] : List String), FaultFree s.toList
        ∧ ItemsForm ⟨origin, settings.defaultNamespace⟩ [] (kindsOf s.toList) :=
        nofun
    obtain ⟨hclean, b, hb, hname, hbopens, hbdecls⟩ :=
      parse_wrapped_of_items hspace hopens hnone
    refine ⟨hclean, b, hb, hname, ?_, ?_⟩
    · simpa using hbopens
    · simpa using hbdecls

/-- A default namespace named by a word that starts a directive. -/
def reservedSettings : Settings := { defaultNamespace := "Docs.open" }

/-- All that is opened by default can be opened; the namespace cannot be. -/
theorem parse_wrapped_settings_default :
    Settings.validate {} = .ok ()
      ∧ ∃ b,
        (wrapped (.synthetic "main.vl") "Vela.DocTests"
          ["Std.Core", "Std.Canon"]
            []).parse.blocks = [b]
        ∧ b.name = "Vela.DocTests"
        ∧ b.opens.map Open.bare
          = ["Std.Core", "Std.Canon"].map fun o => ⟨o, none, .nowhere⟩ := by
  have hvalid : Settings.validate {} = .ok () := by decide
  have hopens : ["Std.Core", "Std.Canon"].Sublist
    ({} : Settings).openedNamespaces := by decide
  have hwords :
      ∀ path ∈ ({} : Settings).defaultNamespace :: ["Std.Core", "Std.Canon"],
        ∀ part ∈ Chars.splitOn '.' path.toList, isReserved (String.ofList part)
          = false := by
    decide
  obtain ⟨-, b, hb, hname, hbopens, -⟩ :=
    (parse_wrapped_settings hvalid hopens (.synthetic "main.vl")).mpr hwords
  exact ⟨hvalid, b, hb, hname, hbopens⟩

/-- The settings are valid, and the first line of the block is an error. -/
theorem validate_reservedSettings :
    reservedSettings.validate = .ok ()
      ∧ (wrapped (.synthetic "main.vl") reservedSettings.defaultNamespace []
        []).parse.isClean
        = false := by
  decide +kernel

end Exemplar
