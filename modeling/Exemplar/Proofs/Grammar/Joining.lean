import Exemplar.Proofs.Grammar.Braces

/-!
# Items that are joined

The items of a block do not depend on what stands around them, except that
documentation which nothing follows is that of the next item. So two texts of
items, one behind the other, are the text of the items of both, up to
documentation (`ItemsForm.append`).

A text that consists of one namespace block is such a text of items between
its first line and its last brace, and the other way round
(`exists_items_of_single`, `parse_of_items`).
-/

namespace Exemplar

open Reading

/-! ## Items without documentation -/

def Declaration.undocumented (d : Declaration) : Declaration :=
  { d with doc := [] }

namespace Reading.Item

def undocumented : Item → Item
  | .opening o => .opening o
  | .decl d => .decl d.undocumented

end Reading.Item

theorem openings_of_undocumented {is is' : List Item}
    (h : is.map Item.undocumented = is'.map Item.undocumented) :
    is.filterMap Item.opening? = is'.filterMap Item.opening? := by
  have hsame : ∀ is : List Item,
      is.filterMap Item.opening?
        = (is.map Item.undocumented).filterMap Item.opening? := by
    intro is
    rw [List.filterMap_map]
    congr 1
    funext i
    cases i <;> rfl
  rw [hsame is, hsame is', h]

theorem decls_of_undocumented {is is' : List Item}
    (h : is.map Item.undocumented = is'.map Item.undocumented) :
    (is.filterMap Item.decl?).map Declaration.undocumented
      = (is'.filterMap Item.decl?).map Declaration.undocumented := by
  have hsame : ∀ is : List Item,
    (is.filterMap Item.decl?).map Declaration.undocumented
      = (is.map Item.undocumented).filterMap Item.decl? := by
    intro is
    rw [List.filterMap_map, List.map_filterMap]
    congr 1
    funext i
    cases i <;> rfl
  rw [hsame is, hsame is', h]

/-! ## Texts of items, one behind the other -/

section

variable {ctx : Context}

/-- With other documentation, the text of an item is that of the same item but
for documentation. -/
theorem ItemForm.redocument {doc : Doc} {i : Item} {ks : List Kind}
    (h : ItemForm ctx doc i ks) (doc' : Doc) :
    ∃ i', ItemForm ctx doc' i' ks ∧ i'.undocumented = i.undocumented := by
  cases h with
  | opening first parts => exact ⟨_, .opening first parts, rfl⟩
  | openingAs first parts first' parts' =>
      exact ⟨_, .openingAs first parts first' parts', rfl⟩
  | newtype attributes name type =>
      exact ⟨_, .newtype attributes name type, rfl⟩
  | callable attributes kind name params result block =>
      exact ⟨_, .callable attributes kind name params result block, rfl⟩
  | specialization variant first parts block =>
      exact ⟨_, .specialization variant first parts block, rfl⟩

theorem docKinds_append (lines lines' : List String) :
    docKinds (lines ++ lines') = docKinds lines ++ docKinds lines' :=
  List.map_append

/-- More documentation in front of items. -/
theorem ItemsForm.prepend {is : List Item} {ks : List Kind}
    (h : ItemsForm ctx is ks) (lines : List String) :
    ∃ is', ItemsForm ctx is' (docKinds lines ++ ks)
      ∧ is'.map Item.undocumented = is.map Item.undocumented := by
  cases h with
  | nil lines' =>
      rw [← docKinds_append]
      exact ⟨[], .nil _, rfl⟩
  | @cons i is ks ks' lines' item items =>
      obtain ⟨i', hi', hsame⟩ := item.redocument (lines ++ lines')
      rw [← List.append_assoc, ← docKinds_append]
      exact ⟨i' :: is, .cons _ hi' items,
        by rw [List.map_cons, List.map_cons, hsame]⟩

/-- **Items are joined** by writing their texts one behind the other. -/
theorem ItemsForm.append {is is' : List Item} {ks ks' : List Kind}
    (h : ItemsForm ctx is ks) (h' : ItemsForm ctx is' ks') :
    ∃ js, ItemsForm ctx js (ks ++ ks')
      ∧ js.map Item.undocumented = (is ++ is').map Item.undocumented := by
  induction h with
  | nil lines => exact h'.prepend lines
  | @cons i is ks₁ ks₂ lines item items ih =>
      obtain ⟨js, hjs, hsame⟩ := ih
      rw [List.append_assoc, List.append_assoc]
      refine ⟨i :: js, .cons lines item hjs, ?_⟩
      rw [List.map_cons, hsame]
      rfl

theorem ItemsForm.flatten {α : Type} {items : α → List Item}
    {text : α → List Kind} :
    ∀ {xs : List α}, (∀ x ∈ xs, ItemsForm ctx (items x) (text x)) →
      ∃ js, ItemsForm ctx js (xs.flatMap text)
        ∧ js.map Item.undocumented = (xs.flatMap items).map Item.undocumented
  | [], _ => ⟨[], .nil [], rfl⟩
  | x :: xs, h => by
      obtain ⟨hx, hxs⟩ := List.forall_mem_cons.mp h
      obtain ⟨js, hjs, hsame⟩ := ItemsForm.flatten hxs
      obtain ⟨js', hjs', hsame'⟩ := hx.append hjs
      refine ⟨js', hjs', ?_⟩
      rw [hsame', List.flatMap_cons, List.map_append, List.map_append, hsame]

end

/-! ## Texts of one block -/

def blockOf (space : String) (is : List Item) : Block :=
  Block.addItems ⟨space, [], [], [], .nowhere⟩ is

/-- What a block is that is `blockOf` items but for places. -/
theorem exists_of_blockOf {blocks : List Block} {space : String}
    {is : List Item} (h : blocks.map Block.bare = [blockOf space is]) :
    ∃ b, blocks = [b] ∧ b.name = space ∧ b.opens.map Open.bare
      = is.filterMap Item.opening?
      ∧ b.decls.map Declaration.bare = is.filterMap Item.decl? := by
  obtain ⟨b, rfl, hbare⟩ := List.map_eq_singleton_iff.mp h
  rw [blockOf, Block.addItems_eq, List.nil_append, List.nil_append] at hbare
  exact ⟨b, rfl, congrArg Block.name hbare, congrArg Block.opens hbare,
    congrArg Block.decls hbare⟩

/-- If a text starts with its only block, nothing follows the block. -/
theorem eq_nil_of_length_toBlocks {b : Block} {ts : List Top}
    (h : ((Top.block b :: ts).foldl Top.addTo emptyDraft).toBlocks.length = 1) :
    ts = [] := by
  rw [foldl_addTo, Block.addItems_eq] at h
  cases ts with
  | nil => rfl
  | cons top ts =>
      cases top with
      | block b' =>
          rw [Draft.toBlocks] at h
          split at h <;> simp [emptyDraft, Top.block?, List.filterMap_cons] at h
      | item i =>
          cases i <;> simp [Draft.toBlocks, emptyDraft, Top.block?, Top.item?,
            Item.opening?, Item.decl?, Block.isEmpty, List.filterMap_cons] at h

/-- A text that is one block, read as such, is the text of its items between
its first line and its last brace. -/
theorem exists_items_of_single {origin : Origin} {space : String}
    {ts : List Top} {ks : List Kind}
    (h : TopsForm origin ts
      (.keyword .namespace :: (pathWords space
      ++ .mark .lBrace :: (ks ++ [.mark .rBrace]))))
    (hone : (ts.foldl Top.addTo emptyDraft).toBlocks.length = 1) :
    ∃ is, ItemsForm ⟨origin, space⟩ is ks
      ∧ (∃ first parts, pathWords space = .ident first :: dottedKinds parts)
      ∧ (ts.foldl Top.addTo emptyDraft).toBlocks = [blockOf space is] := by
  generalize htext : Kind.keyword .namespace
    :: (pathWords space ++ .mark .lBrace :: (ks ++ [.mark .rBrace]))
      = text at h
  cases h with
  | nil lines => cases lines <;> cases htext
  | item lines item =>
      -- no item starts with that keyword
      obtain ⟨k, ks', rfl, hk⟩ := item.starts
      cases lines with
      | nil =>
          obtain rfl := (List.cons.inj htext).1
          cases hk
      | cons line lines => cases htext
  | @block is ts ks₁ ks₂ lines first parts items tops =>
      cases lines with
      | cons line lines => cases htext
      | nil =>
          obtain ⟨hname, hwords, hbody⟩ :=
            pathWords_unique (List.cons.inj htext).2
          obtain rfl := eq_nil_of_length_toBlocks hone
          -- the brace that closes the block is the last token
          cases tops with
          | nil lines =>
              rcases List.eq_nil_or_concat lines with rfl | ⟨before, line, rfl⟩
              · obtain ⟨rfl, -⟩ := List.append_inj' hbody rfl
                rw [← hname]
                exact ⟨is, items, ⟨first, parts, hname ▸ hwords⟩, rfl⟩
              · have hlast : ks ++ [Kind.mark .rBrace]
                    = (ks₁ ++ .mark .rBrace :: docKinds before)
                      ++ [.doc line] := by
                  rw [hbody, List.concat_eq_append, docKinds_append]
                  simp [docKinds]
                cases (List.cons.inj (List.append_inj' hlast rfl).2).1

/-! ### Units of one block -/

/-- The block of a clean unit whose text is a single block. -/
theorem exists_items_of_clean {u : SourceUnit} {space : String}
    {ks : List Kind} (hclean : u.parse.isClean = true)
    (hone : u.parse.blocks.length = 1) (htext : kindsOf u.text.toList
      = .keyword .namespace :: (pathWords space
      ++ .mark .lBrace :: (ks ++ [.mark .rBrace]))) :
    ∃ is, ItemsForm ⟨u.origin, space⟩ is ks
      ∧ (∃ first parts, pathWords space = .ident first :: dottedKinds parts)
      ∧ u.parse.blocks.map Block.bare = [blockOf space is] := by
  obtain ⟨ts, hts⟩ := (derives_of_isClean hclean).hasTree u.origin
  have htokens := Scan.kinds_ofText (errors_eq_nil_of_isClean hclean).1
  have hblocks : u.parse.blocks.map Block.bare
      = (ts.foldl Top.addTo emptyDraft).toBlocks :=
    (parsed_of_form htokens hts).2
  rw [htext] at hts
  rw [hblocks]
  refine exists_items_of_single hts ?_
  rw [← hblocks, List.length_map, hone]

/-- A unit whose text is a single block is clean and has that block. -/
theorem parse_of_items {u : SourceUnit} {space : String}
    (hspace : isDottedName space = true) {is : List Item} {ks : List Kind}
    (hitems : ItemsForm ⟨u.origin, space⟩ is ks)
    (htext : outline u.text.toList
      = (Kind.keyword .namespace :: (pathWords space
        ++ .mark .lBrace :: (ks ++ [.mark .rBrace]))).map .token) :
    u.parse.isClean = true
      ∧ u.parse.blocks.map Block.bare = [blockOf space is] := by
  obtain ⟨first, parts, hkinds, hname⟩ := exists_pathKinds space
  rw [pathWords_of_isDottedName hspace, hkinds] at htext
  obtain ⟨herrors, htokens⟩ := Scan.kinds_of_outline htext
  rw [String.ofList_toList] at herrors htokens
  rw [← hname] at hitems
  have hform := TopsForm.block [] first parts hitems (.nil [])
  obtain ⟨hfaults, hblocks⟩ := parsed_of_form htokens hform
  refine ⟨?_, ?_⟩
  · simp [ParsedUnit.isClean, SourceUnit.parse, herrors, hfaults]
  · rw [← hname]
    exact hblocks

end Exemplar
