import Exemplar.Proofs.Grammar.Joining

/-!
# Types and their texts

The text of a type is read back as that type (`typeUnit_roundtrip`): it is
scanned as the tokens that `TypeExpr.print` writes (`TypeExpr.outline_text`),
and these are one of the forms in which the type can be written.

This holds of the types that can come from a text (`TypeExpr.IsWritten`), and
these are all that do: the tokens of a text are names only where they look like
names and are not reserved, and what is read of them is a type of that kind,
however it was written (`TypeForm.isWritten`).
-/

namespace Exemplar

open Reading

/-! ## Types that are written -/

/-- The type can come from a text: tuples have two items or more, and named
types are dotted names without reserved words, and not those of built-in
types. -/
structure TypeExpr.IsWritten (t : TypeExpr) : Prop where
  shape : t.inShape = true
  names : ∀ name ∈ t.names, isDottedName name = true

/-! ## Texts of types -/

theorem outline_builtin (b : Builtin) {tail : List Char}
    (htail : ∀ c ∈ tail.head?, Lexeme.isNameRest c = false) :
    outline (b.text.toList ++ tail)
      = .token (.ident b.text) :: outline tail := by
  rw [outline_word (by cases b <;> decide) htail, String.ofList_toList]
  have hword : Lexeme.word b.text = .ident b.text := by cases b <;> decide
  rw [hword]

namespace TypeExpr

theorem printAll_cons (t : TypeExpr) (ts : List TypeExpr) :
    printAll (t :: ts) = t.print ++ ts.flatMap fun t' =>
      .mark .comma :: t'.print := by
  induction ts generalizing t with
  | nil => simp [printAll]
  | cons t' ts ih =>
      rw [printAll, if_neg (by simp), ih, List.flatMap_cons]
      simp

/-- Nothing that could go on with a name follows. -/
def EndsName (tail : List Char) : Prop :=
  ∀ c ∈ tail.head?, Lexeme.isNameRest c = false

theorem endsName_cons {c : Char} (hc : Lexeme.isNameRest c = false)
    (cs : List Char) :
    EndsName (c :: cs) := by
  rintro d ⟨⟩
  exact hc

theorem endsName_textRest {tail : List Char} (htail : EndsName tail) :
    ∀ ts : List TypeExpr, EndsName ((textRest ts).toList ++ tail)
  | [] => by
      rw [textRest]
      exact htail
  | t :: ts => by
      have hchars : (textRest (t :: ts)).toList ++ tail
          = ',' :: ' ' :: (t.text.toList
            ++ ((textRest ts).toList ++ tail)) := by
        rw [textRest]
        simp
      rw [hchars]
      exact endsName_cons (by decide) _

mutual

/-- A type is scanned as it is printed, in front of anything that does not go
on with a name. -/
theorem outline_text :
    ∀ (t : TypeExpr), (∀ name ∈ t.names, isDottedName name = true) →
    ∀ {tail : List Char}, EndsName tail →
      outline (t.text.toList ++ tail) = t.print.map .token ++ outline tail
  | .builtin b, _, tail, htail => outline_builtin b htail
  | .named path, h, tail, htail => by
      have hpath := h path (by simp [names])
      rw [text, outline_path (isDottedName_iff.mp hpath).1 htail, print,
        pathWords_of_isDottedName hpath]
  | .tuple [], _, tail, _ => by
      have hchars : (text (.tuple [])).toList ++ tail = '(' :: ')' :: tail := by
        rw [text]
        rfl
      rw [hchars, outline_mark (m := .lParen) (by decide) (by decide)
        (by decide), outline_mark (m := .rParen) (by decide) (by decide)
          (by decide)]
      rfl
  | .tuple (item :: items), h, tail, _ => by
      rw [names, namesOfAll, List.forall_mem_append] at h
      have hchars : (text (.tuple (item :: items))).toList ++ tail
          = '(' :: (item.text.toList
            ++ ((textRest items).toList ++ ')' :: tail)) := by
        rw [text]
        simp
      have hclose : EndsName (')' :: tail) := endsName_cons (by decide) tail
      rw [hchars, outline_mark (m := .lParen) (by decide) (by decide)
        (by decide), outline_text item h.1 (endsName_textRest hclose items),
        outline_textRest items h.2 hclose,
        outline_mark (m := .rParen) (by decide) (by decide) (by decide), print,
        printAll_cons]
      simp
  | .array item, h, tail, _ => by
      rw [names] at h
      have hchars : (text (.array item)).toList ++ tail
          = item.text.toList ++ '[' :: ']' :: tail := by
        rw [text]
        simp
      rw [hchars, outline_text item h (endsName_cons (by decide) _),
        outline_mark (m := .lBracket) (by decide) (by decide) (by decide),
        outline_mark (m := .rBracket) (by decide) (by decide) (by decide),
        print]
      simp

theorem outline_textRest : ∀ (ts : List TypeExpr),
    (∀ name ∈ namesOfAll ts, isDottedName name = true) →
    ∀ {tail : List Char}, EndsName tail →
      outline ((textRest ts).toList ++ tail)
        = (ts.flatMap fun t => .mark .comma :: t.print).map .token
          ++ outline tail
  | [], _, tail, _ => by
      rw [textRest]
      rfl
  | t :: ts, h, tail, htail => by
      rw [namesOfAll, List.forall_mem_append] at h
      have hchars : (textRest (t :: ts)).toList ++ tail
          = ',' :: ' ' :: (t.text.toList
            ++ ((textRest ts).toList ++ tail)) := by
        rw [textRest]
        simp
      rw [hchars,
        outline_mark (m := .comma) (by decide) (by decide) (by decide),
        outline_gap (by decide),
        outline_text t h.1 (endsName_textRest htail ts),
        outline_textRest ts h.2 htail]
      simp

end

end TypeExpr

/-! ## Units that declare a type -/

namespace Declaration

/-- The type that the declared one stands for, if a type is declared. -/
def underlying? (d : Declaration) : Option TypeExpr :=
  match d.detail with
  | .newtype underlying _ => some underlying
  | .callable _ | .specialization .. => none

def types (d : Declaration) : List TypeExpr :=
  match d.detail with
  | .newtype underlying _ => [underlying]
  | .callable c => c.params.map Param.type ++ [c.result]
  | .specialization .. => []

theorem underlying?_bare (d : Declaration) :
    d.bare.underlying? = d.underlying? := by
  obtain ⟨_, _, _, _, detail⟩ := d
  cases detail <;> rfl

theorem types_bare (d : Declaration) : d.bare.types = d.types := by
  obtain ⟨_, _, _, _, detail⟩ := d
  cases detail with
  | newtype | specialization => rfl
  | callable c =>
      have hparams : (c.params.map Param.bare).map Param.type
          = c.params.map Param.type := by
        rw [List.map_map]
        rfl
      exact congrArg (· ++ [c.result]) hparams

end Declaration

/-- The unit that declares a type by what is written in the text. -/
def typeUnit (origin : Origin) (text : String) : SourceUnit :=
  ⟨origin, "newtype T = " ++ text ++ ";"⟩

/-- The text is read as the type: where a declaration of a type goes on with
it, there are no errors, and that type is declared. -/
structure TypeExpr.IsReadFrom (origin : Origin) (t : TypeExpr) (text : String) :
    Prop where
  clean : (typeUnit origin text).parse.isClean = true
  declared : ∃ d, (typeUnit origin text).parse.blocks.flatMap Block.decls = [d]
    ∧ d.name = ⟨"", "T"⟩ ∧ d.underlying? = some t

theorem outline_typeUnit (origin : Origin) {t : TypeExpr} (h : t.IsWritten) :
    outline (typeUnit origin t.text).text.toList
      = (Kind.keyword .newtype :: .ident "T" :: .mark .eq
        :: (t.print ++ [.mark .semi])).map .token := by
  have hchars : (typeUnit origin t.text).text.toList
      = "newtype".toList ++ ' ' :: ("T".toList ++ ' ' :: '=' :: ' '
        :: (t.text.toList ++ [';'])) := by
    rw [typeUnit, String.toList_append, String.toList_append]
    simp
  have heq : outline ('=' :: ' ' :: (t.text.toList ++ [';']))
      = .token (.mark .eq) :: outline (' ' :: (t.text.toList ++ [';'])) := by
    have hclassify : Lexeme.classify '=' (' ' :: (t.text.toList ++ [';']))
        = (.token (.mark .eq), 0) := rfl
    exact outline_of_classify hclassify
  have hkeyword : Lexeme.word (String.ofList "newtype".toList)
    = .keyword .newtype := by decide
  have hname : Lexeme.word (String.ofList "T".toList) = .ident "T" := by decide
  have hend : outline [';'] = [.token (.mark .semi)] := by
    rw [outline_mark (m := .semi) (by decide) (by decide) (by decide)]
    simp [outline, lexemes]
  rw [hchars, outline_word (by decide) (isNameRest_blank _),
    outline_gap (by decide), outline_word (by decide) (isNameRest_blank _),
    outline_gap (by decide), heq, outline_gap (by decide),
    TypeExpr.outline_text t h.names (TypeExpr.endsName_cons (by decide) _),
    hend, hkeyword, hname]
  simp

/-- The declaration in the text, nowhere. -/
def typeDecl (origin : Origin) (t : TypeExpr) : Declaration :=
  ⟨⟨"", "T"⟩, [], origin, .nowhere, .newtype t []⟩

theorem form_typeDecl (origin : Origin) {t : TypeExpr} {ks : List Kind}
    (h : TypeForm (.type t) ks) :
    TopsForm origin [.item (.decl (typeDecl origin t))]
      (.keyword .newtype :: .ident "T" :: .mark .eq
        :: (ks ++ [.mark .semi])) := by
  have hitem : ItemForm ⟨origin, ""⟩ [] (.decl (typeDecl origin t))
      (.keyword .newtype :: .ident "T" :: .mark .eq :: (ks ++ [.mark .semi])) :=
    .newtype .nil "T" h
  have hform := TopsForm.item [] hitem (.nil [])
  rwa [docKinds, List.map_nil, List.append_nil, List.nil_append] at hform

/-- The text of a type is read as the type. -/
theorem TypeExpr.IsWritten.isReadFrom {t : TypeExpr} (h : t.IsWritten)
    (origin : Origin) :
    t.IsReadFrom origin t.text := by
  obtain ⟨herrors, htokens⟩ := Scan.kinds_of_outline (outline_typeUnit origin h)
  rw [String.ofList_toList] at herrors htokens
  obtain ⟨hfaults, hblocks⟩ :=
    parsed_of_form htokens (form_typeDecl origin (t.form_print h.shape))
  refine ⟨?_, ?_⟩
  · have horigin : (typeUnit origin t.text).origin = origin := rfl
    simp [ParsedUnit.isClean, SourceUnit.parse, herrors, horigin, hfaults]
  · -- one block, for what stands outside of namespaces, with one declaration
    obtain ⟨b, hb, hbare⟩ := List.map_eq_singleton_iff.mp hblocks
    have hdecls : b.decls.map Declaration.bare = [typeDecl origin t] :=
      congrArg Block.decls hbare
    obtain ⟨d, hd, hdbare⟩ := List.map_eq_singleton_iff.mp hdecls
    have hname : d.bare.name = ⟨"", "T"⟩ := congrArg Declaration.name hdbare
    refine ⟨d, ?_, hname, ?_⟩
    · have hparse : (typeUnit origin t.text).parse.blocks = [b] := hb
      rw [hparse, List.flatMap_singleton, hd]
    · rw [← d.underlying?_bare, hdbare]
      rfl

/-! ## Types in a text -/

namespace TypeExpr

theorem allInShape_eq_true : ∀ {ts : List TypeExpr},
    allInShape ts = true ↔ ∀ t ∈ ts, t.inShape = true
  | [] => by simp [allInShape]
  | t :: ts => by
      rw [allInShape, Bool.and_eq_true, allInShape_eq_true,
        List.forall_mem_cons]

theorem mem_namesOfAll {name : String} : ∀ {ts : List TypeExpr},
    name ∈ namesOfAll ts ↔ ∃ t ∈ ts, name ∈ t.names
  | [] => by simp [namesOfAll]
  | t :: ts => by
      rw [namesOfAll, List.mem_append, mem_namesOfAll]
      simp

theorem isWritten_ofName {path : String} (h : isDottedName path = true) :
    (ofName path).IsWritten := by
  rw [ofName]
  split
  · exact ⟨rfl, nofun⟩
  · next hpath =>
      refine ⟨Option.isNone_iff_eq_none.mpr hpath, fun name hname => ?_⟩
      rw [List.mem_singleton.mp hname]
      exact h

theorem isWritten_tuple {ts : List TypeExpr} (hlength : 2 ≤ ts.length)
    (h : ∀ t ∈ ts, t.IsWritten) : (tuple ts).IsWritten := by
  refine ⟨?_, fun name hname => ?_⟩
  · rw [inShape, decide_eq_true hlength, Bool.true_and, allInShape_eq_true]
    exact fun t ht => (h t ht).shape
  · obtain ⟨t, ht, hname⟩ := mem_namesOfAll.mp hname
    exact (h t ht).names name hname

/-- No types in parentheses are the unit type, and one is that type. -/
theorem isWritten_typeOfList : ∀ {ts : List TypeExpr}, (∀ t ∈ ts, t.IsWritten) →
    (typeOfList ts).IsWritten
  | [], _ => ⟨rfl, nofun⟩
  | [_], h => h _ (List.mem_singleton_self _)
  | _ :: _ :: _, h => isWritten_tuple (by simp) h

end TypeExpr

def TypePhrase.IsWritten : TypePhrase → Prop
  | .type t => t.IsWritten
  | .list ts => ∀ t ∈ ts, t.IsWritten

/-- **What is read of types can come from a text**, if the names among the
tokens can. -/
theorem TypeForm.isWritten {phrase : TypePhrase} {ks : List Kind}
    (h : TypeForm phrase ks) (hnames : ∀ name, .ident name ∈ ks → IsName name) :
    phrase.IsWritten := by
  induction h with
  | path first parts =>
      refine TypeExpr.isWritten_ofName
        (isDottedName_joinPath (hnames first (by simp)) ?_)
      intro part hpart
      exact hnames part
        (List.mem_cons_of_mem _ (List.mem_flatMap.mpr ⟨part, hpart, by simp⟩))
  | parens items ih =>
      exact TypeExpr.isWritten_typeOfList (ih fun name hname =>
        hnames name (by simp [hname]))
  | array item ih =>
      have hitem := ih fun name hname => hnames name (by simp [hname])
      exact ⟨hitem.shape, hitem.names⟩
  | nil => nofun
  | one item ih => exact List.forall_mem_singleton.mpr (ih hnames)
  | cons item items ih ihs =>
      exact List.forall_mem_cons.mpr ⟨ih fun name hname =>
        hnames name (by simp [hname]), ihs fun name hname =>
          hnames name (by simp [hname])⟩

/-- The type is written somewhere among the tokens. -/
def TypeExpr.WrittenIn (ks : List Kind) (t : TypeExpr) : Prop :=
  ∃ ks', TypeForm (.type t) ks' ∧ ks' ⊆ ks

theorem TypeExpr.WrittenIn.mono {t : TypeExpr} {ks ks' : List Kind}
    (h : t.WrittenIn ks) (hks : ks ⊆ ks') : t.WrittenIn ks' :=
  have ⟨ks₁, hform, hks₁⟩ := h
  ⟨ks₁, hform, fun _ hk => hks (hks₁ hk)⟩

theorem ParamsForm.writtenIn {ps : List Param} {ks : List Kind}
    (h : ParamsForm ps ks) :
    ∀ t ∈ ps.map Param.type, t.WrittenIn ks := by
  induction h with
  | nil => nofun
  | one name type =>
      exact List.forall_mem_singleton.mpr ⟨_, type, fun _ hk => by simp [hk]⟩
  | cons name type params ih =>
      exact List.forall_mem_cons.mpr ⟨⟨_, type, fun _ hk => by simp [hk]⟩,
        fun t ht => (ih t ht).mono fun _ hk => by simp [hk]⟩

def Reading.Item.types : Item → List TypeExpr
  | .opening _ => []
  | .decl d => d.types

theorem ItemForm.writtenIn {ctx : Context} {doc : Doc} {i : Item}
    {ks : List Kind} (h : ItemForm ctx doc i ks) :
    ∀ t ∈ i.types, t.WrittenIn ks := by
  cases h with
  | opening | openingAs | specialization => nofun
  | newtype attributes name type =>
      exact List.forall_mem_singleton.mpr ⟨_, type, fun _ hk => by simp [hk]⟩
  | callable attributes kind name params result block =>
      refine List.forall_mem_append.mpr ⟨fun t ht => ?_,
        List.forall_mem_singleton.mpr ?_⟩
      · exact (params.writtenIn t ht).mono fun _ hk => by simp [hk]
      · exact ⟨_, result, fun _ hk => by simp [hk]⟩

theorem ItemsForm.writtenIn {ctx : Context} {is : List Item} {ks : List Kind}
    (h : ItemsForm ctx is ks) :
    ∀ t ∈ is.flatMap Item.types, t.WrittenIn ks := by
  induction h with
  | nil => nofun
  | cons lines item items ih =>
      rw [List.flatMap_cons, List.forall_mem_append]
      exact ⟨fun t ht => (item.writtenIn t ht).mono fun _ hk => by simp [hk],
        fun t ht => (ih t ht).mono fun _ hk => by simp [hk]⟩

def Block.types (b : Block) : List TypeExpr := b.decls.flatMap Declaration.types

theorem types_addTo (i : Item) (b : Block) :
    (i.addTo b).types = b.types ++ i.types := by
  cases i with
  | opening o => exact (List.append_nil _).symm
  | decl d => simp [Item.addTo, Block.types, Item.types, List.flatMap_append]

theorem types_addItems (is : List Item) :
    ∀ b : Block, (b.addItems is).types = b.types ++ is.flatMap Item.types := by
  induction is with
  | nil => exact fun b => (List.append_nil _).symm
  | cons i is ih =>
      intro b
      have hcons : b.addItems (i :: is) = (i.addTo b).addItems is := rfl
      rw [hcons, ih, types_addTo, List.flatMap_cons, List.append_assoc]

def Top.types : Top → List TypeExpr
  | .item i => i.types
  | .block b => b.types

theorem TopsForm.writtenIn {origin : Origin} {ts : List Top} {ks : List Kind}
    (h : TopsForm origin ts ks) :
    ∀ t ∈ ts.flatMap Top.types, t.WrittenIn ks := by
  induction h with
  | nil => nofun
  | item lines item tops ih =>
      rw [List.flatMap_cons, List.forall_mem_append]
      exact ⟨fun t ht => (item.writtenIn t ht).mono fun _ hk => by simp [hk],
        fun t ht => (ih t ht).mono fun _ hk => by simp [hk]⟩
  | @block is ts ks ks' lines first parts items tops ih =>
      rw [List.flatMap_cons, List.forall_mem_append, Top.types, types_addItems]
      exact ⟨fun t ht => (items.writtenIn t ht).mono fun _ hk => by simp [hk],
        fun t ht => (ih t ht).mono fun _ hk => by simp [hk]⟩

def Reading.Draft.types (draft : Draft) : List TypeExpr :=
  draft.outside.types ++ draft.blocks.flatMap Block.types

theorem mem_types_addTo {draft : Draft} {top : Top} {t : TypeExpr}
    (h : t ∈ (top.addTo draft).types) : t ∈ draft.types ∨ t ∈ top.types := by
  rw [Draft.types, List.mem_append] at h ⊢
  cases top with
  | item i =>
      have houtside : (Top.addTo draft (.item i)).outside.types
          = draft.outside.types ++ i.types := types_addTo i draft.outside
      rw [houtside, List.mem_append] at h
      rcases h with (h | h) | h
      · exact Or.inl (Or.inl h)
      · exact Or.inr h
      · exact Or.inl (Or.inr h)
  | block b =>
      have hblocks : (Top.addTo draft (.block b)).blocks.flatMap Block.types
          = draft.blocks.flatMap Block.types ++ b.types := by
        simp [Top.addTo, List.flatMap_append]
      rw [hblocks, List.mem_append] at h
      rcases h with h | h | h
      · exact Or.inl (Or.inl h)
      · exact Or.inl (Or.inr h)
      · exact Or.inr h

/-- The types in a draft are those of the parts it was made from. -/
theorem mem_types_foldl_addTo {t : TypeExpr} (ts : List Top) :
    ∀ {draft : Draft}, t ∈ (ts.foldl Top.addTo draft).types →
      t ∈ draft.types ∨ t ∈ ts.flatMap Top.types := by
  induction ts with
  | nil => exact fun h => Or.inl h
  | cons top ts ih =>
      intro draft h
      rw [List.flatMap_cons, List.mem_append]
      rcases ih h with h | h
      · exact (mem_types_addTo h).imp id Or.inl
      · exact Or.inr (Or.inr h)

theorem mem_types_toBlocks {draft : Draft} {t : TypeExpr}
    (h : t ∈ draft.toBlocks.flatMap Block.types) : t ∈ draft.types := by
  rw [Draft.toBlocks] at h
  split at h
  · exact List.mem_append_right _ h
  · exact h

theorem Block.types_bare (b : Block) : b.bare.types = b.types := by
  simp only [Block.types, Block.bare, List.flatMap_map, Declaration.types_bare]

/-- The types in a text without errors can come from a text. -/
theorem isWritten_of_mem_types {u : SourceUnit}
    (hclean : u.parse.isClean = true) {t : TypeExpr}
    (ht : t ∈ u.parse.blocks.flatMap Block.types) : t.IsWritten := by
  have htokens := Scan.kinds_ofText (errors_eq_nil_of_isClean hclean).1
  obtain ⟨tops, htops⟩ := (derives_of_isClean hclean).hasTree u.origin
  have hblocks : u.parse.blocks.map Block.bare
      = (tops.foldl Top.addTo emptyDraft).toBlocks :=
    (parsed_of_form htokens htops).2
  have hbare : u.parse.blocks.flatMap Block.types
      = (u.parse.blocks.map Block.bare).flatMap Block.types := by
    simp only [List.flatMap_map, Block.types_bare]
  rw [hbare, hblocks] at ht
  rcases mem_types_foldl_addTo tops (mem_types_toBlocks ht) with ht | ht
  · -- nothing has been read of an empty draft
    cases ht
  · obtain ⟨ks, hform, hks⟩ := htops.writtenIn t ht
    exact hform.isWritten fun name hname => isName_of_mem_kindsOf (hks hname)

/-! ## There and back -/

/-- **A type is read back from its text**, if it can come from a text at all,
and every type that is read of a text without errors can. -/
theorem typeUnit_roundtrip (origin : Origin) :
    (∀ t : TypeExpr, t.IsWritten → t.IsReadFrom origin t.text)
      ∧ ∀ u : SourceUnit, u.parse.isClean = true →
        ∀ b ∈ u.parse.blocks, ∀ d ∈ b.decls, ∀ t ∈ d.types,
          t.IsWritten ∧ t.IsReadFrom origin t.text := by
  refine ⟨fun t ht => ht.isReadFrom origin, fun u hclean b hb d hd t ht => ?_⟩
  have htypes : t ∈ u.parse.blocks.flatMap Block.types :=
    List.mem_flatMap.mpr ⟨b, hb, List.mem_flatMap.mpr ⟨d, hd, ht⟩⟩
  have hwritten := isWritten_of_mem_types hclean htypes
  exact ⟨hwritten, hwritten.isReadFrom origin⟩

/-- A type with most of what types can have in them. -/
def sampleType : TypeExpr :=
  .array (.tuple [.array (.builtin .int), .named "Int.Pair",
    .tuple [.named "A", .builtin .unit]])

/-- A unit that declares it, with a text other than that of the type. -/
def sampleUnit : SourceUnit :=
  typeUnit (.synthetic "main.vl") "(((Int))[],\nInt . Pair, (A, ()),)[]"

theorem typeUnit_roundtrip_sample :
    sampleUnit.parse.isClean = true
      ∧ sampleUnit.parse.blocks.flatMap Block.types = [sampleType]
      ∧ sampleType.text = "(Int[], Int.Pair, (A, Unit))[]"
      ∧ sampleType.IsWritten
      ∧ sampleType.IsReadFrom (.synthetic "main.vl") sampleType.text := by
  have hclean : sampleUnit.parse.isClean = true := by decide +kernel
  have htypes : sampleUnit.parse.blocks.flatMap Block.types = [sampleType] := by
    decide +kernel
  have htext : sampleType.text = "(Int[], Int.Pair, (A, Unit))[]" := by decide
  have hmem : sampleType ∈ sampleUnit.parse.blocks.flatMap Block.types := by
    rw [htypes]
    exact List.mem_singleton_self _
  obtain ⟨b, hb, hmem⟩ := List.mem_flatMap.mp hmem
  obtain ⟨d, hd, ht⟩ := List.mem_flatMap.mp hmem
  obtain ⟨hback, hread⟩ := typeUnit_roundtrip (.synthetic "main.vl")
  have hwritten : sampleType.IsWritten :=
    (hread sampleUnit hclean b hb d hd sampleType ht).1
  exact ⟨hclean, htypes, htext, hwritten, hback sampleType hwritten⟩

end Exemplar
