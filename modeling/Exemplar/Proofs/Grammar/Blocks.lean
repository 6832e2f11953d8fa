import Exemplar.Grammar.Blocks
import Exemplar.Proofs.Grammar.Stmts
import Exemplar.Proofs.Grammar.Types

/-!
# Source texts are read as written

Written forms of items, of lists of items and of whole texts. A text is
written as a list of `Top`s, with documentation before each and at the end;
whatever is so written is read without a fault, as the blocks those make
(`parsed_of_form`).

Nothing here is recursive but lists, so the forms follow the readers, one
for one: attributes with documentation between them, parameters, items,
items in a namespace, and the text.
-/

namespace Exemplar

open Reading

/-! ## Written forms -/

def argumentKinds : Option String → List Kind
  | none => []
  | some text => [.literal (.string text)]

inductive AttrsForm : List Attribute → Doc → List Kind → Prop where
  | nil : AttrsForm [] [] []
  | cons {as doc ks} (first : String) (parts : List String)
      (argument : Option String) (lines : List String)
      (others : AttrsForm as doc ks) :
      AttrsForm (⟨.ofPath (joinPath first parts), argument, .nowhere⟩ :: as)
        (lines ++ doc)
        (.mark .at :: .ident first :: (dottedKinds parts ++ .mark .lParen
          :: (argumentKinds argument
            ++ .mark .rParen :: (docKinds lines ++ ks))))

inductive ParamsForm : List Param → List Kind → Prop where
  | nil : ParamsForm [] []
  | one {t ks} (name : String) (type : TypeForm (.type t) ks) :
      ParamsForm [⟨name, t, .nowhere⟩] (.ident name :: .mark .colon :: ks)
  | cons {t ps ks ks'} (name : String) (type : TypeForm (.type t) ks)
      (params : ParamsForm ps ks') :
      ParamsForm (⟨name, t, .nowhere⟩ :: ps)
        (.ident name :: .mark .colon :: (ks ++ .mark .comma :: ks'))

/-- The text of a body, or the semicolon in its place. -/
inductive BodyForm : Option (List Stmt) → List Kind → Prop where
  | header : BodyForm none [.mark .semi]
  | body {ss ks} (h : StmtForm (.body ss) ks) : BodyForm (some ss) ks

def CallableKind.keyword : CallableKind → Keyword
  | .function => .function
  | .operation => .operation

def Variant.keyword : Variant → Keyword
  | .adjoint => .adjoint
  | .controlled => .controlled

/-- The operation that a path names, for a specialization in `space`. -/
def parentOf (space target : String) : QualifiedName :=
  if isDotted target then .ofPath target else ⟨space, target⟩

/-- The text of an item, after its documentation. -/
inductive ItemForm (ctx : Context) (doc : Doc) : Item → List Kind → Prop where
  | opening (first : String) (parts : List String) :
      ItemForm ctx doc (.opening ⟨joinPath first parts, none, .nowhere⟩)
        (.keyword .open :: .ident first :: (dottedKinds parts ++ [.mark .semi]))
  | openingAs (first : String) (parts : List String) (first' : String)
      (parts' : List String) :
      ItemForm ctx doc
        (.opening ⟨joinPath first parts, some (joinPath first' parts'),
          .nowhere⟩)
        (.keyword .open :: .ident first :: (dottedKinds parts ++ .keyword .as
          :: .ident first' :: (dottedKinds parts' ++ [.mark .semi])))
  | newtype {as more t ks ks'} (attributes : AttrsForm as more ks)
      (name : String) (type : TypeForm (.type t) ks') :
      ItemForm ctx doc
        (.decl ⟨⟨ctx.space, name⟩, doc ++ more, ctx.origin, .nowhere,
          .newtype t as⟩)
        (ks ++ .keyword .newtype :: .ident name :: .mark .eq
          :: (ks' ++ [.mark .semi]))
  | callable {as more ps t body ks₁ ks₂ ks₃ ks₄}
      (attributes : AttrsForm as more ks₁) (kind : CallableKind) (name : String)
      (params : ParamsForm ps ks₂) (result : TypeForm (.type t) ks₃)
      (block : BodyForm body ks₄) :
      ItemForm ctx doc
        (.decl ⟨⟨ctx.space, name⟩, doc ++ more, ctx.origin, .nowhere,
          .callable ⟨kind, ps, t, as, body⟩⟩)
        (ks₁ ++ .keyword kind.keyword :: .ident name :: .mark .lParen
          :: (ks₂ ++ .mark .rParen :: .mark .colon :: (ks₃ ++ ks₄)))
  | specialization {body ks} (variant : Variant) (first : String)
      (parts : List String) (block : BodyForm body ks) :
      ItemForm ctx doc
        (.decl ⟨parentOf ctx.space (joinPath first parts), doc,
          ctx.origin, .nowhere,
          .specialization variant body⟩)
        (.keyword variant.keyword :: .ident first :: (dottedKinds parts ++ ks))

/-- The text of items, with documentation before each and at the end. -/
inductive ItemsForm (ctx : Context) : List Item → List Kind → Prop where
  | nil (lines : List String) : ItemsForm ctx [] (docKinds lines)
  | cons {i is ks ks'} (lines : List String) (item : ItemForm ctx lines i ks)
      (items : ItemsForm ctx is ks') :
      ItemsForm ctx (i :: is) (docKinds lines ++ (ks ++ ks'))

def Reading.Item.opening? : Item → Option Open
  | .opening o => some o
  | .decl _ => none

def Reading.Item.decl? : Item → Option Declaration
  | .opening _ => none
  | .decl d => some d

def Block.addItems (b : Block) (is : List Item) : Block := is.foldl Item.addTo b

theorem Block.addItems_eq (b : Block) (is : List Item) :
    b.addItems is = { b with
      opens := b.opens ++ is.filterMap Item.opening?
      decls := b.decls ++ is.filterMap Item.decl? } := by
  induction is generalizing b with
  | nil => simp [addItems]
  | cons i is ih =>
      have hcons : b.addItems (i :: is) = (i.addTo b).addItems is := rfl
      rw [hcons, ih]
      cases i
        <;> simp [Item.addTo, Item.opening?, Item.decl?, List.filterMap_cons]

/-- What a text is a list of. -/
inductive Top where
  | item (i : Item)
  | block (b : Block)

/-- The text of a whole source. -/
inductive TopsForm (origin : Origin) : List Top → List Kind → Prop where
  | nil (lines : List String) : TopsForm origin [] (docKinds lines)
  | item {i ts ks ks'} (lines : List String)
      (item : ItemForm ⟨origin, ""⟩ lines i ks)
      (tops : TopsForm origin ts ks') :
      TopsForm origin (.item i :: ts) (docKinds lines ++ (ks ++ ks'))
  | block {is ts ks ks'} (lines : List String) (first : String)
      (parts : List String)
      (items : ItemsForm ⟨origin, joinPath first parts⟩ is ks)
      (tops : TopsForm origin ts ks') :
      TopsForm origin
        (.block
          (Block.addItems ⟨joinPath first parts, lines, [], [], .nowhere⟩ is)
          :: ts)
        (docKinds lines ++ .keyword .namespace :: .ident first
          :: (dottedKinds parts
            ++ .mark .lBrace :: (ks ++ .mark .rBrace :: ks')))

/-! ## Attributes, parameters, bodies -/

theorem reads_attr {first : String} {parts : List String}
    {argument : Option String} {rest : List Kind} :
    Reads attr (.mark .at :: .ident first :: (dottedKinds parts ++ .mark .lParen
        :: (argumentKinds argument ++ .mark .rParen :: rest))) rest
      fun v =>
        v.bare = ⟨.ofPath (joinPath first parts), argument, .nowhere⟩ := by
  refine .offset_bind fun start => .mark_bind
    (.bind (reads_path (by simp) first parts) fun v hv => .mark_bind ?_)
  subst hv
  cases argument with
  | none =>
      exact .peek_bind (.bind (P := fun a => a = none) (.pure rfl) fun a ha =>
        .mark_bind (.spanFrom_bind fun _ => .pure (by rw [ha]; rfl)))
  | some text =>
      exact .peek_bind (.advance_bind
        (.bind (P := fun a => a = some text) (.pure rfl) fun a ha =>
          .mark_bind (.spanFrom_bind fun _ => .pure (by rw [ha]; rfl))))

/-- The keyword of a declaration is ahead. -/
def DeclAhead (rest : List Kind) : Prop :=
  rest.headD .eof ∈ [Kind.keyword .newtype, .keyword .function,
    .keyword .operation]

theorem DeclAhead.noDoc {rest : List Kind} (h : DeclAhead rest) :
    NoDocAhead rest := by
  intro line heq
  rw [DeclAhead, heq] at h
  simp at h

theorem DeclAhead.ne_at {rest : List Kind} (h : DeclAhead rest) :
    rest.headD .eof ≠ .mark .at := by
  intro heq
  rw [DeclAhead, heq] at h
  simp at h

theorem AttrsForm.noDoc {as : List Attribute} {doc : Doc} {ks rest : List Kind}
    (h : AttrsForm as doc ks) (hrest : DeclAhead rest) :
    NoDocAhead (ks ++ rest) := by
  cases h with
  | nil => exact hrest.noDoc
  | cons => intro line; simp

theorem reads_attributesUpTo {as : List Attribute} {doc : Doc}
    {ks rest : List Kind} (h : AttrsForm as doc ks) (hrest : DeclAhead rest)
    {n : Nat} (hn : (ks ++ rest).length ≤ n) :
    Reads (attributesUpTo n) (ks ++ rest) rest
      fun v => v.1.map Attribute.bare = as ∧ v.2 = doc := by
  induction h generalizing n with
  | nil =>
      cases n with
      | zero => exact .pure ⟨rfl, rfl⟩
      | succ n =>
          cases rest with
          | nil => simp [DeclAhead] at hrest
          | cons k rest =>
              refine .peek_bind ?_
              rw [if_neg (show k ≠ _ from hrest.ne_at)]
              exact .pure ⟨rfl, rfl⟩
  | @cons as doc ks first parts argument lines others ih =>
      simp only [List.cons_append, List.append_assoc, List.length_cons,
        List.length_append] at hn ⊢
      cases n with
      | zero => omega
      | succ n =>
          refine .peek_bind ?_
          rw [if_pos rfl]
          refine .bind reads_attr fun a ha =>
            .bind (reads_docs (others.noDoc hrest) lines)
            fun ds hds => .bind (ih (by rw [List.length_append]; omega))
              fun v hv => .pure ?_
          obtain ⟨has, hdoc⟩ := hv
          exact ⟨by rw [List.map_cons, ha, has], by rw [hds, hdoc]⟩

theorem reads_attributes {as : List Attribute} {doc : Doc} {ks rest : List Kind}
    (h : AttrsForm as doc ks) (hrest : DeclAhead rest) :
    Reads attributes (ks ++ rest) rest fun v =>
      v.1.map Attribute.bare = as ∧ v.2 = doc :=
  .of_length (r := attributesUpTo)
    (reads_attributesUpTo h hrest (Nat.le_refl _))

theorem endsType_mark {sign : Mark} (h : sign ≠ .dot ∧ sign ≠ .lBracket)
    (rest : List Kind) :
    EndsType (.mark sign :: rest) := by
  simpa [EndsType] using h

theorem reads_paramsUpTo {ps : List Param} {ks rest : List Kind}
    (h : ParamsForm ps ks) {n : Nat}
    (hn : (ks ++ .mark .rParen :: rest).length ≤ n) :
    Reads (paramsUpTo n) (ks ++ .mark .rParen :: rest) (.mark .rParen :: rest)
      fun v => v.map Param.bare = ps := by
  induction h generalizing n with
  | nil =>
      cases n with
      | zero => simp at hn
      | succ n => exact .peek_bind (.pure rfl)
  | one name type =>
      cases n with
      | zero => simp at hn
      | succ n =>
          refine .peek_bind (.offset_bind fun _ => .name_bind (.mark_bind (.bind
            (reads_type type (endsType_mark (by decide) _)) fun t ht =>
              .spanFrom_bind fun _ =>
              .eat_bind_of_ne (by simp) (.pure ?_))))
          rw [ht]
          rfl
  | cons name type params ih =>
      simp only [List.cons_append, List.append_assoc, List.length_cons,
        List.length_append] at hn ⊢
      cases n with
      | zero => omega
      | succ n =>
          refine .peek_bind (.offset_bind fun _ => .name_bind (.mark_bind (.bind
            (reads_type type (endsType_mark (by decide) _)) fun t ht =>
              .spanFrom_bind fun _ =>
              .eat_bind (.bind (ih ?_) fun ps' hps' => .pure ?_))))
          · rw [List.length_append, List.length_cons]
            omega
          · rw [List.map_cons, hps', ht]
            rfl

theorem reads_params {ps : List Param} {ks : List Kind} (h : ParamsForm ps ks)
    (rest : List Kind) :
    Reads params (ks ++ .mark .rParen :: rest) (.mark .rParen :: rest)
      fun v => v.map Param.bare = ps :=
  .of_length (r := paramsUpTo) (reads_paramsUpTo h (Nat.le_refl _))

theorem reads_bodyOrHeader {body : Option (List Stmt)} {ks : List Kind}
    (h : BodyForm body ks) (rest : List Kind) :
    Reads bodyOrHeader (ks ++ rest) rest fun v =>
      v.map (List.map Stmt.bare) = body := by
  cases h with
  | header => exact .eat_bind (.pure rfl)
  | body h =>
      have hread := reads_body h rest
      obtain ⟨ks', rfl⟩ := h.starts_body
      refine .eat_bind_of_ne (by simp) (.peek_bind ?_)
      rw [if_pos rfl]
      exact .bind hread fun v hv => .pure (by rw [Option.map_some, hv])

theorem BodyForm.endsType {body : Option (List Stmt)} {ks : List Kind}
    (h : BodyForm body ks) (rest : List Kind) : EndsType (ks ++ rest) := by
  cases h with
  | header => exact endsType_mark (by decide) _
  | body h =>
      obtain ⟨ks', rfl⟩ := h.starts_body
      exact endsType_mark (by decide) _

/-! ## Items -/

def Reading.Item.bare : Item → Item
  | .opening o => .opening o.bare
  | .decl d => .decl d.bare

theorem reads_attributed {ctx : Context} {doc more : Doc} {as : List Attribute}
    {ks ks' rest : List Kind} {detail : Detail} {name : String}
    (h : AttrsForm as more ks) (hahead : DeclAhead (ks' ++ rest))
    (hread : ∀ as', as'.map Attribute.bare = as → Reads (do
      match ← peek with
      | .keyword .newtype => newtype ctx (doc ++ more) as'
      | .keyword .function => callable ctx .function (doc ++ more) as'
      | .keyword .operation => callable ctx .operation (doc ++ more) as'
      | _ => expected .declaration) (ks' ++ rest) rest fun v =>
        v.bare = ⟨⟨ctx.space, name⟩, doc ++ more, ctx.origin, .nowhere,
          detail⟩) :
    Reads (item ctx doc) (ks ++ (ks' ++ rest)) rest fun v => v.bare
      = .decl ⟨⟨ctx.space, name⟩, doc ++ more, ctx.origin, .nowhere,
        detail⟩ := by
  have hdecl : Reads (attributed ctx doc >>= fun d => pure (Item.decl d))
    (ks ++ (ks' ++ rest))
      rest fun v => v.bare
        = .decl ⟨⟨ctx.space, name⟩, doc ++ more, ctx.origin, .nowhere,
          detail⟩ := by
    refine .bind (.bind (reads_attributes h hahead) fun v hv => ?_) fun d hd =>
      .pure (congrArg Item.decl hd)
    obtain ⟨as', more'⟩ := v
    obtain ⟨has, rfl⟩ := hv
    exact hread as' has
  -- the first token is `@` or the keyword of the declaration itself
  cases h with
  | nil =>
      cases hks : ks' ++ rest with
      | nil => simp [hks, DeclAhead] at hahead
      | cons k ks₁ =>
          rw [hks] at hahead hdecl
          simp only [DeclAhead, List.headD_cons, List.mem_cons,
            List.not_mem_nil, or_false] at hahead
          refine .peek_bind ?_
          rcases hahead with rfl | rfl | rfl <;> exact hdecl
  | cons => exact .peek_bind hdecl

section Declarations

variable {ctx : Context} {doc : Doc} {as as' : List Attribute} {name : String}
  {rest : List Kind}

theorem reads_newtype {t : TypeExpr} {ks : List Kind}
    (has : as'.map Attribute.bare = as) (htype : TypeForm (.type t) ks) :
    Reads (newtype ctx doc as')
      (.keyword .newtype :: .ident name :: .mark .eq
        :: (ks ++ .mark .semi :: rest)) rest
      fun v => v.bare = ⟨⟨ctx.space, name⟩, doc, ctx.origin, .nowhere,
        .newtype t as⟩ := by
  refine .offset_bind fun _ => .keyword_bind (.name_bind (.mark_bind (.bind
    (reads_type htype (endsType_mark (by decide) _)) fun t' ht =>
      .mark_bind (.spanFrom_bind fun _ => .pure ?_))))
  subst ht has
  rfl

theorem reads_callable {kind : CallableKind} {ps : List Param} {t : TypeExpr}
    {body : Option (List Stmt)} {k : Kind} {ks₁ ks₂ ks₃ : List Kind}
    (has : as'.map Attribute.bare = as) (hparams : ParamsForm ps ks₁)
    (hresult : TypeForm (.type t) ks₂) (hbody : BodyForm body ks₃) :
    Reads (callable ctx kind doc as')
      (k :: .ident name :: .mark .lParen
        :: (ks₁ ++ .mark .rParen :: .mark .colon
          :: (ks₂ ++ (ks₃ ++ rest)))) rest
      fun v => v.bare = ⟨⟨ctx.space, name⟩, doc, ctx.origin, .nowhere,
        .callable ⟨kind, ps, t, as, body⟩⟩ := by
  refine .offset_bind fun _ => .advance_bind (.name_bind (.mark_bind (.bind
    (reads_params hparams _) fun ps' hps => .mark_bind (.mark_bind (.bind
      (reads_type hresult (hbody.endsType rest)) fun t' ht => .bind
        (reads_bodyOrHeader hbody rest) fun b hb => .spanFrom_bind fun _ =>
        .pure ?_)))))
  subst hps ht hb has
  rfl

theorem reads_specialization {variant : Variant} {first : String}
    {parts : List String} {body : Option (List Stmt)} {k : Kind}
    {ks : List Kind} (hbody : BodyForm body ks) :
    Reads (specialization ctx variant doc)
      (k :: .ident first :: (dottedKinds parts ++ (ks ++ rest))) rest
      fun v => v.bare = ⟨parentOf ctx.space (joinPath first parts), doc,
        ctx.origin, .nowhere,
        .specialization variant body⟩ := by
  refine .offset_bind fun _ => .advance_bind (.bind
    (reads_path (hbody.endsType rest).1 first parts) fun v hv => .bind
      (reads_bodyOrHeader hbody rest) fun b hb =>
      .spanFrom_bind fun _ => .pure ?_)
  subst hv hb
  rfl

end Declarations

theorem reads_openDirective {first : String} {parts : List String}
    {rest : List Kind} :
    Reads openDirective
      (.keyword .open :: .ident first
        :: (dottedKinds parts ++ .mark .semi :: rest)) rest
      fun v => v.bare = ⟨joinPath first parts, none, .nowhere⟩ := by
  refine .offset_bind fun start => .keyword_bind
    (.bind (reads_path (by simp) first parts) fun v hv =>
      .eat_bind_of_ne (by simp)
        (.bind (P := fun a => a = none) (.pure rfl) fun a ha =>
          .mark_bind (.spanFrom_bind fun _ => .pure ?_)))
  rw [hv, ha]
  rfl

theorem reads_openDirective_as {first first' : String}
    {parts parts' : List String} {rest : List Kind} :
    Reads openDirective
      (.keyword .open :: .ident first
        :: (dottedKinds parts ++ .keyword .as :: .ident first'
          :: (dottedKinds parts' ++ .mark .semi :: rest))) rest
      fun v => v.bare
        = ⟨joinPath first parts, some (joinPath first' parts'), .nowhere⟩ := by
  refine .offset_bind fun start => .keyword_bind
    (.bind (reads_path (by simp) first parts) fun v hv => .eat_bind
      (.bind (P := fun a => a = some (joinPath first' parts')) ?_ fun a ha =>
        .mark_bind (.spanFrom_bind fun _ => .pure ?_)))
  · exact .bind (reads_path (by simp) first' parts') fun w hw =>
      .pure (by rw [hw])
  · rw [hv, ha]
    rfl

/-- **Items are read as written**, up to spans. -/
theorem reads_item {ctx : Context} {doc : Doc} {i : Item} {ks : List Kind}
    (h : ItemForm ctx doc i ks) (rest : List Kind) :
    Reads (item ctx doc) (ks ++ rest) rest fun v => v.bare = i := by
  cases h with
  | opening first parts =>
      simp only [List.cons_append, List.append_assoc]
      exact .peek_bind (.bind reads_openDirective fun o ho =>
        .pure (congrArg Item.opening ho))
  | openingAs first parts first' parts' =>
      simp only [List.cons_append, List.append_assoc]
      exact .peek_bind (.bind reads_openDirective_as fun o ho =>
        .pure (congrArg Item.opening ho))
  | newtype attributes name type =>
      rw [List.append_assoc]
      refine reads_attributed attributes (by simp [DeclAhead])
        fun as' has' => ?_
      simp only [List.cons_append, List.append_assoc]
      exact .peek_bind (reads_newtype has' type)
  | callable attributes kind name params result block =>
      rw [List.append_assoc]
      refine reads_attributed attributes
        (by cases kind <;> simp [DeclAhead, CallableKind.keyword])
        fun as' has' => ?_
      simp only [List.cons_append, List.append_assoc]
      refine .peek_bind ?_
      cases kind <;> exact reads_callable has' params result block
  | specialization variant first parts block =>
      simp only [List.cons_append, List.append_assoc]
      refine .peek_bind ?_
      cases variant <;>
        exact .bind (reads_specialization block) fun d hd =>
        .pure (congrArg Item.decl hd)

/-- A token that starts an item, its documentation apart. -/
def startsDecl : Kind → Bool
  | .keyword .open | .keyword .function | .keyword .operation
  | .keyword .newtype
  | .keyword .adjoint | .keyword .controlled | .mark .at => true
  | _ => false

theorem ItemForm.starts {ctx : Context} {doc : Doc} {i : Item} {ks : List Kind}
    (h : ItemForm ctx doc i ks) :
    ∃ k ks', ks = k :: ks' ∧ startsDecl k = true := by
  cases h with
  | opening | openingAs => exact ⟨_, _, rfl, rfl⟩
  | newtype attributes =>
      cases attributes with
      | nil | cons => exact ⟨_, _, rfl, rfl⟩
  | callable attributes kind =>
      cases attributes with
      | nil => exact ⟨_, _, rfl, by cases kind <;> rfl⟩
      | cons => exact ⟨_, _, rfl, rfl⟩
  | specialization variant => exact ⟨_, _, rfl, by cases variant <;> rfl⟩

theorem noDocAhead_of_startsDecl {k : Kind} (hk : startsDecl k = true)
    (ks : List Kind) :
    NoDocAhead (k :: ks) := by
  rintro line (rfl : k = _)
  cases hk

/-! ## Blocks -/

theorem bare_addTo (i : Item) (b : Block) :
    (i.addTo b).bare = i.bare.addTo b.bare := by
  cases i <;> simp [Item.addTo, Item.bare, Block.bare]

theorem name_addTo (i : Item) (b : Block) : (i.addTo b).name = b.name := by
  cases i <;> rfl

theorem reads_itemsUpTo {origin : Origin} {space : String} {is : List Item}
    {ks : List Kind} (h : ItemsForm ⟨origin, space⟩ is ks) (rest : List Kind) :
    ∀ {n : Nat} {b : Block}, b.name = space →
      (ks ++ .mark .rBrace :: rest).length ≤ n →
      Reads (itemsUpTo origin n b) (ks ++ .mark .rBrace :: rest)
        (.mark .rBrace :: rest)
        fun v => v.1.bare = b.bare.addItems is ∧ v.2 = .closed := by
  induction h with
  | nil lines =>
      intro n b _ hn
      cases n with
      | zero => simp at hn
      | succ n =>
          exact .taken_bind fun _ =>
            .bind (reads_docs (by intro line; simp) lines) fun _ _ =>
            .peek_bind (.pure ⟨rfl, rfl⟩)
  | @cons i is ks ks' lines item items ih =>
      intro n b hname hn
      rw [List.append_assoc, List.append_assoc] at hn ⊢
      have hread := reads_item item (ks' ++ .mark .rBrace :: rest)
      obtain ⟨k, ks₁, rfl, hk⟩ := item.starts
      simp only [List.length_append, List.length_cons] at hn
      cases n with
      | zero => omega
      | succ n =>
          have hnext : ∀ i' : Item, i'.bare = i →
            Reads (itemsUpTo origin n (i'.addTo b))
              (ks' ++ .mark .rBrace :: rest) (.mark .rBrace :: rest)
              fun v => v.1.bare = b.bare.addItems (i :: is)
                ∧ v.2 = .closed := by
            intro i' hi'
            refine (ih ((name_addTo i' b).trans hname) ?_).mono fun v hv => ?_
            · rw [List.length_append, List.length_cons]
              omega
            · rw [bare_addTo, hi'] at hv
              exact hv
          refine .taken_bind fun _ =>
            .bind (reads_docs (noDocAhead_of_startsDecl hk _) lines)
            fun doc hdoc => .peek_bind ?_
          subst hdoc hname
          split
          · cases hk
          · cases hk
          · refine .bind hread.attempt fun v hv => ?_
            obtain ⟨i', rfl, hi'⟩ := hv
            exact hnext i' hi'

theorem reads_namespaceBlock {origin : Origin} {first : String}
    {parts : List String} {is : List Item} {ks : List Kind}
    (h : ItemsForm ⟨origin, joinPath first parts⟩ is ks) (doc : Doc)
    (rest : List Kind) :
    Reads (namespaceBlock origin doc)
      (.keyword .namespace :: .ident first :: (dottedKinds parts
        ++ .mark .lBrace :: (ks ++ .mark .rBrace :: rest))) rest
      fun v => v.bare
        = Block.addItems ⟨joinPath first parts, doc, [], [], .nowhere⟩ is := by
  refine .offset_bind fun start => .keyword_bind
    (.bind (reads_path (by simp) first parts) fun v hv => .mark_bind
      (.bind
        (.of_length (r := fun n => itemsUpTo origin (n + 1) _)
          (reads_itemsUpTo h rest hv (Nat.le_succ _))) fun out hout => ?_))
  obtain ⟨b, ending⟩ := out
  obtain ⟨hb, rfl⟩ := hout
  refine .mark_bind (.spanFrom_bind fun span => .pure ?_)
  subst hv
  exact hb

/-! ## Texts -/

def Top.addTo (draft : Draft) : Top → Draft
  | .item i => { draft with outside := i.addTo draft.outside }
  | .block b => { draft with blocks := draft.blocks ++ [b] }

def Top.item? : Top → Option Item
  | .item i => some i
  | .block _ => none

def Top.block? : Top → Option Block
  | .item _ => none
  | .block b => some b

/-- A draft with more parts has their items and their blocks. -/
theorem foldl_addTo (tops : List Top) (draft : Draft) :
    tops.foldl Top.addTo draft
      = ⟨draft.outside.addItems (tops.filterMap Top.item?),
      draft.blocks ++ tops.filterMap Top.block?⟩ := by
  induction tops generalizing draft with
  | nil => simp [Block.addItems]
  | cons top tops ih =>
      rw [List.foldl_cons, ih]
      cases top <;> simp [Top.addTo, Top.item?, Top.block?, Block.addItems,
        List.filterMap_cons]

def Reading.Draft.bare (draft : Draft) : Draft :=
  ⟨draft.outside.bare, draft.blocks.map Block.bare⟩

/-- The draft of a text, nothing of which has been read. -/
def emptyDraft : Draft := ⟨⟨"", [], [], [], .nowhere⟩, []⟩

/-- The blocks of a draft: what stands outside comes first, if anything. -/
def Reading.Draft.toBlocks (draft : Draft) : List Block :=
  if draft.outside.isEmpty then draft.blocks else draft.outside :: draft.blocks

/-- Reading one item or block, and then the rest of the text. -/
theorem reads_topLevelsUpTo_cons {origin : Origin} {draft next : Draft}
    {lines : List String} {k : Kind} {ks rest : List Kind}
    {Q : Draft → Prop} {n : Nat}
    (hk : startsDecl k = true ∨ k = .keyword .namespace)
    (htop : Reads (topLevel origin draft lines) (k :: ks) rest fun v =>
    v.bare = next) (hgo : ∀ draft', draft'.bare = next →
      Reads (topLevelsUpTo origin n draft') rest [] Q) :
    Reads (topLevelsUpTo origin (n + 1) draft) (docKinds lines ++ k :: ks)
      [] Q := by
  have hdoc : NoDocAhead (k :: ks) := by
    rcases hk with hk | rfl
    · exact noDocAhead_of_startsDecl hk ks
    · intro line
      simp
  refine .taken_bind fun _ => .bind (reads_docs hdoc lines) fun doc hdoc =>
    .peek_bind ?_
  subst hdoc
  split
  · rcases hk with hk | hk <;> cases hk
  · refine .bind htop.attempt fun v hv => ?_
    obtain ⟨draft', rfl, hdraft'⟩ := hv
    exact hgo draft' hdraft'

theorem reads_topLevelsUpTo {origin : Origin} {ts : List Top} {ks : List Kind}
    (h : TopsForm origin ts ks) :
    ∀ {n : Nat} {draft : Draft}, ks.length + 1 ≤ n →
      Reads (topLevelsUpTo origin n draft) ks [] fun v =>
        v.bare = ts.foldl Top.addTo draft.bare := by
  induction h with
  | nil lines =>
      intro n draft hn
      cases n with
      | zero => omega
      | succ n =>
          have hdocs :=
            reads_docs (show NoDocAhead [] by intro line; simp) lines
          rw [List.append_nil] at hdocs
          exact .taken_bind fun _ => .bind hdocs fun _ _ =>
            .peek_bind_nil (.pure rfl)
  | @item i ts ks ks' lines item tops ih =>
      intro n draft hn
      have hread := reads_item item ks'
      obtain ⟨k, ks₁, rfl, hk⟩ := item.starts
      simp only [List.length_append, List.length_cons] at hn
      cases n with
      | zero => omega
      | succ n =>
          have htop : Reads (topLevel origin draft lines) (k :: ks₁ ++ ks') ks'
              fun v => v.bare = Top.addTo draft.bare (.item i) := by
            refine .peek_bind ?_
            rw [if_neg (by rintro rfl; cases hk)]
            refine .bind hread fun i' hi' => .pure ?_
            rw [Draft.bare, bare_addTo, hi']
            rfl
          refine reads_topLevelsUpTo_cons (Or.inl hk) htop
            fun draft' hdraft' => ?_
          rw [List.foldl_cons, ← hdraft']
          exact ih (by omega)
  | @block is ts ks ks' lines first parts items tops ih =>
      intro n draft hn
      simp only [List.length_append, List.length_cons] at hn
      cases n with
      | zero => omega
      | succ n =>
          have htop : Reads (topLevel origin draft lines)
              (.keyword .namespace :: .ident first :: (dottedKinds parts
                ++ .mark .lBrace :: (ks ++ .mark .rBrace :: ks'))) ks'
              fun v => v.bare = Top.addTo draft.bare (.block (Block.addItems
                ⟨joinPath first parts, lines, [], [], .nowhere⟩ is)) := by
            refine .peek_bind ?_
            rw [if_pos rfl]
            refine .bind (reads_namespaceBlock items lines ks') fun b hb =>
              .pure ?_
            rw [Draft.bare, List.map_append, List.map_singleton, hb]
            rfl
          refine reads_topLevelsUpTo_cons (Or.inr rfl) htop
            fun draft' hdraft' => ?_
          rw [List.foldl_cons, ← hdraft']
          exact ih (by omega)

theorem isEmpty_bare (b : Block) : b.bare.isEmpty = b.isEmpty := by
  simp [Block.isEmpty, Block.bare]

/-- **Texts are read as written**, up to spans and without a fault. -/
theorem parsed_of_form {origin : Origin} {tokens : List Token} {ts : List Top}
    {ks : List Kind} (htokens : tokens.map Token.kind = ks ++ [.eof])
    (h : TopsForm origin ts ks) :
    (Parsed.ofTokens tokens origin).faults = []
      ∧ (Parsed.ofTokens tokens origin).blocks.map Block.bare
        = (ts.foldl Top.addTo emptyDraft).toBlocks := by
  obtain ⟨hat, hclean⟩ := Cursor.at_ofTokens htokens
  have hall :
      Reads (topLevelsUpTo origin ((Cursor.ofTokens tokens).ahead.length + 1)
        emptyDraft) ks []
        fun v => v.bare = ts.foldl Top.addTo emptyDraft.bare :=
    reads_topLevelsUpTo h (Nat.succ_le_succ (Nat.le_of_eq hat.length.symm))
  obtain ⟨draft, c, hread, -, hfaults, hdraft⟩ := hall hat
  rw [hclean] at hfaults
  have hempty : emptyDraft.bare = emptyDraft := rfl
  rw [hempty] at hdraft
  have houtside : draft.outside.isEmpty = draft.bare.outside.isEmpty :=
    (isEmpty_bare draft.outside).symm
  unfold Parsed.ofTokens
  dsimp only
  rw [emptyDraft] at hread
  rw [hread, ← hdraft, Draft.toBlocks]
  dsimp only
  rw [houtside]
  split
  · exact ⟨hfaults, rfl⟩
  · exact ⟨hfaults, rfl⟩

end Exemplar
