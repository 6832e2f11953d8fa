import Exemplar.Library
import Exemplar.Proofs.Grammar.Extents

/-!
# Texts and the tokens they are made of

Items and blocks stand for the tokens they were read from (`takes_item`,
`takes_namespaceBlock`), and a text is scattered over its tokens as the list of
what it consists of (`exists_tops`). Declarations take the origin of the text
and the namespace of their block with them (`Context.Holds`).

As the tokens of a text stand in order, the spans of its trees nest
(`spans_nest`). A text with as many faults as are recorded is left out there:
reading may break off in the middle of a block, whose span is then an empty one
at its start.
-/

namespace Exemplar

namespace Reading

section

variable {calm : Bool} {p : Proviso}

/-! ## Parts of declarations -/

theorem takes_paramsUpTo :
    ∀ n : Nat, Takes calm p [] anyToken (paramsUpTo n) ParamsTokens
  | 0 => .pure .nil
  | n + 1 => by
      refine .peek_bind fun kind => ?_
      split
      · exact .pure .nil
      · exact .pure .nil
      · refine .offset_bind fun start => .name_bind fun name t hfirst ht =>
          .mark_bind rfl fun c _ hc =>
          .bind takes_type fun type us _ => .spanFrom_bind fun stop hs => ?_
        have hparam : IsType type us →
            ParamTokens ⟨name, type, ⟨start, stop⟩⟩ ([t] ++ [c] ++ us) :=
          fun htype => .intro ht hc htype (hs (.cons hfirst.2))
        exact .eat_bind rfl
          (fun m _ hm => .bind (takes_paramsUpTo n) fun params vs _ =>
              .pure fun hparams htype =>
            .cons (hparam htype) hm hparams)
          (.pure fun htype => .single (hparam htype))

theorem takes_params : Takes calm p [] anyToken params ParamsTokens :=
  .of_length (r := paramsUpTo) takes_paramsUpTo

theorem takes_openDirective :
    Takes calm p [] anyToken openDirective fun o ts =>
      ItemTokens p (.opening o) ts := by
  refine .offset_bind fun start => .keyword_bind rfl fun k hfirst hk =>
    .bind takes_path
    fun space us _ => ?_
  refine .eat_bind rfl (fun t _ ht => ?_) ?_
  · refine .bind (F := fun asName ts =>
      ∃ name, asName = some name ∧ IsPath name ts)
        (.bind takes_path fun name vs _ => .pure fun hname =>
          ⟨name, rfl, hname⟩)
      fun asName vs _ => .mark_bind rfl fun m _ hm =>
        .spanFrom_bind fun stop hs => .pure ?_
    rintro ⟨name, rfl, hname⟩ hspace
    have hs := hs (.cons hfirst.2)
    have hassoc : [k] ++ us ++ [t] ++ vs ++ [m] = [k] ++ us ++ ([t] ++ vs)
      ++ [m] := by simp
    exact hassoc ▸ .opening hk hspace (.some ht hname) hm (hassoc ▸ hs)
  · refine .pure_bind (.mark_bind rfl fun m _ hm =>
      .spanFrom_bind fun stop hs => .pure ?_)
    intro hspace
    have hnil : [k] ++ us ++ [] ++ [m] = [k] ++ us ++ [m] := by
      rw [List.append_nil]
    exact hnil ▸ .opening hk hspace .none hm (hnil ▸ hs (.cons hfirst.2))

theorem takes_attr : Takes calm p [] anyToken attr AttrTokens := by
  refine .offset_bind fun start => .mark_bind rfl fun l hfirst hl =>
    .bind takes_path
    fun name us _ => .mark_bind rfl fun m _ hm => .peek_bind fun kind => ?_
  have hclose : ∀ (argument : Option String) (vs : List Token),
      vs.map Token.kind = argumentKinds argument →
      Takes calm p ([l] ++ us ++ [m] ++ vs) anyToken
        (mark .rParen >>= fun _ => spanFrom start >>= fun s =>
          pure (⟨.ofPath name, argument, s⟩ : Attribute))
        fun a ts => IsPath name us → AttrTokens a ts :=
    fun argument vs hvs => .mark_bind rfl fun r _ hr =>
      .spanFrom_bind fun stop hs =>
      .pure fun hname => .intro rfl hl hname hm hvs hr (hs (.cons hfirst.2))
  split
  · next text =>
      refine .advance_bind rfl fun t _ ht => ?_
      exact hclose (some text) [t] (by simp [ht, argumentKinds])
  · have hnone := hclose none [] rfl
    rw [List.append_nil] at hnone
    exact hnone.of_any
  · exact .expected_bind

theorem takes_attributesUpTo : ∀ n : Nat,
    Takes calm p [] anyToken (attributesUpTo n) fun v ts => AttrsTokens v.1 ts
  | 0 => .pure .nil
  | n + 1 => by
      refine .peek_bind fun kind => ?_
      split
      · exact .bind takes_attr.of_any fun first us _ =>
          .bind takes_docs fun doc vs _ =>
          .bind (takes_attributesUpTo n) fun others ws _ =>
            .pure fun hothers hdoc hfirst =>
            (List.append_assoc us vs ws) ▸ .cons hfirst ⟨doc, hdoc⟩ hothers
      · exact .pure .nil

theorem takes_attributes :
    Takes calm p [] anyToken attributes fun v ts => AttrsTokens v.1 ts :=
  .of_length (r := attributesUpTo) takes_attributesUpTo

/-! ## Declarations and items -/

/-- The declaration has the origin of its surroundings and, unless it only
refers to a name, their namespace. -/
structure Context.Holds (ctx : Context) (d : Declaration) : Prop where
  origin : d.origin = ctx.origin
  space : d.definesName = true → d.name.space = ctx.space

def Context.HoldsItem (ctx : Context) : Item → Prop
  | .opening _ => True
  | .decl d => ctx.Holds d

theorem takes_newtype (ctx : Context) (doc : Doc) (as : List Attribute) :
    Takes calm p [] anyToken (newtype ctx doc as) fun d ts =>
      ctx.Holds d ∧ d.attributes = as ∧ DeclTokens p d ts := by
  exact .offset_bind fun start => .keyword_bind rfl fun k hfirst hk =>
    .name_bind fun name t _ ht =>
    .mark_bind rfl fun q _ hq => .bind takes_type fun type us _ =>
      .mark_bind rfl fun m _ hm =>
      .spanFrom_bind fun stop hs => .pure fun htype =>
        ⟨⟨rfl, fun _ => rfl⟩, rfl,
          .newtype hk ht hq htype hm (hs (.cons hfirst.2))⟩

end

variable {p : Proviso}

theorem takes_bodyOrHeader :
    Takes false p [] anyToken bodyOrHeader (BodyTokens p) := by
  refine .eat_bind rfl (fun m _ hm => .pure (.header hm))
    (.peek_bind fun kind => ?_)
  split
  · exact .bind takes_body.of_any fun stmts us _ => .pure .body
  · exact .expected

theorem takes_callable (ctx : Context) (kind : CallableKind) (doc : Doc)
    (as : List Attribute) :
    Takes false p [] (fun t => anyToken t ∧ t.kind = .keyword kind.keyword)
      (callable ctx kind doc as) fun d ts =>
        ctx.Holds d ∧ d.attributes = as ∧ DeclTokens p d ts := by
  exact .offset_bind fun start =>
    .of_next (.advance_bind (Kind.passes_keyword _) fun k hfirst hk =>
    .name_bind fun name t _ ht => .mark_bind rfl fun l _ hl =>
      .bind takes_params fun params us _ =>
      .mark_bind rfl fun r _ hr => .mark_bind rfl fun n _ hn =>
        .bind takes_type fun result vs _ =>
        .bind takes_bodyOrHeader fun body ws _ => .spanFrom_bind fun stop hs =>
          .pure fun hbody hresult hparams => ⟨⟨rfl, fun _ => rfl⟩, rfl,
            .callable hk ht hl hparams hr hn hresult hbody (hs (.cons hfirst))⟩)
    fun t (h : (anyToken t ∧ t.kind = .keyword kind.keyword)
        ∧ t.span.start = start) =>
      ⟨h.2, h.1.2⟩

theorem takes_specialization (ctx : Context) (variant : Variant) (doc : Doc) :
    Takes false p [] (fun t => anyToken t ∧ t.kind = .keyword variant.keyword)
      (specialization ctx variant doc) fun d ts =>
        ctx.Holds d ∧ d.attributes = [] ∧ DeclTokens p d ts := by
  exact .offset_bind fun start =>
    .of_next (.advance_bind (Kind.passes_keyword _) fun k hfirst hk =>
    .bind takes_path fun target us _ =>
      .bind takes_bodyOrHeader fun body vs _ =>
      .spanFrom_bind fun stop hs => .pure fun hbody htarget =>
        ⟨⟨rfl, nofun⟩, rfl,
          .specialization hk htarget hbody (hs (.cons hfirst))⟩)
    fun t (h : (anyToken t ∧ t.kind = .keyword variant.keyword)
        ∧ t.span.start = start) =>
      ⟨h.2, h.1.2⟩

theorem takes_attributed (ctx : Context) (doc : Doc) :
    Takes false p [] anyToken (attributed ctx doc) fun d ts =>
      ctx.Holds d ∧ ItemTokens p (.decl d) ts := by
  refine .bind takes_attributes fun v us _ => ?_
  obtain ⟨as, moreDoc⟩ := v
  have hitem : ∀ (d : Declaration) (vs : List Token),
      ctx.Holds d ∧ d.attributes = as ∧ DeclTokens p d vs →
        AttrsTokens as us → ctx.Holds d
          ∧ ItemTokens p (.decl d) (us ++ vs) := by
    rintro d vs ⟨hholds, rfl, hd⟩ has
    exact ⟨hholds, .decl has hd⟩
  refine .peek_bind fun kind => ?_
  split
  · exact .tail (takes_newtype ctx _ as).of_any hitem
  · exact .tail (takes_callable ctx .function _ as) hitem
  · exact .tail (takes_callable ctx .operation _ as) hitem
  · exact .expected

theorem takes_item (ctx : Context) (doc : Doc) :
    Takes false p [] anyToken (item ctx doc) fun i ts =>
      ctx.HoldsItem i ∧ ItemTokens p i ts := by
  have hplain : ∀ (d : Declaration) (us : List Token),
      ctx.Holds d ∧ d.attributes = [] ∧ DeclTokens p d us →
        ctx.HoldsItem (.decl d) ∧ ItemTokens p (.decl d) us := fun d us hd =>
    ⟨hd.1, @ItemTokens.decl p d [] us (hd.2.1 ▸ .nil) hd.2.2⟩
  refine .peek_bind fun kind => ?_
  split
  · exact .bind takes_openDirective.of_any fun o us _ =>
      .pure fun ho => ⟨trivial, ho⟩
  · exact .fault
  · exact .bind (takes_specialization ctx .adjoint doc) fun d us _ =>
      .pure (hplain d us)
  · exact .bind (takes_specialization ctx .controlled doc) fun d us _ =>
      .pure (hplain d us)
  · exact .bind (takes_attributed ctx doc).of_any fun d us _ => .pure id
  · exact .bind (takes_attributed ctx doc).of_any fun d us _ => .pure id
  · exact .bind (takes_attributed ctx doc).of_any fun d us _ => .pure id
  · exact .bind (takes_attributed ctx doc).of_any fun d us _ => .pure id
  · exact .expected

/-! ## Blocks -/

theorem takes_skipItem (start : Nat) :
    Takes false p [] anyToken (skipItem start) fun _ _ => True := by
  obtain ⟨g, hg, heq⟩ := exists_skipItem start
  rw [heq]
  exact .of_onward hg

/-- Items are read into a block until something else is ahead, or until there is
no room for another fault. -/
theorem takes_itemsUpTo (origin : Origin) : ∀ (n : Nat) (b : Block),
    Takes false p [] anyToken (itemsUpTo origin n b) fun v ts =>
      (v.2 = .closed ∨ p = .any)
      ∧ ∃ is, v.1 = b.addItems is
        ∧ (∀ i ∈ is, Context.HoldsItem ⟨origin, b.name⟩ i)
        ∧ Scattered p (ItemTokens p) is ts
  | 0, b => .pure ⟨.inl rfl, [], rfl, nofun, .nil p.gap_nil⟩
  | n + 1, b => by
      have hend : ∀ (doc : Doc) (lines : List Token),
        lines.map Token.kind = docKinds doc →
          Scattered p (ItemTokens p) [] lines := fun doc _ h =>
          .nil fun _ => ⟨doc, h⟩
      refine .taken_bind fun start => .bind takes_docs fun doc lines _ =>
        .peek_bind fun kind => ?_
      split
      · exact .pure fun hdoc => ⟨.inl rfl, [], rfl, nofun, hend doc lines hdoc⟩
      · exact .pure fun hdoc => ⟨.inl rfl, [], rfl, nofun, hend doc lines hdoc⟩
      · refine .bind (takes_item _ doc).attempt.of_any fun e us _ => ?_
        cases e with
        | ok i =>
            refine .tail (takes_itemsUpTo origin n _) ?_
            rintro v vs ⟨hend, is, hv, hholds, his⟩ hi hdoc
            obtain ⟨hholdsi, hi⟩ := hi i rfl
            rw [name_addTo] at hholds
            exact ⟨hend, i :: is, hv,
              List.forall_mem_cons.mpr ⟨hholdsi, hholds⟩,
              .cons (fun _ => ⟨doc, hdoc⟩) hi his⟩
        | error why =>
            refine .bind .record fun room rs _ => ?_
            cases room with
            | true =>
                refine .bind (takes_skipItem start) fun _ skipped _ =>
                  .tail (takes_itemsUpTo origin n b) ?_
                rintro v vs ⟨hend, is, hv, hholds, his⟩ - ⟨hp, -⟩ - -
                exact ⟨hend, is, hv, hholds, his.prepend hp _⟩
            | false =>
                refine .pure ?_
                rintro ⟨hp, hroom⟩ - -
                exact ⟨.inr (hroom.resolve_left nofun), [], rfl, nofun,
                  .nil (p.gap_of_ne hp _)⟩

theorem takes_namespaceBlock (origin : Origin) (doc : Doc) :
    Takes false p [] anyToken (namespaceBlock origin doc) fun b ts =>
      (∀ d ∈ b.decls, Context.Holds ⟨origin, b.name⟩ d)
        ∧ BlockTokens p b ts := by
  refine .offset_bind fun start => .keyword_bind rfl fun k hfirst hk =>
    .bind takes_path fun name us _ => .mark_bind rfl fun l _ hl => ?_
  refine .bind
    (.of_length
      (r := fun n =>
        itemsUpTo origin (n + 1) ⟨name, doc, [], [], ⟨start, start⟩⟩)
      fun n => takes_itemsUpTo origin _ _) fun v vs _ => ?_
  obtain ⟨b, ending⟩ := v
  have hblock : (∃ is, b = Block.addItems ⟨name, doc, [], [], ⟨start, start⟩⟩ is
      ∧ (∀ i ∈ is, Context.HoldsItem ⟨origin, name⟩ i)
        ∧ Scattered p (ItemTokens p) is vs) →
      b.name = name ∧ (∀ d ∈ b.decls, Context.Holds ⟨origin, b.name⟩ d)
        ∧ ∃ is, b.HasItems is ∧ Scattered p (ItemTokens p) is vs := by
    rintro ⟨is, rfl, hholds, his⟩
    rw [Block.addItems_eq]
    refine ⟨rfl, fun d hd => ?_, is, ⟨List.nil_append _, List.nil_append _⟩,
      his⟩
    obtain ⟨i, hi, hd⟩ := List.mem_filterMap.mp hd
    cases i with
    | opening o => cases hd
    | decl d' =>
        obtain rfl := Option.some.inj hd
        exact hholds _ hi
  cases ending with
  | spent =>
      refine .pure ?_
      rintro ⟨hend, hb⟩ hname
      obtain ⟨rfl, hholds, is, hhas, his⟩ := hblock hb
      exact ⟨hholds, .spent (hend.resolve_left nofun) hk hname hl hhas his⟩
  | closed =>
      refine .mark_bind rfl fun r _ hr => .spanFrom_bind fun stop hs => .pure ?_
      rintro ⟨-, hb⟩ hname
      obtain ⟨rfl, hholds, is, hhas, his⟩ := hblock hb
      exact ⟨hholds, .closed hk hname hl ⟨hhas.opens, hhas.decls⟩ his hr
        (hs (.cons hfirst.2))⟩

end Reading

open Reading

/-- The declarations in it have the origin, and the name of the block they stand
in. -/
def Top.Holds (origin : Origin) : Top → Prop
  | .item i => Context.HoldsItem ⟨origin, ""⟩ i
  | .block b => ∀ d ∈ b.decls, Context.Holds ⟨origin, b.name⟩ d

namespace Reading

theorem takes_topLevel (origin : Origin) (draft : Draft) (doc : Doc) :
    Takes false p [] anyToken (topLevel origin draft doc) fun draft' ts =>
      ∃ top, draft' = Top.addTo draft top ∧ top.Holds origin
        ∧ TopTokens p top ts := by
  refine .peek_bind fun kind => ?_
  split
  · exact .bind (takes_namespaceBlock origin doc).of_any fun b us _ =>
      .pure fun hb =>
      ⟨.block b, rfl, hb.1, .block hb.2⟩
  · exact .bind (takes_item ⟨origin, ""⟩ doc).of_any fun i us _ =>
      .pure fun hi =>
      ⟨.item i, rfl, hi.1, .item hi.2⟩

theorem takes_topLevelsUpTo (origin : Origin) : ∀ (n : Nat) (draft : Draft),
    Takes false p [] anyToken (topLevelsUpTo origin n draft) fun draft' ts =>
      ∃ tops, draft' = tops.foldl Top.addTo draft
        ∧ (∀ top ∈ tops, top.Holds origin)
        ∧ Scattered p (TopTokens p) tops ts
  | 0, draft => .pure ⟨[], rfl, nofun, .nil p.gap_nil⟩
  | n + 1, draft => by
      refine .taken_bind fun start => .bind takes_docs fun doc lines _ =>
        .peek_bind fun kind => ?_
      split
      · exact .pure fun hdoc => ⟨[], rfl, nofun, .nil fun _ => ⟨doc, hdoc⟩⟩
      · refine .bind (takes_topLevel origin draft doc).attempt.of_any
          fun e us _ => ?_
        cases e with
        | ok draft₁ =>
            refine .tail (takes_topLevelsUpTo origin n draft₁) ?_
            rintro draft₂ vs ⟨tops, rfl, hholds, htops⟩ htop hdoc
            obtain ⟨top, rfl, hholdst, htop⟩ := htop draft₁ rfl
            exact ⟨top :: tops, rfl, List.forall_mem_cons.mpr ⟨hholdst, hholds⟩,
              .cons (fun _ => ⟨doc, hdoc⟩) htop htops⟩
        | error why =>
            refine .bind .record fun room rs _ => ?_
            cases room with
            | true =>
                refine .bind (takes_skipItem start) fun _ skipped _ =>
                  .tail (takes_topLevelsUpTo origin n draft) ?_
                rintro draft₁ vs ⟨tops, rfl, hholds, htops⟩ - ⟨hp, -⟩ - -
                exact ⟨tops, rfl, hholds, htops.prepend hp _⟩
            | false =>
                refine .pure ?_
                rintro ⟨hp, -⟩ - -
                exact ⟨[], rfl, nofun, .nil (p.gap_of_ne hp _)⟩

end Reading

/-! ## Whole texts -/

open Reading

theorem Cursor.closed_ofTokens (tokens : List Token) :
    (ofTokens tokens).Closed := by
  unfold ofTokens
  dsimp only
  split <;> rfl

/-- The tokens of a text are those ahead at its start, and the `eof` that ends
them. -/
theorem Scan.tokens_ofText (text : String) :
    (Scan.ofText text).tokens
      = (Cursor.ofTokens (Scan.ofText text).tokens).ahead
      ++ [(Cursor.ofTokens (Scan.ofText text).tokens).last] := by
  simp [Scan.ofText, Cursor.ofTokens]

/-- The blocks of a draft. What stands outside is one that ends at `stop`. -/
def Reading.Draft.blocksUpTo (draft : Draft) (stop : Nat) : List Block :=
  if draft.outside.isEmpty then draft.blocks
  else { draft.outside with span := ⟨0, stop⟩ } :: draft.blocks

/-- **What a text consists of**, up to the token that is ahead in the end. -/
theorem exists_tops (tokens : List Token) (origin : Origin) {p : Proviso}
    (h : p.Met (Parsed.ofTokens tokens origin).faults) :
    ∃ (tops : List Top) (c : Cursor) (us : List Token),
      (Cursor.ofTokens tokens).Past false us c
        ∧ (∀ top ∈ tops, top.Holds origin)
        ∧ Scattered p (TopTokens p) tops us
        ∧ (Parsed.ofTokens tokens origin).blocks
          = (tops.foldl Top.addTo emptyDraft).blocksUpTo
            c.current.span.stop := by
  have hread := takes_topLevelsUpTo (p := p) origin
    ((Cursor.ofTokens tokens).ahead.length + 1) emptyDraft
      (Cursor.closed_ofTokens tokens)
    (Cursor.readLast_nil _) trivial
  unfold Parsed.ofTokens at h ⊢
  rw [emptyDraft] at hread
  dsimp only at h ⊢
  split at h
  · next draft c hrun =>
      rw [hrun] at hread
      obtain ⟨us, hpast, htops⟩ := hread
      have hmet : p.Met c.faults := by
        split at h <;> exact h
      obtain ⟨tops, rfl, hholds, htops⟩ := htops hmet
      refine ⟨tops, c, us, hpast, hholds, htops, ?_⟩
      rw [Draft.blocksUpTo, emptyDraft]
      split <;> rfl
  · exact ⟨[], _, [], .refl _, List.forall_mem_nil _, .nil p.gap_nil, rfl⟩

namespace Scattered

variable {p : Proviso} {tops : List Top} {ts : List Token}

theorem items (h : Scattered p (TopTokens p) tops ts) (hp : p ≠ .clean) :
    Scattered p (ItemTokens p) (tops.filterMap Top.item?) ts :=
  h.filterMap hp fun top ts htop i hi => by
    cases htop with
    | item h => exact Option.some.inj hi ▸ h
    | block h => cases hi

theorem blocks (h : Scattered p (TopTokens p) tops ts) (hp : p ≠ .clean) :
    Scattered p (BlockTokens p) (tops.filterMap Top.block?) ts :=
  h.filterMap hp fun top ts htop b hb => by
    cases htop with
    | item h => cases hb
    | block h => exact Option.some.inj hb ▸ h

end Scattered

/-- A block of a draft is one that was read, or it is what stands outside. -/
theorem mem_blocksUpTo {draft : Draft} {stop : Nat} {b : Block}
    (h : b ∈ draft.blocksUpTo stop) :
    b = { draft.outside with span := ⟨0, stop⟩ } ∨ b ∈ draft.blocks := by
  unfold Draft.blocksUpTo at h
  split at h
  · exact .inr h
  · exact List.mem_cons.mp h

section

variable {tokens : List Token} {origin : Origin}

/-- Declarations have the origin of the text, and the name of the block they
stand in. -/
theorem holds_of_mem_decls {b : Block}
    (hb : b ∈ (Parsed.ofTokens tokens origin).blocks) {d : Declaration}
    (hd : d ∈ b.decls) : Context.Holds ⟨origin, b.name⟩ d := by
  obtain ⟨tops, c, us, -, hholds, -, hblocks⟩ :=
    exists_tops (p := .any) tokens origin trivial
  rw [hblocks, foldl_addTo, Block.addItems_eq] at hb
  rcases mem_blocksUpTo hb with rfl | hb
  · obtain ⟨i, hi, hd⟩ := List.mem_filterMap.mp hd
    obtain ⟨top, htop, hi⟩ := List.mem_filterMap.mp hi
    cases top with
    | block b => cases hi
    | item i' =>
        obtain rfl := Option.some.inj hi
        cases i' with
        | opening o => cases hd
        | decl d' =>
            obtain rfl := Option.some.inj hd
            exact hholds _ htop
  · obtain ⟨top, htop, hb⟩ := List.mem_filterMap.mp hb
    cases top with
    | item i => cases hb
    | block b' =>
        obtain rfl := Option.some.inj hb
        exact hholds _ htop d hd

/-- Every declaration that is read carries the origin it was read for. -/
theorem origin_of_mem_decls {b : Block}
    (hb : b ∈ (Parsed.ofTokens tokens origin).blocks) {d : Declaration}
    (hd : d ∈ b.decls) : d.origin = origin :=
  (holds_of_mem_decls hb hd).origin

/-- What introduces a name is named for the block it stands in. -/
theorem space_of_mem_decls {b : Block}
    (hb : b ∈ (Parsed.ofTokens tokens origin).blocks) {d : Declaration}
    (hd : d ∈ b.decls) (hdefines : d.definesName = true) :
    d.name.space = b.name :=
  (holds_of_mem_decls hb hd).space hdefines

/-- The items of a block stand for tokens of the text. -/
theorem exists_items {p : Proviso} (hp : p ≠ .clean)
    (h : p.Met (Parsed.ofTokens tokens origin).faults) {b : Block}
    (hb : b ∈ (Parsed.ofTokens tokens origin).blocks) :
    ∃ is us, b.HasItems is ∧ us <:+: (Cursor.ofTokens tokens).ahead
      ∧ Scattered p (ItemTokens p) is us := by
  obtain ⟨tops, c, us, hpast, -, htops, hblocks⟩ := exists_tops tokens origin h
  rw [hblocks, foldl_addTo, Block.addItems_eq] at hb
  have hfront : us <:+: (Cursor.ofTokens tokens).ahead :=
    hpast.ahead ▸ (List.prefix_append us _).isInfix
  rcases mem_blocksUpTo hb with rfl | hb
  · exact ⟨tops.filterMap Top.item?, us, ⟨rfl, rfl⟩, hfront, htops.items hp⟩
  · obtain ⟨vs, hvs, hb⟩ := (htops.blocks hp).exists_of_mem hb
    have hvs := hvs.trans hfront
    cases hb with
    | @closed is k l r ts ws _ _ _ has items =>
        exact ⟨is, ws, has, .trans (List.infix_append _ ws [r]) hvs, items⟩
    | @spent is k l ts ws _ _ _ _ has items =>
        exact ⟨is, ws, has, .trans (List.suffix_append _ ws).isInfix hvs, items⟩

end

/-! ## The headline -/

/-- The block is made of items whose tokens stand, in their order, among those
given, and their spans nest and are in that order inside the span of the
block. -/
def Block.NestsIn (tokens : List Token) (b : Block) : Prop :=
  ∃ is ts, ts <:+: tokens ∧ b.HasItems is
    ∧ Scattered .roomy (ItemTokens .roomy) is ts
    ∧ Layout.Row b.span.start b.span.stop (is.flatMap Item.layouts)

/-- While there is room for faults, a block encloses its tokens. -/
theorem BlockTokens.encloses {b : Block} {us : List Token}
    (h : BlockTokens .roomy b us) :
    b.span.Encloses us := by
  cases h with
  | closed _ _ _ _ _ _ span => exact span
  | spent hp => cases hp

theorem BlockTokens.nestsIn {tokens us : List Token} {b : Block}
    (h : BlockTokens .roomy b us) (hus : us <:+: tokens) {high low : Nat}
    (hordered : Ordered high low tokens) :
    b.NestsIn tokens := by
  obtain ⟨-, -, hinner⟩ := (hordered.of_infix hus).within h.encloses
  cases h with
  | @closed is k l r ts vs _ _ _ has items =>
      have hitems : vs <:+: [k] ++ ts ++ [l] ++ vs ++ [r] :=
        List.infix_append _ vs [r]
      refine ⟨is, vs, hitems.trans hus, has, items, ?_⟩
      exact (((items.fills fun _ _ hi => hi.fills).after
        ([k] ++ ts ++ [l])).before [r]) hinner
  | spent hp => cases hp

/-- Namespace blocks stand one behind the other. -/
theorem Scattered.pairwise_blocks {bs : List Block} {ts : List Token}
    (h : Scattered .roomy (BlockTokens .roomy) bs ts) {high low : Nat}
    (hordered : Ordered high low ts) : bs.Pairwise fun a b =>
      a.span.stop ≤ b.span.start := by
  have hrow := h.fills (f := fun b => [.leaf b.span]) (fun b ts hb =>
    .leaf hb.encloses) hordered
  rw [← List.map_eq_flatMap] at hrow
  exact List.pairwise_map.mp hrow.pairwise

/-- What stands outside namespaces goes up to the token that is ahead. -/
theorem nestsIn_outside {tokens us : List Token} {b : Block} {is : List Item}
    (hb : b.HasItems is) (his : Scattered .roomy (ItemTokens .roomy) is us)
    {c : Cursor} {high : Nat} (htokens : tokens = us ++ (c.ahead ++ [c.last]))
    (hordered : Ordered high 0 tokens) :
    Block.NestsIn tokens { b with span := ⟨0, c.current.span.stop⟩ } := by
  rw [htokens] at hordered
  obtain ⟨mid, hus, hrest⟩ := hordered.split
  have hcurrent : mid ≤ c.current.span.stop := by
    unfold Cursor.current
    cases hahead : c.ahead with
    | nil =>
        rw [hahead] at hrest
        exact Nat.le_trans hrest.1 hrest.2.1
    | cons t rest =>
        rw [hahead] at hrest
        exact Nat.le_trans hrest.1 hrest.2.1
  refine ⟨is, us, ?_, ⟨hb.opens, hb.decls⟩, his, ?_⟩
  · rw [htokens]
    exact (List.prefix_append us _).isInfix
  · exact (his.fills (fun _ _ hi => hi.fills) hus).mono_high hcurrent

/-- **Spans nest.** If fewer faults are found in a text than are recorded, each
of its blocks is made of items that stand for tokens of the text, one behind the
other: every expression, statement, parameter and declaration in them encloses
its tokens, from the first to the last (`ItemTokens`), and its span contains
those of its parts, which are disjoint and in the order of the text. So does the
span of the block, with `open` directives and attributes. The blocks of
namespaces are disjoint and in the order of the text. -/
theorem spans_nest {text : String} {origin : Origin}
    (h : (parseText text origin).faults.length < faultLimit) :
    (∀ b ∈ (parseText text origin).blocks, b.NestsIn (Scan.ofText text).tokens)
      ∧ ((parseText text origin).blocks.filter fun b => b.name != "").Pairwise
          fun a b => a.span.stop ≤ b.span.start := by
  have hordered := Scan.ordered_ofText text
  obtain ⟨tops, c, us, hpast, -, htops, hblocks⟩ :=
    exists_tops (p := .roomy) _ _ h
  have hblocks : (parseText text origin).blocks = _ := hblocks
  have htokens := Scan.tokens_ofText text
  rw [hpast.ahead, ← hpast.last, List.append_assoc] at htokens
  have hfront : us <:+: (Scan.ofText text).tokens :=
    htokens ▸ (List.prefix_append us _).isInfix
  rw [foldl_addTo] at hblocks
  have hnests : ∀ b ∈ tops.filterMap Top.block?,
      b.NestsIn (Scan.ofText text).tokens := by
    intro b hb
    obtain ⟨vs, hvs, hb⟩ := (htops.blocks nofun).exists_of_mem hb
    exact hb.nestsIn (hvs.trans hfront) hordered
  have hpairwise :=
    ((htops.blocks nofun).pairwise_blocks (hordered.of_infix hfront)).filter
      fun b => b.name != ""
  rw [hblocks, Block.addItems_eq, Draft.blocksUpTo]
  split
  · exact ⟨hnests, hpairwise⟩
  · rw [List.filter_cons_of_neg (by simp [emptyDraft])]
    exact ⟨List.forall_mem_cons.mpr
      ⟨nestsIn_outside ⟨rfl, rfl⟩ (htops.items nofun) htokens hordered, hnests⟩,
      hpairwise⟩

/-- Two blocks, and in the first one a statement that is given up in front of
one that is read. -/
def recoveredText : String :=
  "namespace A \x7b function F(x : Int) : Int \x7b let = 1; return (x + 1); \x7d \x7d "
    ++ "namespace B \x7b \x7d"

/-- The spans of the two blocks nest, one behind the other. -/
theorem spans_nest_recovered :
    ∃ a b f, parseText recoveredText (.primary "main.vl") = ⟨[a, b], [f]⟩
      ∧ a.name = "A" ∧ b.name = "B"
      ∧ a.NestsIn (Scan.ofText recoveredText).tokens
      ∧ b.NestsIn (Scan.ofText recoveredText).tokens
      ∧ a.span.stop ≤ b.span.start := by
  have hparse : (let p := parseText recoveredText (.primary "main.vl")
      (p.blocks.map Block.name, p.faults.length))
        = (["A", "B"], 1) := by decide +kernel
  have hspans := @spans_nest recoveredText (.primary "main.vl")
  generalize parseText recoveredText (.primary "main.vl") = p at hparse hspans ⊢
  obtain ⟨blocks, faults⟩ := p
  obtain ⟨hnames, hfaults⟩ := Prod.mk.inj hparse
  obtain ⟨f, rfl⟩ := List.length_eq_one_iff.mp hfaults
  obtain ⟨a, rest, rfl, ha, hrest⟩ := List.map_eq_cons_iff.mp hnames
  obtain ⟨b, rest, rfl, hb, hnil⟩ := List.map_eq_cons_iff.mp hrest
  obtain rfl := List.map_eq_nil_iff.mp hnil
  obtain ⟨hnests, hpairwise⟩ := hspans (show 1 < faultLimit by decide)
  rw [List.filter_eq_self.mpr (by simp [ha, hb])] at hpairwise
  exact ⟨a, b, f, rfl, ha, hb, hnests a (by simp), hnests b (by simp),
    List.rel_of_pairwise_cons hpairwise (by simp)⟩

end Exemplar
