import Exemplar.Proofs.Grammar.BlockExtents
import Exemplar.Proofs.Grammar.Language

/-!
# Texts without faults

A text is read without a fault exactly when the grammar derives it
(`faults_eq_nil_iff`). One direction is that what is written is read
(`parsed_of_form`), for what the grammar derives is written. For the other, a
text without faults is scattered over its tokens, and the grammar derives
whatever tokens stand for (`ExprTokens.derives`, `StmtTokens.derives`,
`ItemTokens.derives`). The reader of whole texts must moreover not stop early,
and does not, because it passes a token with every item.

The tokens of an expression say how its tree is built. In the grammar a suffix
belongs to the last operand of a row and a prefix operator to the first, so a
row stays a row whichever of them is put at its end (`Derives.append_suffix`,
`Derives.cons_op`).
-/

namespace Exemplar

open Reading

/-! ## Rows of operands -/

theorem Derives.append_binary {ks ks' : List Kind} (hl : Derives .expr ks)
    (op : BinaryOp) (hr : Derives .expr ks') :
    Derives .expr (ks ++ op.kind :: ks') := by
  generalize hs : Symbol.expr = s at hr
  induction hr with
  | exprUnary h => exact .exprBinary hl op h
  | exprBinary left op' right ih =>
      have hrow := ih hs
      rw [← List.cons_append, ← List.append_assoc]
      exact .exprBinary hrow op' right
  | _ => cases hs

theorem Derives.cons_op {ks : List Kind} (op : UnaryOp) (h : Derives .expr ks) :
    Derives .expr (op.kind :: ks) := by
  generalize hs : Symbol.expr = s at h
  induction h with
  | exprUnary h => exact .exprUnary (.unaryOp op h)
  | exprBinary left op' right ih => exact .exprBinary (ih hs) op' right
  | _ => cases hs

theorem Derives.unary_append_suffix {ks suffix : List Kind}
    (hsuffix : ∀ ks, Derives .suffixed ks → Derives .suffixed (ks ++ suffix))
    (h : Derives .unary ks) : Derives .unary (ks ++ suffix) := by
  generalize hs : Symbol.unary = s at h
  induction h with
  | unaryOp op operand ih => exact .unaryOp op (ih hs)
  | unarySuffixed h => exact .unarySuffixed (hsuffix _ h)
  | _ => cases hs

theorem Derives.append_suffix {ks suffix : List Kind}
    (hsuffix : ∀ ks, Derives .suffixed ks → Derives .suffixed (ks ++ suffix))
    (h : Derives .expr ks) : Derives .expr (ks ++ suffix) := by
  generalize hs : Symbol.expr = s at h
  cases h with
  | exprUnary h => exact .exprUnary (h.unary_append_suffix hsuffix)
  | exprBinary left op right =>
      rw [List.append_assoc]
      exact .exprBinary left op (right.unary_append_suffix hsuffix)
  | _ => cases hs

theorem Derives.primary_expr {ks : List Kind} (h : Derives .primary ks) :
    Derives .expr ks :=
  .exprUnary (.unarySuffixed (.suffixedPrimary h))

/-! ## Types and expressions -/

@[simp] def TypePhrase.symbol : TypePhrase → Symbol
  | .type _ => .type
  | .list _ => .list .type

theorem TypeForm.derives {φ : TypePhrase} {ks : List Kind} (h : TypeForm φ ks) :
    Derives φ.symbol ks := by
  induction h with
  | path first parts => exact .typePath (.path first parts)
  | parens _ ih => exact .typeParens ih
  | array _ ih => exact .typeArray ih
  | nil => exact .listNil
  | one _ ih => exact .listOne ih
  | cons _ _ ih ih' => exact .listCons ih ih'

theorem IsPath.derives {name : String} {ts : List Token} (h : IsPath name ts) :
    Derives .path (ts.map Token.kind) := by
  obtain ⟨first, parts, -, hkinds⟩ := h
  exact hkinds ▸ .path first parts

@[simp] def ExprPart.symbol : ExprPart → Symbol
  | .one _ => .expr
  | .many _ => .list .expr

theorem ExprTokens.derives {φ : ExprPart} {ts : List Token}
    (h : ExprTokens φ ts) :
    Derives φ.symbol (ts.map Token.kind) := by
  induction h with
  | literal kind _ => simpa [kind] using (Derives.literal _).primary_expr
  | path kinds _ => exact kinds ▸ (Derives.primaryPath (.path _ _)).primary_expr
  | parens left _ right _ ih =>
      simpa [left, right] using (Derives.parens (.listOne ih)).primary_expr
  | unit left right _ =>
      simpa [left, right] using (Derives.parens .listNil).primary_expr
  | tuple left _ comma _ right _ first others =>
      simpa [left, comma, right]
        using (Derives.parens (.listCons first others)).primary_expr
  | array left _ right _ items =>
      simpa [left, right] using (Derives.array items).primary_expr
  | call _ left _ right _ callee args =>
      simpa [left, right] using callee.append_suffix fun ks hks =>
        .call hks args
  | index _ left _ right _ target subscript =>
      simpa [left, right] using target.append_suffix fun ks hks =>
        .index hks subscript
  | unary kind _ _ operand => simpa [kind] using operand.cons_op _
  | binary _ kind _ _ left right =>
      simpa [kind] using left.append_binary _ right
  | nil => exact .listNil
  | single _ item => exact .listOne item
  | cons _ comma _ item items => simpa [comma] using Derives.listCons item items

/-! ## Statements -/

@[simp] def StmtPart.symbol : StmtPart → Symbol
  | .stmt _ => .stmt
  | .cond _ => .cond
  | .body _ => .block
  | .stmts _ => .run .stmt

theorem BindingTokens.derives {name : String} {e : Expr} {k : Token}
    {ts : List Token} {word : Keyword} (h : BindingTokens name e ts)
    (hk : k.kind = .keyword word)
    (hword : word ∈ [Keyword.let, .mutable, .set]) :
    Derives .stmt (([k] ++ ts).map Token.kind) := by
  obtain ⟨target, eq, value, semi⟩ := h
  simpa [hk, target, eq, semi] using Derives.binding hword name value.derives

theorem StmtTokens.derives {φ : StmtPart} {ts : List Token}
    (h : StmtTokens .clean φ ts) :
    Derives φ.symbol (ts.map Token.kind) := by
  induction h with
  | expr value semi _ => simpa [semi] using Derives.stmtExpr value.derives
  | @bind s name isMutable e k ts head binding _ =>
      exact binding.derives head (by cases isMutable <;> simp [bindingKeyword])
  | assign head binding _ => exact binding.derives head (by simp)
  | ret head semi _ => simpa [head, semi] using Derives.ret
  | retValue head value semi _ =>
      simpa [head, semi] using Derives.retValue value.derives
  | loop head target word items _ _ body =>
      simpa [head, target, word] using Derives.loop _ items.derives body
  | cond _ ih => exact .stmtCond ih
  | ifThen head test _ _ body =>
      simpa [head] using Derives.ifThen test.derives body
  | ifElse head test _ word _ _ body other =>
      simpa [head, word] using Derives.ifElse test.derives body other
  | elseIf head test _ word _ _ body other =>
      simpa [head, word] using Derives.elseIf test.derives body other
  | body left _ right stmts =>
      rcases right with ⟨r, rfl, right⟩ | ⟨hany, -⟩
      · simpa [left, right] using Derives.block stmts
      · cases hany
  | nil hgap =>
      obtain ⟨lines, hlines⟩ := hgap rfl
      exact hlines ▸ .runNil lines
  | cons hgap _ _ stmt stmts =>
      obtain ⟨lines, hlines⟩ := hgap rfl
      simpa [hlines] using Derives.runCons lines stmt stmts

theorem Scattered.derives {α : Type} {P : α → List Token → Prop} {s : Symbol}
    {as : List α} {ts : List Token} (h : Scattered .clean P as ts)
    (hP : ∀ a ts, P a ts → Derives s (ts.map Token.kind)) :
    Derives (.run s) (ts.map Token.kind) := by
  induction h with
  | nil hgap =>
      obtain ⟨lines, hlines⟩ := hgap rfl
      exact hlines ▸ .runNil lines
  | cons hgap head _ ih =>
      obtain ⟨lines, hlines⟩ := hgap rfl
      simpa [hlines] using Derives.runCons lines (hP _ _ head) ih

/-! ## Items and blocks -/

theorem ParamsTokens.derives {ps : List Param} {ts : List Token}
    (h : ParamsTokens ps ts) :
    Derives (.list .param) (ts.map Token.kind) := by
  have hparam : ∀ {p : Param} {ts : List Token}, ParamTokens p ts →
      Derives .param (ts.map Token.kind) := by
    rintro p ts ⟨target, colon, type, -⟩
    simpa [target, colon] using Derives.param p.name type.derives
  induction h with
  | nil => exact .listNil
  | single param => exact .listOne (hparam param)
  | cons param comma _ ih =>
      simpa [comma] using Derives.listCons (hparam param) ih

theorem AttrsTokens.derives {as : List Attribute} {ts : List Token}
    (h : AttrsTokens as ts) :
    Derives .attributes (ts.map Token.kind) := by
  induction h with
  | nil => exact .attributesNil
  | cons first lines _ ih =>
      obtain ⟨-, sign, path, left, argument, right, -⟩ := first
      obtain ⟨doc, hdoc⟩ := lines
      simpa [sign, left, argument, right, hdoc]
        using Derives.attributesCons (.attr path.derives _) doc ih

theorem BodyTokens.derives {body : Option (List Stmt)} {ts : List Token}
    (h : BodyTokens .clean body ts) : Derives .body (ts.map Token.kind) := by
  cases h with
  | header semi => simpa [semi] using Derives.bodyHeader
  | body h => exact .bodyBlock h.derives

theorem ItemTokens.derives {i : Item} {ts : List Token}
    (h : ItemTokens .clean i ts) :
    Derives .item (ts.map Token.kind) := by
  cases h with
  | @opening o k m ts us head space asName semi _ =>
      generalize o.asName = other at asName
      cases asName with
      | none => simpa [head, semi] using Derives.opening space.derives
      | some word path =>
          simpa [head, word, semi]
            using Derives.openingAs space.derives path.derives
  | decl attributes decl =>
      cases decl with
      | newtype head target eq underlying semi _ =>
          simpa [head, target, eq, semi]
            using Derives.newtype attributes.derives _ underlying.derives
      | callable head target left params right colon result body _ =>
          simpa [head, target, left, right, colon]
            using Derives.callable attributes.derives _ _ params.derives
              result.derives body.derives
      | specialization head parent body _ =>
          cases attributes with
          | nil =>
              simpa [head] using Derives.specialization _ parent.derives
                body.derives

theorem TopTokens.derives {top : Top} {ts : List Token}
    (h : TopTokens .clean top ts) :
    Derives .topLevel (ts.map Token.kind) := by
  cases h with
  | item h => exact .topItem h.derives
  | block h =>
      cases h with
      | closed head path left _ items right _ =>
          have hitems := items.derives fun _ _ hi => hi.derives
          have hblock := Derives.namespaceBlock path.derives hitems
          exact .topNamespace (by simpa [head, left, right] using hblock)
      | spent hany => cases hany

/-! ## Whole texts -/

/-- The fault that is recorded stays: there is no clean way on from it. -/
theorem takes_recorded (origin : Origin) (n start : Nat) (draft : Draft)
    (why : Fault) :
    Takes false .clean [] anyToken (do
        if ← record why then
          skipItem start
          topLevelsUpTo origin n draft
        else return draft) fun _ _ => False := by
  refine .bind .record fun room _ _ => ?_
  cases room with
  | true =>
      exact .bind (takes_skipItem _) fun _ _ _ =>
        .tail (takes_topLevelsUpTo origin n draft) fun _ _ _ _ h => h.1 rfl
  | false => exact .pure fun h => h.1 rfl

/-- Given a step for each token ahead, a text without faults is read to its
end: every item passes a token. -/
theorem topLevelsUpTo_at_end (origin : Origin) :
    ∀ (n : Nat) {draft draft' : Draft} {c c' : Cursor}, c.Closed →
      c.ahead.length < n →
      topLevelsUpTo origin n draft c = .read draft' c' → c'.faults = [] →
        c'.current.kind = .eof := by
  intro n
  induction n with
  | zero =>
      intro draft draft' c c' _ hn
      omega
  | succ n ih =>
      intro draft draft' c c' hc hn hread hclean
      unfold topLevelsUpTo at hread
      rw [taken_bind] at hread
      obtain ⟨doc, c₁, hdocs, hread⟩ := bind_eq_read.mp hread
      obtain ⟨us₁, hpast₁, -⟩ :=
        (takes_docs : Takes false .clean _ _ _ _).of_read hc trivial hdocs
      have hc₁ := hpast₁.closed hc
      rw [peek_bind] at hread
      cases hkind : c₁.current.kind with
      | eof =>
          rw [hkind] at hread
          obtain ⟨-, rfl⟩ := pure_eq_read.mp hread
          exact hkind
      | literal _ | ident _ | doc _ | keyword _ | mark _ =>
          rw [hkind] at hread
          obtain ⟨e, c₂, htop, hread⟩ := bind_eq_read.mp hread
          obtain ⟨us₂, hpast₂, hword⟩ :=
            (takes_topLevel (p := .clean) origin draft doc).attempt.of_read hc₁
              trivial htop
          have hc₂ := hpast₂.closed hc₁
          cases e with
          | ok next =>
              obtain ⟨_, hpast₃, -⟩ :=
                (takes_topLevelsUpTo (p := .clean) origin n next).of_read hc₂
                  trivial hread
              have hclean₂ : c₂.faults = [] :=
                List.prefix_nil.mp (hclean ▸ hpast₃.faults)
              obtain ⟨top, -, -, htokens⟩ := hword hclean₂ next rfl
              have hlength : c₂.ahead.length < c.ahead.length := by
                have hpos := List.length_pos_iff.mpr htokens.ne_nil
                rw [hpast₁.ahead, hpast₂.ahead, List.length_append,
                  List.length_append]
                omega
              exact ih hc₂ (by omega) hread hclean
          | error why =>
              obtain ⟨_, -, hfalse⟩ :=
                (takes_recorded origin n c.taken draft why).of_read hc₂ trivial
                  hread
              exact (hfalse hclean).elim

/-- What is read without faults is derived. -/
theorem derives_of_faults_eq_nil {tokens : List Token} {ks : List Kind}
    (origin : Origin) (htokens : tokens.map Token.kind = ks ++ [.eof])
    (heof : .eof ∉ ks) (hfaults : (Parsed.ofTokens tokens origin).faults = []) :
    Derives (.run .topLevel) ks := by
  obtain ⟨hat, -⟩ := Cursor.at_ofTokens htokens
  unfold Parsed.ofTokens at hfaults
  dsimp only at hfaults
  split at hfaults
  · next draft c hread =>
      have hclean : c.faults = [] := by
        split at hfaults <;> exact hfaults
      obtain ⟨us, hpast, hword⟩ :=
        (takes_topLevelsUpTo (p := .clean) origin _ _).of_read hat.closed
          trivial hread
      obtain ⟨tops, -, -, htops⟩ := hword hclean
      have hend := topLevelsUpTo_at_end origin _ hat.closed (Nat.lt_succ_self _)
        hread hclean
      have hall : ks = us.map Token.kind ++ c.ahead.map Token.kind := by
        rw [← hat.kinds, Cursor.kinds, hpast.ahead, List.map_append]
      have hnil := Cursor.ahead_eq_nil_of_eof hend fun t ht hkind =>
        heof (hall ▸ List.mem_append_right _
          (hkind ▸ List.mem_map_of_mem ht))
      rw [hall, hnil, List.map_nil, List.append_nil]
      exact htops.derives fun _ _ htop => htop.derives
  · exact absurd hfaults
      (List.append_ne_nil_of_right_ne_nil _ (List.cons_ne_nil _ _))

/-- **Texts without faults.** For every list of tokens with `eof` at its end
and nowhere else, reading reports no fault exactly when the grammar derives the
kinds of the tokens. -/
theorem faults_eq_nil_iff {tokens : List Token} {ks : List Kind}
    (origin : Origin) (htokens : tokens.map Token.kind = ks ++ [.eof])
    (heof : .eof ∉ ks) :
    (Parsed.ofTokens tokens origin).faults = [] ↔ Derives .file ks := by
  constructor
  · intro hfaults
    exact .file (derives_of_faults_eq_nil origin htokens heof hfaults)
  · intro h
    obtain ⟨ts, hts⟩ := h.hasTree origin
    exact (parsed_of_form htokens hts).1

/-- `function F(a : Int,) : Int { return -a + 1; }` -/
def sampleKinds : List Kind :=
  [.keyword .function, .ident "F", .mark .lParen, .ident "a", .mark .colon,
    .ident "Int", .mark .comma, .mark .rParen, .mark .colon, .ident "Int",
    .mark .lBrace, .keyword .return, .mark .minus, .ident "a", .mark .plus,
    .literal (.int 1), .mark .semi, .mark .rBrace]

/-- The sample is derived; with a semicolon after it, it is not. -/
theorem faults_eq_nil_iff_sample :
    Derives .file sampleKinds
      ∧ ¬Derives .file (sampleKinds ++ [.mark .semi]) := by
  have hread : (Parsed.ofTokens (Cursor.tokensNowhere sampleKinds)
      (.primary "a.vl")).faults = [] := by
    decide +kernel
  have hfault :
      (Parsed.ofTokens (Cursor.tokensNowhere (sampleKinds ++ [.mark .semi]))
        (.primary "a.vl")).faults ≠ [] := by decide +kernel
  constructor
  · exact (faults_eq_nil_iff _ (Cursor.map_kind_tokensNowhere _) (by decide)).mp
      hread
  · intro h
    exact hfault
      ((faults_eq_nil_iff _ (Cursor.map_kind_tokensNowhere _) (by decide)).mpr
        h)

end Exemplar
