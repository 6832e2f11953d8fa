import Exemplar.Proofs.Grammar.Blocks

/-!
# The language of source texts

The grammar of source texts, over kinds of tokens, one constructor of
`Derives` a production. Two productions are generic: `.list s` is a list of
`s` with commas between them and, unless it is empty, possibly one at its end;
`.run s` is any number of `s`, with documentation before each and at the end.

Operators stand in the grammar without their binding powers: an expression is
a row of operands with operators between them. That every such row has a
syntax tree is part of `Derives.hasTree`: what the grammar derives is the
written form of a tree. The tree of a row is built from left to right, each
further operator taking its place on the right edge of what is there
(`ExprForm.insert`).
-/

namespace Exemplar

open Reading

inductive Symbol where
  | file | topLevel | namespace | item | attributes | attr | param | body
  | path | type
  | block | stmt | cond
  | expr | unary | suffixed | primary
  | list (s : Symbol)
  | run (s : Symbol)

/-- The grammar of source texts. -/
inductive Derives : Symbol → List Kind → Prop where
  -- file = (doc* (namespace | item))* doc*
  | file {ks} (tops : Derives (.run .topLevel) ks) : Derives .file ks
  | topNamespace {ks} (h : Derives .namespace ks) : Derives .topLevel ks
  | topItem {ks} (h : Derives .item ks) : Derives .topLevel ks
  -- namespace = 'namespace' path '{' (doc* item)* doc* '}'
  | namespaceBlock {ks ks'} (name : Derives .path ks)
      (items : Derives (.run .item) ks') :
      Derives .namespace
        (.keyword .namespace
          :: (ks ++ .mark .lBrace :: (ks' ++ [.mark .rBrace])))
  -- item = 'open' path ('as' path)? ';'
  --   | ('adjoint' | 'controlled') path body
  --   | attributes 'newtype' name '=' type ';'
  -- | attributes ('function' | 'operation') name '(' param,* ')' ':' type body
  | opening {ks} (space : Derives .path ks) :
      Derives .item (.keyword .open :: (ks ++ [.mark .semi]))
  | openingAs {ks ks'} (space : Derives .path ks) (asName : Derives .path ks') :
      Derives .item
        (.keyword .open :: (ks ++ .keyword .as :: (ks' ++ [.mark .semi])))
  | specialization {ks ks'} (variant : Variant) (target : Derives .path ks)
      (body : Derives .body ks') :
      Derives .item (.keyword variant.keyword :: (ks ++ ks'))
  | newtype {ks ks'} (attributes : Derives .attributes ks) (name : String)
      (type : Derives .type ks') :
      Derives .item
        (ks ++ .keyword .newtype :: .ident name :: .mark .eq
          :: (ks' ++ [.mark .semi]))
  | callable {ks₁ ks₂ ks₃ ks₄} (attributes : Derives .attributes ks₁)
      (kind : CallableKind) (name : String)
      (params : Derives (.list .param) ks₂) (result : Derives .type ks₃)
      (body : Derives .body ks₄) :
      Derives .item
        (ks₁ ++ .keyword kind.keyword :: .ident name :: .mark .lParen
        :: (ks₂ ++ .mark .rParen :: .mark .colon :: (ks₃ ++ ks₄)))
  -- attributes = (attr doc*)*, attr = '@' path '(' string? ')'
  | attributesNil : Derives .attributes []
  | attributesCons {ks ks'} (first : Derives .attr ks) (lines : List String)
      (others : Derives .attributes ks') :
      Derives .attributes (ks ++ (docKinds lines ++ ks'))
  | attr {ks} (name : Derives .path ks) (argument : Option String) :
      Derives .attr (.mark .at
        :: (ks ++ .mark .lParen :: (argumentKinds argument ++ [.mark .rParen])))
  | param {ks} (name : String) (type : Derives .type ks) :
      Derives .param (.ident name :: .mark .colon :: ks)
  -- body = block | ';'
  | bodyBlock {ks} (h : Derives .block ks) : Derives .body ks
  | bodyHeader : Derives .body [.mark .semi]
  -- path = name ('.' name)*
  | path (first : String) (parts : List String) :
      Derives .path (.ident first :: dottedKinds parts)
  -- type = path | '(' type,* ')' | type '[' ']'
  | typePath {ks} (h : Derives .path ks) : Derives .type ks
  | typeParens {ks} (items : Derives (.list .type) ks) :
      Derives .type (.mark .lParen :: (ks ++ [.mark .rParen]))
  | typeArray {ks} (item : Derives .type ks) :
      Derives .type (ks ++ [.mark .lBracket, .mark .rBracket])
  -- block = '{' (doc* stmt)* doc* '}'
  | block {ks} (stmts : Derives (.run .stmt) ks) :
      Derives .block (.mark .lBrace :: (ks ++ [.mark .rBrace]))
  -- stmt = ('let' | 'mutable' | 'set') name '=' expr ';' | 'return' expr? ';'
  --   | 'for' name 'in' expr block | cond | expr ';'
  | binding {word ks} (h : word ∈ [Keyword.let, .mutable, .set]) (name : String)
      (value : Derives .expr ks) :
      Derives .stmt
        (.keyword word :: .ident name :: .mark .eq :: (ks ++ [.mark .semi]))
  | ret : Derives .stmt [.keyword .return, .mark .semi]
  | retValue {ks} (value : Derives .expr ks) :
      Derives .stmt (.keyword .return :: (ks ++ [.mark .semi]))
  | loop {ks ks'} (name : String) (items : Derives .expr ks)
      (body : Derives .block ks') :
      Derives .stmt
        (.keyword .for :: .ident name :: .keyword .in :: (ks ++ ks'))
  | stmtCond {ks} (h : Derives .cond ks) : Derives .stmt ks
  | stmtExpr {ks} (value : Derives .expr ks) :
      Derives .stmt (ks ++ [.mark .semi])
  -- cond = 'if' expr block ('else' (block | cond))?
  | ifThen {ks ks'} (test : Derives .expr ks) (body : Derives .block ks') :
      Derives .cond (.keyword .if :: (ks ++ ks'))
  | ifElse {ks ks' ks''} (test : Derives .expr ks) (body : Derives .block ks')
      (other : Derives .block ks'') :
      Derives .cond (.keyword .if :: (ks ++ (ks' ++ .keyword .else :: ks'')))
  | elseIf {ks ks' ks''} (test : Derives .expr ks) (body : Derives .block ks')
      (other : Derives .cond ks'') :
      Derives .cond (.keyword .if :: (ks ++ (ks' ++ .keyword .else :: ks'')))
  -- expr = unary (operator unary)*, unary = ('-' | 'not') unary | suffixed
  | exprUnary {ks} (h : Derives .unary ks) : Derives .expr ks
  | exprBinary {ks ks'} (left : Derives .expr ks) (op : BinaryOp)
      (right : Derives .unary ks') :
      Derives .expr (ks ++ op.kind :: ks')
  | unaryOp {ks} (op : UnaryOp) (operand : Derives .unary ks) :
      Derives .unary (op.kind :: ks)
  | unarySuffixed {ks} (h : Derives .suffixed ks) : Derives .unary ks
  -- suffixed = primary | suffixed '(' expr,* ')' | suffixed '[' expr ']'
  | suffixedPrimary {ks} (h : Derives .primary ks) : Derives .suffixed ks
  | call {ks ks'} (callee : Derives .suffixed ks)
      (args : Derives (.list .expr) ks') :
      Derives .suffixed (ks ++ .mark .lParen :: (ks' ++ [.mark .rParen]))
  | index {ks ks'} (target : Derives .suffixed ks)
      (subscript : Derives .expr ks') :
      Derives .suffixed (ks ++ .mark .lBracket :: (ks' ++ [.mark .rBracket]))
  -- primary = literal | path | '(' expr,* ')' | '[' expr,* ']'
  | literal (value : Literal) : Derives .primary [.literal value]
  | primaryPath {ks} (h : Derives .path ks) : Derives .primary ks
  | parens {ks} (items : Derives (.list .expr) ks) :
      Derives .primary (.mark .lParen :: (ks ++ [.mark .rParen]))
  | array {ks} (items : Derives (.list .expr) ks) :
      Derives .primary (.mark .lBracket :: (ks ++ [.mark .rBracket]))
  -- s,* = (s (',' s)* ','?)?
  | listNil {s} : Derives (.list s) []
  | listOne {s ks} (item : Derives s ks) : Derives (.list s) ks
  | listCons {s ks ks'} (item : Derives s ks) (items : Derives (.list s) ks') :
      Derives (.list s) (ks ++ .mark .comma :: ks')
  -- run of s = (doc* s)* doc*
  | runNil {s} (lines : List String) : Derives (.run s) (docKinds lines)
  | runCons {s ks ks'} (lines : List String) (first : Derives s ks)
      (others : Derives (.run s) ks') :
      Derives (.run s) (docKinds lines ++ (ks ++ ks'))

/-! ## Rows of operands -/

/-- Where tighter operators are read, an expression can stand that can stand
where looser ones are. -/
theorem ExprForm.weaken {p q : Nat} {e : Expr} {ks : List Kind}
    (h : ExprForm (.expr p e) ks) (hq : q ≤ p) : ExprForm (.expr q e) ks := by
  cases h with
  | literal _ value => exact .literal q value
  | path _ first parts => exact .path q first parts
  | parens inner => exact .parens inner
  | unit => exact .unit q
  | tuple first others => exact .tuple first others
  | array items => exact .array items
  | call callee args => exact .call callee args
  | index target subscript => exact .index target subscript
  | unary op level operand => exact .unary op (Nat.le_trans hq level) operand
  | binary op level left right =>
      exact .binary op (Nat.le_trans hq level) left right

/-- One more operator and operand behind an expression. The operator goes
below those on the right edge that bind less tightly, and above the rest. -/
theorem ExprForm.insert {p : Nat} {e u : Expr} {ks ks' : List Kind}
    (h : ExprForm (.expr p e) ks) (op : BinaryOp) (hp : p ≤ op.power)
    (hu : ExprForm (.expr UnaryOp.power u) ks') :
    ∃ e', ExprForm (.expr p e') (ks ++ op.kind :: ks') := by
  have hop := op.power_lt
  have hright : ExprForm (.expr (op.power + 1) u) ks' :=
    hu.weaken (by rw [UnaryOp.power]; omega)
  generalize hphrase : ExprPhrase.expr p e = phrase at h
  induction h generalizing p e with
  | literal _ value =>
      exact ⟨_, .binary op hp (.literal _ value) hright⟩
  | path _ first parts => exact ⟨_, .binary op hp (.path _ first parts) hright⟩
  | parens inner => exact ⟨_, .binary op hp (.parens inner) hright⟩
  | unit => exact ⟨_, .binary op hp (.unit _) hright⟩
  | tuple first others => exact ⟨_, .binary op hp (.tuple first others) hright⟩
  | array items => exact ⟨_, .binary op hp (.array items) hright⟩
  | call callee args => exact ⟨_, .binary op hp (.call callee args) hright⟩
  | index target subscript =>
      exact ⟨_, .binary op hp (.index target subscript) hright⟩
  | unary op' level operand =>
      have hlevel : op.power ≤ UnaryOp.power := by rw [UnaryOp.power]; omega
      exact ⟨_, .binary op hp (.unary op' hlevel operand) hright⟩
  | binary op' level left right ihl ihr =>
      obtain ⟨rfl, -⟩ := ExprPhrase.expr.inj hphrase
      by_cases hless : op'.power < op.power
      · -- the new operator belongs to the right operand
        obtain ⟨r', hr'⟩ := ihr hless rfl
        rw [List.append_assoc, List.cons_append]
        exact ⟨_, .binary op' level left hr'⟩
      · exact ⟨_,
          .binary op hp (.binary op' (Nat.le_of_not_lt hless) left right)
            hright⟩
  | nil | one | cons => cases hphrase

/-! ## Trees -/

/-- A word of the symbol is the written form of a tree. Symbols that the
grammar does not use in lists and runs are left out. -/
def Symbol.HasTree : Symbol → List Kind → Prop
  | .path, ks => ∃ first parts, ks = .ident first :: dottedKinds parts
  | .type, ks => ∃ t, TypeForm (.type t) ks
  | .list .type, ks => ∃ ts, TypeForm (.list ts) ks
  | .expr, ks => ∃ e, ExprForm (.expr 0 e) ks
  | .unary, ks => ∃ e, ExprForm (.expr UnaryOp.power e) ks
  | .suffixed, ks | .primary, ks => ∃ e, ExprForm (.expr suffixPower e) ks
  | .list .expr, ks => ∃ es, ExprForm (.list es) ks
  | .block, ks => ∃ ss, StmtForm (.body ss) ks
  | .stmt, ks => ∃ s, StmtForm (.stmt s) ks
  | .cond, ks => ∃ s, StmtForm (.cond s) ks
  | .run .stmt, ks => ∃ ss, StmtForm (.stmts ss) ks
  | .body, ks => ∃ body, BodyForm body ks
  | .param, ks =>
      ∃ name t ks', ks = .ident name :: .mark .colon :: ks'
        ∧ TypeForm (.type t) ks'
  | .list .param, ks => ∃ ps, ParamsForm ps ks
  | .attr, ks => ∃ first parts argument,
      ks = .mark .at :: .ident first :: (dottedKinds parts
        ++ .mark .lParen :: (argumentKinds argument ++ [.mark .rParen]))
  | .attributes, ks => ∃ as doc, AttrsForm as doc ks
  | .item, ks => ∀ ctx doc, ∃ i, ItemForm ctx doc i ks
  | .run .item, ks => ∀ ctx, ∃ is, ItemsForm ctx is ks
  | .namespace, ks => ∀ {origin lines ts ks'}, TopsForm origin ts ks' →
      ∃ b, TopsForm origin (.block b :: ts) (docKinds lines ++ (ks ++ ks'))
  | .topLevel, ks => ∀ {origin lines ts ks'}, TopsForm origin ts ks' →
      ∃ t, TopsForm origin (t :: ts) (docKinds lines ++ (ks ++ ks'))
  | .run .topLevel, ks | .file, ks => ∀ origin, ∃ ts, TopsForm origin ts ks
  | .list _, _ | .run _, _ => True

/-! ### Lists and runs -/

theorem hasTree_listNil (s : Symbol) : (Symbol.list s).HasTree [] := by
  cases s with
  | type => exact ⟨[], .nil⟩
  | expr => exact ⟨[], .nil⟩
  | param => exact ⟨[], .nil⟩
  | _ => trivial

theorem hasTree_listOne {s : Symbol} {ks : List Kind} (h : s.HasTree ks) :
    (Symbol.list s).HasTree ks := by
  cases s with
  | type =>
      obtain ⟨t, ht⟩ := h
      exact ⟨[t], .one ht⟩
  | expr =>
      obtain ⟨e, he⟩ := h
      exact ⟨[e], .one he⟩
  | param =>
      obtain ⟨name, t, ks', rfl, ht⟩ := h
      exact ⟨_, .one name ht⟩
  | _ => trivial

theorem hasTree_listCons {s : Symbol} {ks ks' : List Kind} (h : s.HasTree ks)
    (hs : (Symbol.list s).HasTree ks') :
    (Symbol.list s).HasTree (ks ++ .mark .comma :: ks') := by
  cases s with
  | type =>
      obtain ⟨t, ht⟩ := h
      obtain ⟨ts, hts⟩ := hs
      exact ⟨t :: ts, .cons ht hts⟩
  | expr =>
      obtain ⟨e, he⟩ := h
      obtain ⟨es, hes⟩ := hs
      exact ⟨e :: es, .cons he hes⟩
  | param =>
      obtain ⟨name, t, ks', rfl, ht⟩ := h
      obtain ⟨ps, hps⟩ := hs
      exact ⟨_, .cons name ht hps⟩
  | _ => trivial

theorem hasTree_runNil (s : Symbol) (lines : List String) :
    (Symbol.run s).HasTree (docKinds lines) := by
  cases s with
  | stmt => exact ⟨[], .nil lines⟩
  | item => exact fun ctx => ⟨[], .nil lines⟩
  | topLevel => exact fun origin => ⟨[], .nil lines⟩
  | _ => trivial

theorem hasTree_runCons {s : Symbol} {ks ks' : List Kind} (lines : List String)
    (h : s.HasTree ks) (hs : (Symbol.run s).HasTree ks') :
    (Symbol.run s).HasTree (docKinds lines ++ (ks ++ ks')) := by
  cases s with
  | stmt =>
      obtain ⟨s, hs'⟩ := h
      obtain ⟨ss, hss⟩ := hs
      exact ⟨s :: ss, .cons lines hs' hss⟩
  | item =>
      intro ctx
      obtain ⟨i, hi⟩ := h ctx lines
      obtain ⟨is, his⟩ := hs ctx
      exact ⟨i :: is, .cons lines hi his⟩
  | topLevel =>
      intro origin
      obtain ⟨ts, hts⟩ := hs origin
      obtain ⟨t, ht⟩ := h hts
      exact ⟨t :: ts, ht⟩
  | _ => trivial

/-- What stands in parentheses: nothing is the unit value, one expression is
that expression, and a comma makes a tuple. -/
theorem exists_parensForm {es : List Expr} {ks : List Kind}
    (h : ExprForm (.list es) ks) (p : Nat) :
    ∃ e, ExprForm (.expr p e) (.mark .lParen :: (ks ++ [.mark .rParen])) := by
  cases h with
  | nil => exact ⟨_, .unit p⟩
  | one item => exact ⟨_, .parens item⟩
  | cons item items =>
      rw [List.append_assoc, List.cons_append]
      exact ⟨_, .tuple item items⟩

/-- **What the grammar derives is written.** -/
theorem Derives.hasTree {s : Symbol} {ks : List Kind} (h : Derives s ks) :
    s.HasTree ks := by
  induction h with
  | file tops ih => exact ih
  | topNamespace h ih =>
      intro origin lines ts ks' hts
      obtain ⟨b, hb⟩ := ih hts
      exact ⟨_, hb⟩
  | topItem h ih =>
      intro origin lines ts ks' hts
      obtain ⟨i, hi⟩ := ih ⟨origin, ""⟩ lines
      exact ⟨_, .item lines hi hts⟩
  | namespaceBlock name items ihn ih =>
      intro origin lines ts ks' hts
      obtain ⟨first, parts, rfl⟩ := ihn
      obtain ⟨is, his⟩ := ih ⟨origin, joinPath first parts⟩
      have htops := TopsForm.block lines first parts his hts
      exact ⟨_, by simpa using htops⟩
  | opening space ih =>
      intro ctx doc
      obtain ⟨first, parts, rfl⟩ := ih
      exact ⟨_, .opening first parts⟩
  | openingAs space asName ih ih' =>
      intro ctx doc
      obtain ⟨first, parts, rfl⟩ := ih
      obtain ⟨first', parts', rfl⟩ := ih'
      exact ⟨_, .openingAs first parts first' parts'⟩
  | specialization variant target body ih ih' =>
      intro ctx doc
      obtain ⟨first, parts, rfl⟩ := ih
      obtain ⟨body, hbody⟩ := ih'
      exact ⟨_, .specialization variant first parts hbody⟩
  | newtype attributes name type ih ih' =>
      intro ctx doc
      obtain ⟨as, more, has⟩ := ih
      obtain ⟨t, ht⟩ := ih'
      exact ⟨_, .newtype has name ht⟩
  | callable attributes kind name params result body iha ihp iht ihb =>
      intro ctx doc
      obtain ⟨as, more, has⟩ := iha
      obtain ⟨ps, hps⟩ := ihp
      obtain ⟨t, ht⟩ := iht
      obtain ⟨body, hbody⟩ := ihb
      exact ⟨_, .callable has kind name hps ht hbody⟩
  | attributesNil => exact ⟨[], [], .nil⟩
  | attributesCons first lines others ih ih' =>
      obtain ⟨name, parts, argument, rfl⟩ := ih
      obtain ⟨as, doc, has⟩ := ih'
      have hattrs := AttrsForm.cons name parts argument lines has
      exact ⟨_, _, by simpa using hattrs⟩
  | attr name argument ih =>
      obtain ⟨first, parts, rfl⟩ := ih
      exact ⟨first, parts, argument, rfl⟩
  | param name type ih =>
      obtain ⟨t, ht⟩ := ih
      exact ⟨name, t, _, rfl, ht⟩
  | bodyBlock h ih =>
      obtain ⟨ss, hss⟩ := ih
      exact ⟨some ss, .body hss⟩
  | bodyHeader => exact ⟨none, .header⟩
  | path first parts => exact ⟨first, parts, rfl⟩
  | typePath h ih =>
      obtain ⟨first, parts, rfl⟩ := ih
      exact ⟨_, .path first parts⟩
  | typeParens items ih =>
      obtain ⟨ts, hts⟩ := ih
      exact ⟨_, .parens hts⟩
  | typeArray item ih =>
      obtain ⟨t, ht⟩ := ih
      exact ⟨_, .array ht⟩
  | block stmts ih =>
      obtain ⟨ss, hss⟩ := ih
      exact ⟨ss, .body hss⟩
  | binding h name value ih =>
      obtain ⟨e, he⟩ := ih
      simp only [List.mem_cons, List.not_mem_nil, or_false] at h
      rcases h with rfl | rfl | rfl
      · exact ⟨_, .bind name false he⟩
      · exact ⟨_, .bind name true he⟩
      · exact ⟨_, .assign name he⟩
  | ret => exact ⟨_, .ret⟩
  | retValue value ih =>
      obtain ⟨e, he⟩ := ih
      exact ⟨_, .retValue he⟩
  | loop name items body ih ih' =>
      obtain ⟨e, he⟩ := ih
      obtain ⟨ss, hss⟩ := ih'
      exact ⟨_, .loop name he hss⟩
  | stmtCond h ih =>
      obtain ⟨s, hs⟩ := ih
      exact ⟨s, .cond hs⟩
  | stmtExpr value ih =>
      obtain ⟨e, he⟩ := ih
      exact ⟨_, .expr he⟩
  | ifThen test body iht ihb =>
      obtain ⟨e, he⟩ := iht
      obtain ⟨ss, hss⟩ := ihb
      exact ⟨_, .ifThen he hss⟩
  | ifElse test body other iht ihb iho =>
      obtain ⟨e, he⟩ := iht
      obtain ⟨ss, hss⟩ := ihb
      obtain ⟨os, hos⟩ := iho
      exact ⟨_, .ifElse he hss hos⟩
  | elseIf test body other iht ihb iho =>
      obtain ⟨e, he⟩ := iht
      obtain ⟨ss, hss⟩ := ihb
      obtain ⟨o, ho⟩ := iho
      exact ⟨_, .elseIf he hss ho⟩
  | exprUnary h ih =>
      obtain ⟨e, he⟩ := ih
      exact ⟨e, he.weaken (Nat.zero_le _)⟩
  | exprBinary left op right ihl ihr =>
      obtain ⟨l, hl⟩ := ihl
      obtain ⟨r, hr⟩ := ihr
      exact hl.insert op (Nat.zero_le _) hr
  | unaryOp op operand ih =>
      obtain ⟨e, he⟩ := ih
      exact ⟨_, .unary op (Nat.le_refl _) he⟩
  | unarySuffixed h ih =>
      obtain ⟨e, he⟩ := ih
      exact ⟨e, he.weaken (by decide)⟩
  | suffixedPrimary h ih => exact ih
  | call callee args ih ih' =>
      obtain ⟨e, he⟩ := ih
      obtain ⟨es, hes⟩ := ih'
      exact ⟨_, .call he hes⟩
  | index target subscript ih ih' =>
      obtain ⟨e, he⟩ := ih
      obtain ⟨e', he'⟩ := ih'
      exact ⟨_, .index he he'⟩
  | literal value => exact ⟨_, .literal _ value⟩
  | primaryPath h ih =>
      obtain ⟨first, parts, rfl⟩ := ih
      exact ⟨_, .path _ first parts⟩
  | parens items ih =>
      obtain ⟨es, hes⟩ := ih
      exact exists_parensForm hes suffixPower
  | array items ih =>
      obtain ⟨es, hes⟩ := ih
      exact ⟨_, .array hes⟩
  | listNil => exact hasTree_listNil _
  | listOne item ih => exact hasTree_listOne ih
  | listCons item items ih ih' => exact hasTree_listCons ih ih'
  | runNil lines => exact hasTree_runNil _ lines
  | runCons lines first others ih ih' => exact hasTree_runCons lines ih ih'

end Exemplar
