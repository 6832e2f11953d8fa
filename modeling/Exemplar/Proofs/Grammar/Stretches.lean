import Exemplar.Proofs.Grammar.Blocks
import Exemplar.Proofs.Grammar.Takes

/-!
# Trees and the tokens they are made of

For each kind of tree the stretches of tokens it can stand for, spans included:
every node encloses its own stretch, from its first token to its last. The
relations follow the readers, as the written forms do. They differ from those in
that spans are those of the tokens, and in what a `Proviso` leaves open. Between
the statements of a body and between the items of a block stands documentation,
and if there may be faults then any tokens that were given up. And if there may
be no room for another fault, then bodies and blocks may lack their closing
brace.

The spans of what stands for a stretch nest in it (`ExprTokens.fills`,
`StmtTokens.fills`, `ItemTokens.fills`).
-/

namespace Exemplar

open Reading

/-! ## Expressions -/

/-- An expression, or expressions with commas between them. -/
inductive ExprPart where
  | one (e : Expr)
  | many (es : List Expr)

def ExprPart.layouts : ExprPart → List Layout
  | .one e => [e.layout]
  | .many es => Expr.layouts es

/-- The tokens of an expression, or of a list of expressions. -/
inductive ExprTokens : ExprPart → List Token → Prop where
  | literal {s : Span} {value} {t : Token}
      (kind : t.kind = .literal value) (span : s.Encloses [t]) :
      ExprTokens (.one (.literal s value)) [t]
  | path {s : Span} {first parts} {ts : List Token}
      (kinds : ts.map Token.kind = .ident first :: dottedKinds parts)
      (span : s.Encloses ts) :
      ExprTokens (.one (.path s (joinPath first parts))) ts
  | parens {s : Span} {e} {l r : Token} {ts : List Token}
      (left : l.kind = .mark .lParen) (inner : ExprTokens (.one e) ts)
      (right : r.kind = .mark .rParen) (span : s.Encloses ([l] ++ ts ++ [r])) :
      ExprTokens (.one (e.withSpan s)) ([l] ++ ts ++ [r])
  | unit {s : Span} {l r : Token}
      (left : l.kind = .mark .lParen) (right : r.kind = .mark .rParen)
      (span : s.Encloses ([l] ++ [r])) :
      ExprTokens (.one (.tuple s [])) ([l] ++ [r])
  | tuple {s : Span} {e es} {l m r : Token} {ts us : List Token}
      (left : l.kind = .mark .lParen) (first : ExprTokens (.one e) ts)
      (comma : m.kind = .mark .comma) (others : ExprTokens (.many es) us)
      (right : r.kind = .mark .rParen)
      (span : s.Encloses ([l] ++ ts ++ ([m] ++ us) ++ [r])) :
      ExprTokens (.one (.tuple s (e :: es))) ([l] ++ ts ++ ([m] ++ us) ++ [r])
  | array {s : Span} {es} {l r : Token} {ts : List Token}
      (left : l.kind = .mark .lBracket) (items : ExprTokens (.many es) ts)
      (right : r.kind = .mark .rBracket)
      (span : s.Encloses ([l] ++ ts ++ [r])) :
      ExprTokens (.one (.array s es)) ([l] ++ ts ++ [r])
  | call {s : Span} {e es} {l r : Token} {ts us : List Token}
      (callee : ExprTokens (.one e) ts) (left : l.kind = .mark .lParen)
      (args : ExprTokens (.many es) us) (right : r.kind = .mark .rParen)
      (span : s.Encloses (ts ++ [l] ++ us ++ [r])) :
      ExprTokens (.one (.call s e es)) (ts ++ [l] ++ us ++ [r])
  | index {s : Span} {e e'} {l r : Token} {ts us : List Token}
      (target : ExprTokens (.one e) ts) (left : l.kind = .mark .lBracket)
      (subscript : ExprTokens (.one e') us) (right : r.kind = .mark .rBracket)
      (span : s.Encloses (ts ++ [l] ++ us ++ [r])) :
      ExprTokens (.one (.index s e e')) (ts ++ [l] ++ us ++ [r])
  | unary {s : Span} {op e} {t : Token} {ts : List Token}
      (kind : t.kind = UnaryOp.kind op) (operand : ExprTokens (.one e) ts)
      (span : s.Encloses ([t] ++ ts)) :
      ExprTokens (.one (.unary s op e)) ([t] ++ ts)
  | binary {s : Span} {op e e'} {t : Token} {ts us : List Token}
      (left : ExprTokens (.one e) ts) (kind : t.kind = BinaryOp.kind op)
      (right : ExprTokens (.one e') us) (span : s.Encloses (ts ++ [t] ++ us)) :
      ExprTokens (.one (.binary s op e e')) (ts ++ [t] ++ us)
  | nil : ExprTokens (.many []) []
  | single {e} {ts : List Token} (item : ExprTokens (.one e) ts) :
      ExprTokens (.many [e]) ts
  | cons {e es} {m : Token} {ts us : List Token}
      (item : ExprTokens (.one e) ts) (comma : m.kind = .mark .comma)
      (items : ExprTokens (.many es) us) :
      ExprTokens (.many (e :: es)) (ts ++ [m] ++ us)

/-- An expression encloses its tokens. -/
theorem ExprTokens.encloses {e : Expr} {ts : List Token}
    (h : ExprTokens (.one e) ts) :
    e.span.Encloses ts := by
  cases h with
  | parens _ _ _ span =>
      rw [Expr.span_withSpan]
      exact span
  | literal _ span | path _ span | unit _ _ span | tuple _ _ _ _ _ span
  | array _ _ _ span | call _ _ _ _ span | index _ _ _ _ span
  | unary _ _ span | binary _ _ _ span => exact span

theorem ExprTokens.fills {φ : ExprPart} {ts : List Token}
    (h : ExprTokens φ ts) :
    Fills ts φ.layouts := by
  induction h with
  | literal _ span => exact .leaf span
  | path _ span => exact .leaf span
  | @parens s e l r ts _ _ _ span ih =>
      rw [ExprPart.layouts, Expr.layout_withSpan]
      exact .node span ((ih.parts.after [l]).before [r])
  | unit _ _ span => exact .leaf span
  | @tuple s e es l m r ts us _ _ _ _ _ span first others =>
      exact .node span
        (((first.after [l]).append (others.after [m])).before [r])
  | @array s es l r ts _ _ _ span items =>
      exact .node span ((items.after [l]).before [r])
  | @call s e es l r ts us _ _ _ _ span callee args =>
      exact .node span (((callee.before [l]).append args).before [r])
  | @index s e e' l r ts us _ _ _ _ span target subscript =>
      exact .node span (((target.before [l]).append subscript).before [r])
  | @unary s op e t ts _ _ span operand => exact .node span (operand.after [t])
  | @binary s op e e' t ts us _ _ _ span left right =>
      exact .node span ((left.before [t]).append right)
  | nil => exact .gap []
  | single _ item => exact item
  | @cons e es m ts us _ _ _ item items => exact (item.before [m]).append items

/-! ## Statements -/

def IsDocs (ts : List Token) : Prop :=
  ∃ lines, ts.map Token.kind = docKinds lines

namespace Proviso

variable {p : Proviso} {ts : List Token}

/-- Tokens that belong to no tree. -/
def Gap (p : Proviso) (ts : List Token) : Prop := p = .clean → IsDocs ts

/-- The token that closes a body, if it is closed. -/
def Closes (p : Proviso) (ts : List Token) : Prop :=
  (∃ r : Token, ts = [r] ∧ r.kind = .mark .rBrace) ∨ p = .any ∧ ts = []

theorem gap_nil (p : Proviso) : p.Gap [] := fun _ => ⟨[], rfl⟩

/-- Where there may be faults, tokens may be given up. -/
theorem gap_of_ne (h : p ≠ .clean) (ts : List Token) : p.Gap ts :=
  fun hp => absurd hp h

end Proviso

/-- A statement, a conditional, a body in braces, or what stands in one. -/
inductive StmtPart where
  | stmt (s : Stmt)
  | cond (s : Stmt)
  | body (ss : List Stmt)
  | stmts (ss : List Stmt)

def StmtPart.layouts : StmtPart → List Layout
  | .stmt s | .cond s => [s.layout]
  | .body ss | .stmts ss => Stmt.layouts ss

/-- The tokens of what binds or assigns a name, behind its keyword. -/
inductive BindingTokens (name : String) (e : Expr) : List Token → Prop where
  | intro {t q m : Token} {ts : List Token}
      (target : t.kind = .ident name) (eq : q.kind = .mark .eq)
      (value : ExprTokens (.one e) ts) (semi : m.kind = .mark .semi) :
      BindingTokens name e ([t] ++ [q] ++ ts ++ [m])

inductive StmtTokens (p : Proviso) : StmtPart → List Token → Prop where
  | expr {s : Span} {e} {m : Token} {ts : List Token}
      (value : ExprTokens (.one e) ts) (semi : m.kind = .mark .semi)
      (span : s.Encloses (ts ++ [m])) :
      StmtTokens p (.stmt (.expr s e)) (ts ++ [m])
  | bind {s : Span} {name isMutable e} {k : Token} {ts : List Token}
      (head : k.kind = .keyword (bindingKeyword isMutable))
      (binding : BindingTokens name e ts) (span : s.Encloses ([k] ++ ts)) :
      StmtTokens p (.stmt (.bind s name isMutable e)) ([k] ++ ts)
  | assign {s : Span} {name e} {k : Token} {ts : List Token}
      (head : k.kind = .keyword .set) (binding : BindingTokens name e ts)
      (span : s.Encloses ([k] ++ ts)) :
      StmtTokens p (.stmt (.assign s name e)) ([k] ++ ts)
  | ret {s : Span} {k m : Token}
      (head : k.kind = .keyword .return) (semi : m.kind = .mark .semi)
      (span : s.Encloses ([k] ++ [m])) :
      StmtTokens p (.stmt (.ret s none)) ([k] ++ [m])
  | retValue {s : Span} {e} {k m : Token} {ts : List Token}
      (head : k.kind = .keyword .return) (value : ExprTokens (.one e) ts)
      (semi : m.kind = .mark .semi) (span : s.Encloses ([k] ++ ts ++ [m])) :
      StmtTokens p (.stmt (.ret s (some e))) ([k] ++ ts ++ [m])
  | loop {s : Span} {name e ss} {k t i : Token} {ts us : List Token}
      (head : k.kind = .keyword .for) (target : t.kind = .ident name)
      (word : i.kind = .keyword .in) (items : ExprTokens (.one e) ts)
      (body : StmtTokens p (.body ss) us)
      (span : s.Encloses ([k] ++ [t] ++ [i] ++ ts ++ us)) :
      StmtTokens p (.stmt (.loop s name e ss)) ([k] ++ [t] ++ [i] ++ ts ++ us)
  | cond {s} {ts : List Token} (h : StmtTokens p (.cond s) ts) :
      StmtTokens p (.stmt s) ts
  | ifThen {s : Span} {e ss} {k : Token} {ts us : List Token}
      (head : k.kind = .keyword .if) (test : ExprTokens (.one e) ts)
      (body : StmtTokens p (.body ss) us)
      (span : s.Encloses ([k] ++ ts ++ us)) :
      StmtTokens p (.cond (.ifThen s e ss)) ([k] ++ ts ++ us)
  | ifElse {s : Span} {e ss os} {k x : Token} {ts us vs : List Token}
      (head : k.kind = .keyword .if) (test : ExprTokens (.one e) ts)
      (body : StmtTokens p (.body ss) us) (word : x.kind = .keyword .else)
      (other : StmtTokens p (.body os) vs)
      (span : s.Encloses ([k] ++ ts ++ us ++ [x] ++ vs)) :
      StmtTokens p (.cond (.ifElse s e ss os)) ([k] ++ ts ++ us ++ [x] ++ vs)
  | elseIf {s : Span} {e ss o} {k x : Token} {ts us vs : List Token}
      (head : k.kind = .keyword .if) (test : ExprTokens (.one e) ts)
      (body : StmtTokens p (.body ss) us) (word : x.kind = .keyword .else)
      (other : StmtTokens p (.cond o) vs)
      (span : s.Encloses ([k] ++ ts ++ us ++ [x] ++ vs)) :
      StmtTokens p (.cond (.ifElse s e ss [o])) ([k] ++ ts ++ us ++ [x] ++ vs)
  | body {ss} {l : Token} {ts us : List Token}
      (left : l.kind = .mark .lBrace) (stmts : StmtTokens p (.stmts ss) ts)
      (right : p.Closes us) : StmtTokens p (.body ss) ([l] ++ ts ++ us)
  | nil {gap : List Token} (hgap : p.Gap gap) : StmtTokens p (.stmts []) gap
  | cons {s ss} {gap ts us : List Token}
      (hgap : p.Gap gap) (stmt : StmtTokens p (.stmt s) ts)
      (stmts : StmtTokens p (.stmts ss) us) :
      StmtTokens p (.stmts (s :: ss)) (gap ++ ts ++ us)

theorem BindingTokens.fills {name : String} {e : Expr} {ts : List Token}
    (h : BindingTokens name e ts) : Fills ts [e.layout] := by
  obtain @⟨t, q, m, ts, -, -, value, -⟩ := h
  exact (value.fills.after ([t] ++ [q])).before [m]

theorem StmtTokens.fills {p : Proviso} {φ : StmtPart} {ts : List Token}
    (h : StmtTokens p φ ts) :
    Fills ts φ.layouts := by
  induction h with
  | @expr s e m ts value _ span => exact .node span (value.fills.before [m])
  | @bind s name isMutable e k ts _ binding span =>
      exact .node span (binding.fills.after [k])
  | @assign s name e k ts _ binding span =>
      exact .node span (binding.fills.after [k])
  | ret _ _ span => exact .leaf span
  | @retValue s e k m ts _ value _ span =>
      exact .node span ((value.fills.after [k]).before [m])
  | @loop s name e ss k t i ts us _ _ _ items _ span body =>
      exact .node span ((items.fills.after ([k] ++ [t] ++ [i])).append body)
  | cond _ ih => exact ih
  | @ifThen s e ss k ts us _ test _ span body =>
      exact .node span ((test.fills.after [k]).append body)
  | @ifElse s e ss os k x ts us vs _ test _ _ _ span body other =>
      exact .node span
        ((((test.fills.after [k]).append body).before [x]).append other)
  | @elseIf s e ss o k x ts us vs _ test _ _ _ span body other =>
      exact .node span
        ((((test.fills.after [k]).append body).before [x]).append other)
  | @body ss l ts us _ _ _ stmts => exact (stmts.after [l]).before us
  | nil _ => exact .gap _
  | cons _ _ _ stmt stmts => exact (stmt.after _).append stmts

/-- A conditional encloses its tokens, -/
theorem StmtTokens.encloses_cond {p : Proviso} {s : Stmt} {ts : List Token}
    (h : StmtTokens p (.cond s) ts) : s.span.Encloses ts := by
  cases h with
  | ifThen _ _ _ span | ifElse _ _ _ _ _ span | elseIf _ _ _ _ _ span =>
      exact span

/-- and so does every statement. -/
theorem StmtTokens.encloses {p : Proviso} {s : Stmt} {ts : List Token}
    (h : StmtTokens p (.stmt s) ts) : s.span.Encloses ts := by
  cases h with
  | cond h => exact h.encloses_cond
  | expr _ _ span | bind _ _ span | assign _ _ span | ret _ _ span
  | retValue _ _ _ span
  | loop _ _ _ _ _ span => exact span

/-- Where there may be faults, statements may stand behind what was given up. -/
theorem StmtTokens.prepend {p : Proviso} {ss : List Stmt} {ts : List Token}
    (hp : p ≠ .clean) (h : StmtTokens p (.stmts ss) ts) (gap : List Token) :
    StmtTokens p (.stmts ss) (gap ++ ts) := by
  cases h with
  | nil _ => exact .nil (p.gap_of_ne hp _)
  | cons _ stmt stmts =>
      rw [← List.append_assoc, ← List.append_assoc]
      exact .cons (p.gap_of_ne hp _) stmt stmts

/-! ## Items -/

/-- Things stand one behind the other in a stretch, each for a part of it. -/
inductive Scattered {α : Type} (p : Proviso) (P : α → List Token → Prop) :
    List α → List Token → Prop where
  | nil {gap : List Token} (hgap : p.Gap gap) : Scattered p P [] gap
  | cons {a as} {gap ts us : List Token} (hgap : p.Gap gap) (head : P a ts)
      (tail : Scattered p P as us) : Scattered p P (a :: as) (gap ++ ts ++ us)

namespace Scattered

variable {α β : Type} {p : Proviso} {P : α → List Token → Prop} {as : List α}
  {ts : List Token}

/-- Where there may be faults, more may be given up in front. -/
theorem prepend (hp : p ≠ .clean) (h : Scattered p P as ts) (gap : List Token) :
    Scattered p P as (gap ++ ts) := by
  cases h with
  | nil _ => exact .nil (p.gap_of_ne hp _)
  | cons _ head tail =>
      rw [← List.append_assoc, ← List.append_assoc]
      exact .cons (p.gap_of_ne hp _) head tail

/-- Some of them are left out, and their tokens with them. -/
theorem filterMap (hp : p ≠ .clean) {f : α → Option β}
    {Q : β → List Token → Prop} (h : Scattered p P as ts)
    (hf : ∀ a ts, P a ts → ∀ b ∈ f a, Q b ts) :
    Scattered p Q (as.filterMap f) ts := by
  induction h with
  | nil hgap => exact .nil hgap
  | @cons a as gap ts us hgap head tail ih =>
      cases hfa : f a with
      | none =>
          rw [List.filterMap_cons_none hfa]
          exact ih.prepend hp _
      | some b =>
          rw [List.filterMap_cons_some hfa]
          exact .cons hgap (hf a ts head b hfa) ih

/-- Each stands for an unbroken stretch of the tokens. -/
theorem exists_of_mem (h : Scattered p P as ts) {a : α} (ha : a ∈ as) :
    ∃ us, us <:+: ts ∧ P a us := by
  induction h with
  | nil => cases ha
  | @cons a' as gap ts us _ head _ ih =>
      rcases List.mem_cons.mp ha with rfl | ha
      · exact ⟨ts, List.infix_append gap ts us, head⟩
      · obtain ⟨vs, hvs, hP⟩ := ih ha
        exact ⟨vs, hvs.trans (List.suffix_append (gap ++ ts) us).isInfix, hP⟩

theorem fills {f : α → List Layout} (h : Scattered p P as ts)
    (hf : ∀ a ts, P a ts → Fills ts (f a)) : Fills ts (as.flatMap f) := by
  induction h with
  | nil _ => exact .gap _
  | cons _ head _ ih =>
      rw [List.flatMap_cons]
      exact ((hf _ _ head).after _).append ih

end Scattered

def IsPath (name : String) (ts : List Token) : Prop :=
  ∃ first parts, name = joinPath first parts
    ∧ ts.map Token.kind = .ident first :: dottedKinds parts

def IsType (type : TypeExpr) (ts : List Token) : Prop :=
  TypeForm (.type type) (ts.map Token.kind)

inductive ParamTokens (p : Param) : List Token → Prop where
  | intro {t c : Token} {ts : List Token}
      (target : t.kind = .ident p.name) (colon : c.kind = .mark .colon)
      (type : IsType p.type ts) (span : p.span.Encloses ([t] ++ [c] ++ ts)) :
      ParamTokens p ([t] ++ [c] ++ ts)

/-- The tokens of parameters, with commas between them. -/
inductive ParamsTokens : List Param → List Token → Prop where
  | nil : ParamsTokens [] []
  | single {p} {ts : List Token} (param : ParamTokens p ts) :
      ParamsTokens [p] ts
  | cons {p ps} {m : Token} {ts us : List Token}
      (param : ParamTokens p ts) (comma : m.kind = .mark .comma)
      (params : ParamsTokens ps us) :
      ParamsTokens (p :: ps) (ts ++ [m] ++ us)

/-- The tokens of a body, or the semicolon in its place. -/
inductive BodyTokens (p : Proviso) : Option (List Stmt) → List Token →
      Prop where
  | header {m : Token} (semi : m.kind = .mark .semi) : BodyTokens p none [m]
  | body {ss} {ts : List Token} (h : StmtTokens p (.body ss) ts) :
      BodyTokens p (some ss) ts

/-- The tokens of a declaration, from its keyword on. -/
inductive DeclTokens (p : Proviso) : Declaration → List Token → Prop where
  | newtype {s : Span} {name doc origin type attributes} {k t q m : Token}
      {ts : List Token} (head : k.kind = .keyword .newtype)
      (target : t.kind = .ident name.name) (eq : q.kind = .mark .eq)
      (underlying : IsType type ts) (semi : m.kind = .mark .semi)
      (span : s.Encloses ([k] ++ [t] ++ [q] ++ ts ++ [m])) :
      DeclTokens p ⟨name, doc, origin, s, .newtype type attributes⟩
        ([k] ++ [t] ++ [q] ++ ts ++ [m])
  | callable {s : Span} {name doc origin c} {k t l r n : Token}
      {ts us vs : List Token} (head : k.kind = .keyword c.kind.keyword)
      (target : t.kind = .ident name.name) (left : l.kind = .mark .lParen)
      (params : ParamsTokens c.params ts) (right : r.kind = .mark .rParen)
      (colon : n.kind = .mark .colon) (result : IsType c.result us)
      (body : BodyTokens p c.body vs)
      (span : s.Encloses ([k] ++ [t] ++ [l] ++ ts ++ [r] ++ [n] ++ us ++ vs)) :
      DeclTokens p ⟨name, doc, origin, s, .callable c⟩
        ([k] ++ [t] ++ [l] ++ ts ++ [r] ++ [n] ++ us ++ vs)
  | specialization {s : Span} {space doc origin variant b target} {k : Token}
      {ts us : List Token} (head : k.kind = .keyword (Variant.keyword variant))
      (parent : IsPath target ts) (body : BodyTokens p b us)
      (span : s.Encloses ([k] ++ ts ++ us)) :
      DeclTokens p ⟨parentOf space target, doc, origin, s,
        .specialization variant b⟩ ([k] ++ ts ++ us)

inductive AttrTokens (a : Attribute) : List Token → Prop where
  | intro {name} {l m r : Token} {ts us : List Token}
      (named : a.name = .ofPath name) (sign : l.kind = .mark .at)
      (path : IsPath name ts) (left : m.kind = .mark .lParen)
      (argument : us.map Token.kind = argumentKinds a.argument)
      (right : r.kind = .mark .rParen)
      (span : a.span.Encloses ([l] ++ ts ++ [m] ++ us ++ [r])) :
      AttrTokens a ([l] ++ ts ++ [m] ++ us ++ [r])

/-- The tokens of attributes, with documentation after each. -/
inductive AttrsTokens : List Attribute → List Token → Prop where
  | nil : AttrsTokens [] []
  | cons {a as} {ts us vs : List Token} (first : AttrTokens a ts)
      (lines : IsDocs us) (others : AttrsTokens as vs) :
      AttrsTokens (a :: as) (ts ++ us ++ vs)

/-- The tokens of the other name in an `open` directive. -/
inductive AsTokens : Option String → List Token → Prop where
  | none : AsTokens none []
  | some {name} {t : Token} {ts : List Token}
      (word : t.kind = .keyword .as) (path : IsPath name ts) :
      AsTokens (some name) ([t] ++ ts)

/-- The tokens of an item: those of a declaration behind those of its
attributes, or those of an `open` directive. -/
inductive ItemTokens (p : Proviso) : Item → List Token → Prop where
  | opening {o} {k m : Token} {ts us : List Token}
      (head : k.kind = .keyword .open) (space : IsPath o.space ts)
      (asName : AsTokens o.asName us) (semi : m.kind = .mark .semi)
      (span : o.span.Encloses ([k] ++ ts ++ us ++ [m])) :
      ItemTokens p (.opening o) ([k] ++ ts ++ us ++ [m])
  | decl {d} {ts us : List Token}
      (attributes : AttrsTokens d.attributes ts) (decl : DeclTokens p d us) :
      ItemTokens p (.decl d) (ts ++ us)

structure Block.HasItems (b : Block) (is : List Item) : Prop where
  opens : b.opens = is.filterMap Item.opening?
  decls : b.decls = is.filterMap Item.decl?

/-- The tokens of a namespace block. One that breaks off has no brace in the
end, and no span. -/
inductive BlockTokens (p : Proviso) (b : Block) : List Token → Prop where
  | closed {is} {k l r : Token} {ts us : List Token}
      (head : k.kind = .keyword .namespace) (path : IsPath b.name ts)
      (left : l.kind = .mark .lBrace) (has : b.HasItems is)
      (items : Scattered p (ItemTokens p) is us)
      (right : r.kind = .mark .rBrace)
      (span : b.span.Encloses ([k] ++ ts ++ [l] ++ us ++ [r])) :
      BlockTokens p b ([k] ++ ts ++ [l] ++ us ++ [r])
  | spent {is} {k l : Token} {ts us : List Token} (hp : p = .any)
      (head : k.kind = .keyword .namespace) (path : IsPath b.name ts)
      (left : l.kind = .mark .lBrace) (has : b.HasItems is)
      (items : Scattered p (ItemTokens p) is us) :
      BlockTokens p b ([k] ++ ts ++ [l] ++ us)

inductive TopTokens (p : Proviso) : Top → List Token → Prop where
  | item {i} {ts : List Token} (h : ItemTokens p i ts) :
      TopTokens p (.item i) ts
  | block {b} {ts : List Token} (h : BlockTokens p b ts) :
      TopTokens p (.block b) ts

/-! ### Spans -/

/-- The layouts of an item: attributes stand in front of their declaration. -/
def Reading.Item.layouts : Item → List Layout
  | .opening o => [.leaf o.span]
  | .decl d => d.attributes.map (fun a => .leaf a.span) ++ [d.layout]

theorem AttrTokens.fills {a : Attribute} {ts : List Token}
    (h : AttrTokens a ts) :
    Fills ts [.leaf a.span] := by
  obtain ⟨-, -, -, -, -, -, span⟩ := h
  exact .leaf span

theorem AttrsTokens.fills {as : List Attribute} {ts : List Token}
    (h : AttrsTokens as ts) :
    Fills ts (as.map fun a => .leaf a.span) := by
  induction h with
  | nil => exact .gap []
  | @cons a as ts us vs first _ _ ih => exact (first.fills.before us).append ih

theorem ParamTokens.fills {p : Param} {ts : List Token} (h : ParamTokens p ts) :
    Fills ts [.leaf p.span] := by
  obtain ⟨-, -, -, span⟩ := h
  exact .leaf span

theorem ParamsTokens.fills {ps : List Param} {ts : List Token}
    (h : ParamsTokens ps ts) :
    Fills ts (ps.map fun p => .leaf p.span) := by
  induction h with
  | nil => exact .gap []
  | single param => exact param.fills
  | @cons p ps m ts us param _ _ ih => exact (param.fills.before [m]).append ih

section

variable {p : Proviso} {ts : List Token}

theorem BodyTokens.fills {body : Option (List Stmt)}
    (h : BodyTokens p body ts) :
    Fills ts (bodyLayouts body) := by
  cases h with
  | header semi => exact .gap _
  | body h => exact h.fills

/-- A declaration encloses its tokens. -/
theorem DeclTokens.encloses {d : Declaration} (h : DeclTokens p d ts) :
    d.span.Encloses ts := by
  cases h with
  | newtype _ _ _ _ _ span | callable _ _ _ _ _ _ _ _ span
        | specialization _ _ _ span =>
      exact span

theorem DeclTokens.fills {d : Declaration} (h : DeclTokens p d ts) :
    Fills ts [d.layout] := by
  refine .node h.encloses ?_
  cases h with
  | newtype => exact .gap _
  | @callable _ _ _ _ c k t l r n ts us vs _ _ _ params _ _ _ body =>
      exact ((params.fills.after ([k] ++ [t] ++ [l])).before [r] |>.before
        [n] |>.before us).append body.fills
  | specialization _ _ body => exact body.fills.after _

theorem ItemTokens.ne_nil {i : Item} (h : ItemTokens p i ts) : ts ≠ [] := by
  cases h with
  | opening _ _ _ _ span => exact span.ne_nil
  | decl _ decl =>
      exact List.append_ne_nil_of_right_ne_nil _ decl.encloses.ne_nil

theorem ItemTokens.fills {i : Item} (h : ItemTokens p i ts) :
    Fills ts i.layouts := by
  cases h with
  | opening _ _ _ _ span => exact .leaf span
  | decl attributes decl => exact attributes.fills.append decl.fills

theorem TopTokens.ne_nil {top : Top} (h : TopTokens p top ts) : ts ≠ [] := by
  cases h with
  | item h => exact h.ne_nil
  | block h => cases h <;> simp

end

end Exemplar
