import Exemplar.Grammar.Exprs
import Exemplar.Proofs.Grammar.Reader
import Exemplar.Proofs.Tree.Bare

/-!
# Expressions are read as written

`ExprForm` relates an expression to the texts it can be written as, at a
*level*: an expression written at level `p` can stand where operators that
bind at least as tightly as `p` are read. Parentheses lift any expression to
any level, so the relation leaves open how many there are; a binary operator
needs its left operand at its own level and its right operand one above.

Whatever is so written is read as that expression, up to spans
(`reads_expr`). As with types, the text of an operand ends before its
reading does, and the induction says that reading an expression amounts to
going on after it with `operatorsWithin` (`ExprPhrase.Continues`).
-/

namespace Exemplar

open Reading

def BinaryOp.kind : BinaryOp → Kind
  | .or => .keyword .or
  | .and => .keyword .and
  | .eq => .mark .eqEq
  | .ne => .mark .bangEq
  | .lt => .mark .lt
  | .le => .mark .ltEq
  | .gt => .mark .gt
  | .ge => .mark .gtEq
  | .add => .mark .plus
  | .sub => .mark .minus
  | .mul => .mark .star
  | .div => .mark .slash
  | .mod => .mark .percent

def UnaryOp.kind : UnaryOp → Kind
  | .neg => .mark .minus
  | .not => .keyword .not

/-- How tightly calls and subscripts bind: above all operators. -/
def suffixPower : Nat := 15

theorem BinaryOp.ofKind?_kind (op : BinaryOp) : ofKind? op.kind = some op := by
  cases op <;> rfl

theorem BinaryOp.power_lt (op : BinaryOp) : op.power < 12 := by
  cases op <;> decide

/-! ## Written forms -/

/-- An expression at a level, or expressions with commas between them. -/
inductive ExprPhrase where
  | expr (level : Nat) (e : Expr)
  | list (es : List Expr)

inductive ExprForm : ExprPhrase → List Kind → Prop where
  | literal (p : Nat) (value : Literal) :
      ExprForm (.expr p (.literal .nowhere value)) [.literal value]
  | path (p : Nat) (first : String) (parts : List String) :
      ExprForm (.expr p (.path .nowhere (joinPath first parts)))
        (.ident first :: dottedKinds parts)
  | parens {p e ks} (inner : ExprForm (.expr 0 e) ks) :
      ExprForm (.expr p e) (.mark .lParen :: (ks ++ [.mark .rParen]))
  | unit (p : Nat) :
      ExprForm (.expr p (.tuple .nowhere [])) [.mark .lParen, .mark .rParen]
  | tuple {p e es ks ks'} (first : ExprForm (.expr 0 e) ks)
      (others : ExprForm (.list es) ks') :
      ExprForm (.expr p (.tuple .nowhere (e :: es)))
        (.mark .lParen :: (ks ++ .mark .comma :: (ks' ++ [.mark .rParen])))
  | array {p es ks} (items : ExprForm (.list es) ks) :
      ExprForm (.expr p (.array .nowhere es))
        (.mark .lBracket :: (ks ++ [.mark .rBracket]))
  | call {p e es ks ks'} (callee : ExprForm (.expr suffixPower e) ks)
      (args : ExprForm (.list es) ks') :
      ExprForm (.expr p (.call .nowhere e es))
        (ks ++ .mark .lParen :: (ks' ++ [.mark .rParen]))
  | index {p e e' ks ks'} (target : ExprForm (.expr suffixPower e) ks)
      (subscript : ExprForm (.expr 0 e') ks') :
      ExprForm (.expr p (.index .nowhere e e'))
        (ks ++ .mark .lBracket :: (ks' ++ [.mark .rBracket]))
  | unary {p e ks} (op : UnaryOp) (level : p ≤ UnaryOp.power)
      (operand : ExprForm (.expr UnaryOp.power e) ks) :
      ExprForm (.expr p (.unary .nowhere op e)) (op.kind :: ks)
  | binary {p l r ks ks'} (op : BinaryOp) (level : p ≤ op.power)
      (left : ExprForm (.expr op.power l) ks)
      (right : ExprForm (.expr (op.power + 1) r) ks') :
      ExprForm (.expr p (.binary .nowhere op l r)) (ks ++ op.kind :: ks')
  | nil : ExprForm (.list []) []
  | one {e ks} (item : ExprForm (.expr 0 e) ks) : ExprForm (.list [e]) ks
  | cons {e es ks ks'} (item : ExprForm (.expr 0 e) ks)
      (items : ExprForm (.list es) ks') :
      ExprForm (.list (e :: es)) (ks ++ .mark .comma :: ks')

def startsExpr : Kind → Bool
  | .literal _ | .ident _ | .mark .lParen | .mark .lBracket | .mark .minus
  | .keyword .not => true
  | _ => false

theorem ExprForm.starts {p : Nat} {e : Expr} {ks : List Kind}
    (h : ExprForm (.expr p e) ks) :
    ∃ k ks', ks = k :: ks' ∧ startsExpr k = true := by
  generalize hphrase : ExprPhrase.expr p e = phrase at h
  induction h generalizing p e with
  | call _ _ ih _ | index _ _ ih _ | binary _ _ _ _ ih _ =>
      obtain ⟨k, ks', rfl, hk⟩ := ih rfl
      exact ⟨k, _, rfl, hk⟩
  | unary op => exact ⟨_, _, rfl, by cases op <;> rfl⟩
  | literal | path | parens | unit | tuple | array => exact ⟨_, _, rfl, rfl⟩
  | nil | one | cons => cases hphrase

/-! ## Where expressions end -/

/-- Nothing that continues an expression is ahead, when operators that bind at
least as tightly as `least` are read. -/
structure Stops (least : Nat) (rest : List Kind) : Prop where
  dot : rest.headD .eof ≠ .mark .dot
  operator : ∀ op, BinaryOp.ofKind? (rest.headD .eof) = some op →
    op.power < least
  suffix : least ≤ suffixPower →
    rest.headD .eof ≠ .mark .lParen ∧ rest.headD .eof ≠ .mark .lBracket

theorem Stops.mono {p q : Nat} {rest : List Kind} (h : Stops p rest)
    (hpq : p ≤ q) :
    Stops q rest :=
  ⟨h.dot, fun op hop => Nat.lt_of_lt_of_le (h.operator op hop) hpq,
    fun hq => h.suffix (Nat.le_trans hpq hq)⟩

/-- Above all binary operators, levels differ in nothing but suffixes. -/
theorem Stops.above {p q : Nat} {rest : List Kind} (h : Stops p rest)
    (hp : p ≤ suffixPower) (hq : 12 ≤ q) : Stops q rest :=
  ⟨h.dot, fun op _ => Nat.lt_of_lt_of_le op.power_lt hq, fun _ => h.suffix hp⟩

/-- The marks that end every expression. -/
theorem stops_mark (least : Nat) {sign : Mark}
    (h : sign ∈ [Mark.rParen, .rBracket, .comma, .semi, .lBrace])
    (rest : List Kind) :
    Stops least (.mark sign :: rest) := by
  simp only [List.mem_cons, List.not_mem_nil, or_false] at h
  rcases h with rfl | rfl | rfl | rfl | rfl <;>
    exact ⟨by simp, by simp [BinaryOp.ofKind?], by simp⟩

theorem stops_operator (op : BinaryOp) (rest : List Kind) :
    Stops (op.power + 1) (op.kind :: rest) := by
  refine ⟨by cases op <;> simp [BinaryOp.kind], fun op' hop' => ?_,
    fun _ => by cases op <;> simp [BinaryOp.kind]⟩
  rw [List.headD_cons, BinaryOp.ofKind?_kind] at hop'
  obtain rfl := Option.some.inj hop'
  exact Nat.lt_succ_self _

theorem stops_suffix {sign : Mark} (h : sign = .lParen ∨ sign = .lBracket)
    (rest : List Kind) :
    Stops (suffixPower + 1) (.mark sign :: rest) := by
  rcases h with rfl | rfl <;>
    exact ⟨by simp, by simp [BinaryOp.ofKind?],
      fun h => absurd h (Nat.not_succ_le_self _)⟩

/-! ## Reading -/

/-- Reading the phrase amounts to going on after it: with the operators that
follow an expression, or at the mark that closes a list. A list is also read
by what reads the items of a tuple after its first. -/
def ExprPhrase.Continues (ks : List Kind) : ExprPhrase → Prop
  | .expr p e => ∀ {n least : Nat} {rest final : List Kind} {Q : Expr → Prop},
      4 * (ks ++ rest).length + 4 ≤ n → least ≤ p → least ≤ suffixPower →
      Stops (p + 1) rest →
        (∀ m start e', e'.bare = e → 4 * rest.length + 2 ≤ m →
          Reads (operatorsWithin m least start e') rest final Q) →
          Reads (exprWithin n least) (ks ++ rest) final Q
  | .list es =>
      (∀ {n : Nat} {close : Mark} {rest : List Kind},
        4 * (ks ++ .mark close :: rest).length + 5 ≤ n → close = .rParen
          ∨ close = .rBracket →
          Reads (exprsWithin n close) (ks ++ .mark close :: rest)
            (.mark close :: rest)
            fun v => v.map Expr.bare = es)
      ∧ ∀ {n : Nat} {rest : List Kind},
        4 * (ks ++ .mark .rParen :: rest).length + 5 ≤ n →
          Reads (tupleRestWithin n)
            (.mark .comma :: (ks ++ .mark .rParen :: rest))
              (.mark .rParen :: rest) fun v => v.map Expr.bare = es

/-- Operators are read until something else is ahead. -/
theorem reads_operatorsWithin {least m : Nat} {rest : List Kind}
    (hleast : least ≤ suffixPower) (hrest : Stops least rest) (hm : 0 < m)
    (start : Nat) (e : Expr) :
    Reads (operatorsWithin m least start e) rest rest fun v => v = e := by
  cases m with
  | zero => omega
  | succ m =>
      cases rest with
      | nil => exact .peek_bind_nil (.pure rfl)
      | cons k rest =>
          refine .peek_bind ?_
          split
          · exact absurd rfl (hrest.suffix hleast).1
          · exact absurd rfl (hrest.suffix hleast).2
          · split
            · next op hop =>
                rw [if_pos (hrest.operator op hop)]
                exact .pure rfl
            · exact .pure rfl

/-- What has been read up to a place where it stops. -/
theorem ExprPhrase.Continues.reads {ks rest : List Kind} {p least n : Nat}
    {e : Expr} (h : ExprPhrase.Continues ks (.expr p e))
    (hn : 4 * (ks ++ rest).length + 4 ≤ n) (hp : least ≤ p)
    (hleast : least ≤ suffixPower) (hnext : Stops (p + 1) rest)
    (hrest : Stops least rest) :
    Reads (exprWithin n least) (ks ++ rest) rest fun v => v.bare = e :=
  h hn hp hleast hnext fun m start e' he' hm =>
    (reads_operatorsWithin hleast hrest (by omega) start e').mono fun v hv => by
      rw [hv, he']

/-- An expression of its own, as in lists and between parentheses. -/
theorem ExprPhrase.Continues.reads_whole {ks rest : List Kind} {n : Nat}
    {e : Expr} (h : ExprPhrase.Continues ks (.expr 0 e))
    (hn : 4 * (ks ++ rest).length + 4 ≤ n) (hrest : Stops 0 rest) :
    Reads (exprWithin n 0) (ks ++ rest) rest fun v => v.bare = e :=
  h.reads hn (Nat.le_refl _) (Nat.zero_le _) (hrest.mono (Nat.zero_le _)) hrest

/-- Something read as an operand is an expression. -/
theorem continues_of_operand {ks : List Kind} {p : Nat} {e : Expr}
    (hne : ks ≠ [])
    (h : ∀ {n : Nat} {rest : List Kind}, 4 * (ks ++ rest).length + 3 ≤ n →
      Stops (p + 1) rest →
      Reads (operandWithin n) (ks ++ rest) rest fun v => v.bare = e) :
    ExprPhrase.Continues ks (.expr p e) := by
  intro n least rest final Q hn _ _ hrest hgo
  have hpos : 0 < ks.length := List.length_pos_iff.mpr hne
  rw [List.length_append] at hn
  cases n with
  | zero => omega
  | succ n =>
      refine .offset_bind fun start => .bind (h ?_ hrest) fun v hv =>
        hgo n start v hv ?_
      · rw [List.length_append]
        omega
      · omega

/-- The first token of an expression closes nothing. -/
theorem ne_of_startsExpr {k : Kind} (hk : startsExpr k = true) {sign : Mark}
    (hsign : sign = .rParen ∨ sign = .rBracket ∨ sign = .semi ∨ sign = .comma) :
    k ≠ .mark sign := by
  rintro rfl
  rcases hsign with rfl | rfl | rfl | rfl <;> cases hk

/-- A list that is not empty is read item by item. -/
theorem reads_exprsWithin_item {e : Expr} {ks rest final : List Kind}
    {Q : List Expr → Prop} {n : Nat} {close : Mark}
    (hform : ExprForm (.expr 0 e) ks) (he : ExprPhrase.Continues ks (.expr 0 e))
    (hn : 4 * (ks ++ rest).length + 5 ≤ n)
    (hclose : close = .rParen ∨ close = .rBracket) (hrest : Stops 0 rest)
    (hgo : ∀ m e', m + 1 = n → e'.bare = e → Reads (do
      if ← eat (.mark .comma) then
        let items ← exprsWithin m close
        return e' :: items
      return [e']) rest final Q) :
    Reads (exprsWithin n close) (ks ++ rest) final Q := by
  obtain ⟨k, ks', rfl, hk⟩ := hform.starts
  cases n with
  | zero => omega
  | succ m =>
      have hopen : ¬(k = .mark close ∨ k = .eof) := by
        rintro (h | rfl)
        · exact ne_of_startsExpr hk (by rcases hclose with h | h <;> simp [h]) h
        · cases hk
      refine .peek_bind ?_
      rw [if_neg hopen]
      exact .bind (he.reads_whole (by omega) hrest) fun v hv => hgo m v rfl hv

theorem continues_binary {p : Nat} {l r : Expr} {ks ks' : List Kind}
    (op : BinaryOp) (hp : p ≤ op.power)
    (hl : ExprPhrase.Continues ks (.expr op.power l))
    (hr : ExprPhrase.Continues ks' (.expr (op.power + 1) r)) :
    ExprPhrase.Continues (ks ++ op.kind :: ks')
      (.expr p (.binary .nowhere op l r)) := by
  intro n least rest final Q hn hleast hsuffix hrest hgo
  have hop := op.power_lt
  rw [List.append_assoc] at hn ⊢
  refine hl hn (Nat.le_trans hleast hp) hsuffix (stops_operator op _)
    fun m start e' he' hm => ?_
  simp only [List.cons_append, List.length_append, List.length_cons] at hm
  cases m with
  | zero => omega
  | succ m =>
      have hright : Reads (exprWithin m (op.power + 1)) (ks' ++ rest) rest
          fun v => v.bare = r :=
        hr.reads (by rw [List.length_append]; omega) (Nat.le_refl _)
          (by rw [suffixPower]; omega) (hrest.mono (by omega))
            (hrest.mono (by omega))
      have hstep : ∀ v : Expr, v.bare = r → Reads (operatorsWithin m least start
          (.binary ⟨start, v.span.stop⟩ op e' v)) rest final Q := fun v hv =>
        hgo m start _ (by rw [Expr.bare, he', hv]) (by omega)
      have hpower : ¬op.power < least := by omega
      have hgoal : Reads (do
          if op.power < least then return e'
          advance
          let right ← exprWithin m (op.power + 1)
          operatorsWithin m least start
            (.binary ⟨start, right.span.stop⟩ op e' right))
          (op.kind :: (ks' ++ rest)) final Q := by
        rw [if_neg hpower]
        exact .advance_bind (.bind hright hstep)
      refine .peek_bind ?_
      cases op <;> exact hgoal

theorem continues_call {p : Nat} {e : Expr} {es : List Expr}
    {ks ks' : List Kind} (he : ExprPhrase.Continues ks (.expr suffixPower e))
    (hargs : ExprPhrase.Continues ks' (.list es)) :
    ExprPhrase.Continues (ks ++ .mark .lParen :: (ks' ++ [.mark .rParen]))
      (.expr p (.call .nowhere e es)) := by
  intro n least rest final Q hn hleast hsuffix hrest hgo
  rw [List.append_assoc] at hn ⊢
  refine he hn hsuffix hsuffix (stops_suffix (Or.inl rfl) _)
    fun m start e' he' hm => ?_
  rw [List.cons_append, List.append_assoc] at hm ⊢
  simp only [List.length_append, List.length_cons, List.length_nil] at hm
  cases m with
  | zero => omega
  | succ m =>
      have hread : Reads (exprsWithin m .rParen) (ks' ++ .mark .rParen :: rest)
          (.mark .rParen :: rest) fun v => v.map Expr.bare = es := by
        refine hargs.1 ?_ (Or.inl rfl)
        simp only [List.length_append, List.length_cons]
        omega
      refine .peek_bind (.advance_bind (.bind hread fun v hv =>
        .mark_bind (.spanFrom_bind fun span => hgo m start _ ?_ (by omega))))
      rw [Expr.bare, he', Expr.bareAll_eq_map, hv]

theorem continues_index {p : Nat} {e e' : Expr} {ks ks' : List Kind}
    (he : ExprPhrase.Continues ks (.expr suffixPower e))
    (hsub : ExprPhrase.Continues ks' (.expr 0 e')) :
    ExprPhrase.Continues (ks ++ .mark .lBracket :: (ks' ++ [.mark .rBracket]))
      (.expr p (.index .nowhere e e')) := by
  intro n least rest final Q hn hleast hsuffix hrest hgo
  rw [List.append_assoc] at hn ⊢
  refine he hn hsuffix hsuffix (stops_suffix (Or.inr rfl) _)
    fun m start f hf hm => ?_
  rw [List.cons_append, List.append_assoc] at hm ⊢
  simp only [List.length_append, List.length_cons, List.length_nil] at hm
  cases m with
  | zero => omega
  | succ m =>
      have hread : Reads (exprWithin m 0) (ks' ++ .mark .rBracket :: rest)
          (.mark .rBracket :: rest) fun v => v.bare = e' := by
        refine hsub.reads_whole ?_ (stops_mark _ (by simp) _)
        simp only [List.length_append, List.length_cons]
        omega
      refine .peek_bind (.advance_bind (.bind hread fun v hv =>
        .mark_bind (.spanFrom_bind fun span => hgo m start _ ?_ (by omega))))
      rw [Expr.bare, hf, hv]

theorem continues_unary {p : Nat} {e : Expr} {ks : List Kind} (op : UnaryOp)
    (hp : p ≤ UnaryOp.power)
    (he : ExprPhrase.Continues ks (.expr UnaryOp.power e)) :
    ExprPhrase.Continues (op.kind :: ks) (.expr p (.unary .nowhere op e)) := by
  refine continues_of_operand (List.cons_ne_nil _ _) fun {n rest} hn hrest => ?_
  rw [UnaryOp.power] at hp
  rw [List.cons_append, List.length_cons] at hn
  cases n with
  | zero => omega
  | succ n =>
      have hread : Reads (exprWithin n UnaryOp.power) (ks ++ rest) rest
          fun v => v.bare = e :=
        he.reads (by omega) (Nat.le_refl _) (by decide)
          (hrest.mono (by rw [UnaryOp.power]; omega))
          (hrest.above (by rw [suffixPower]; omega) (by decide))
      refine .offset_bind fun start => .peek_bind ?_
      cases op <;>
        exact .advance_bind (.bind hread fun v hv => .spanFrom_bind fun span =>
          .pure (by rw [Expr.bare, hv]))

theorem continues_array {p : Nat} {es : List Expr} {ks : List Kind}
    (hitems : ExprPhrase.Continues ks (.list es)) :
    ExprPhrase.Continues (.mark .lBracket :: (ks ++ [.mark .rBracket]))
      (.expr p (.array .nowhere es)) := by
  refine continues_of_operand (List.cons_ne_nil _ _) fun {n rest} hn _ => ?_
  rw [List.cons_append, List.append_assoc] at hn ⊢
  simp only [List.length_append, List.length_cons, List.length_nil] at hn
  cases n with
  | zero => omega
  | succ n =>
      have hread : Reads (exprsWithin n .rBracket)
        (ks ++ .mark .rBracket :: rest)
          (.mark .rBracket :: rest) fun v => v.map Expr.bare = es := by
        refine hitems.1 ?_ (Or.inr rfl)
        simp only [List.length_append, List.length_cons]
        omega
      refine .offset_bind fun start =>
        .peek_bind (.advance_bind (.bind hread fun v hv =>
        .mark_bind (.spanFrom_bind fun span => .pure ?_)))
      rw [Expr.bare, Expr.bareAll_eq_map, hv]

/-- After an opening parenthesis: the first expression, and then what makes it
a parenthesised expression or a tuple. -/
theorem reads_operandWithin_paren {e : Expr} {ks rest final : List Kind}
    {Q : Expr → Prop} {n : Nat} (hform : ExprForm (.expr 0 e) ks)
    (he : ExprPhrase.Continues ks (.expr 0 e))
    (hn : 4 * (ks ++ rest).length + 5 ≤ n) (hrest : Stops 0 rest)
    (hgo : ∀ m start e', m + 1 = n → e'.bare = e → Reads (do
      if (← peek) = .mark .comma then
        let others ← tupleRestWithin m
        mark .rParen
        return .tuple (← spanFrom start) (e' :: others)
      mark .rParen
      return e'.withSpan (← spanFrom start)) rest final Q) :
    Reads (operandWithin n) (.mark .lParen :: (ks ++ rest)) final Q := by
  obtain ⟨k, ks', rfl, hk⟩ := hform.starts
  cases n with
  | zero => omega
  | succ m =>
      refine .offset_bind fun start =>
        .peek_bind (.advance_bind (.eat_bind_of_ne ?_ ?_))
      · exact ne_of_startsExpr hk (Or.inl rfl)
      · exact .bind (he.reads_whole (by omega) hrest) fun v hv =>
          hgo m start v rfl hv

theorem continues_parens {p : Nat} {e : Expr} {ks : List Kind}
    (hform : ExprForm (.expr 0 e) ks)
    (he : ExprPhrase.Continues ks (.expr 0 e)) :
    ExprPhrase.Continues (.mark .lParen :: (ks ++ [.mark .rParen]))
      (.expr p e) := by
  refine continues_of_operand (List.cons_ne_nil _ _) fun {n rest} hn _ => ?_
  rw [List.cons_append, List.append_assoc] at hn ⊢
  rw [List.length_cons] at hn
  refine reads_operandWithin_paren hform he (by omega)
    (stops_mark _ (by simp) _)
    fun m start e' _ he' =>
    .peek_bind (.mark_bind (.spanFrom_bind fun span => .pure ?_))
  rw [Expr.bare_withSpan, he']

theorem continues_tuple {p : Nat} {e : Expr} {es : List Expr}
    {ks ks' : List Kind} (hform : ExprForm (.expr 0 e) ks)
    (he : ExprPhrase.Continues ks (.expr 0 e))
    (hothers : ExprPhrase.Continues ks' (.list es)) :
    ExprPhrase.Continues
      (.mark .lParen :: (ks ++ .mark .comma :: (ks' ++ [.mark .rParen])))
      (.expr p (.tuple .nowhere (e :: es))) := by
  refine continues_of_operand (List.cons_ne_nil _ _) fun {n rest} hn _ => ?_
  have hshape :
      .mark .lParen :: (ks ++ .mark .comma :: (ks' ++ [.mark .rParen])) ++ rest
        = .mark .lParen :: (ks
          ++ (.mark .comma :: (ks' ++ .mark .rParen :: rest))) := by simp
  rw [hshape] at hn ⊢
  rw [List.length_cons] at hn
  refine reads_operandWithin_paren hform he (by omega)
    (stops_mark _ (by simp) _)
    fun m start e' hm he' => .peek_bind ?_
  rw [if_pos rfl]
  refine .bind (hothers.2 ?_) fun v hv =>
    .mark_bind (.spanFrom_bind fun span => .pure ?_)
  · simp only [List.length_append, List.length_cons] at hn ⊢
    omega
  · rw [Expr.bare, Expr.bareAll_eq_map, List.map_cons, he', hv]

theorem continues_list_nil : ExprPhrase.Continues [] (.list []) := by
  refine ⟨fun {n close rest} hn _ => ?_, fun {n rest} hn => ?_⟩
  · cases n with
    | zero => omega
    | succ n =>
        refine .peek_bind ?_
        rw [if_pos (Or.inl rfl)]
        exact .pure rfl
  · cases n with
    | zero => omega
    | succ n =>
        refine .eat_bind (.peek_bind ?_)
        rw [if_pos rfl]
        exact .pure rfl

/-- The items of a tuple after the first are read item by item. -/
theorem reads_tupleRestWithin_item {e : Expr} {ks rest final : List Kind}
    {Q : List Expr → Prop} {n : Nat} (hform : ExprForm (.expr 0 e) ks)
    (he : ExprPhrase.Continues ks (.expr 0 e))
    (hn : 4 * (ks ++ rest).length + 5 ≤ n) (hrest : Stops 0 rest)
    (hgo : ∀ m e', m + 1 = n → e'.bare = e → Reads (do
      let items ← tupleRestWithin m
      return e' :: items) rest final Q) :
    Reads (tupleRestWithin n) (.mark .comma :: (ks ++ rest)) final Q := by
  obtain ⟨k, ks', rfl, hk⟩ := hform.starts
  cases n with
  | zero => omega
  | succ m =>
      refine .eat_bind (.peek_bind ?_)
      rw [if_neg (ne_of_startsExpr hk (Or.inl rfl))]
      exact .bind (he.reads_whole (by omega) hrest) fun v hv => hgo m v rfl hv

theorem continues_list_one {e : Expr} {ks : List Kind}
    (hform : ExprForm (.expr 0 e) ks)
    (he : ExprPhrase.Continues ks (.expr 0 e)) :
    ExprPhrase.Continues ks (.list [e]) := by
  refine ⟨fun {n close rest} hn hclose => ?_, fun {n rest} hn => ?_⟩
  · refine reads_exprsWithin_item hform he hn hclose
      (stops_mark _ (by rcases hclose with h | h <;> simp [h]) _)
        fun m e' _ he' => ?_
    refine .eat_bind_of_ne ?_ (.pure (by rw [List.map_singleton, he']))
    rcases hclose with h | h <;> simp [h]
  · refine reads_tupleRestWithin_item hform he hn (stops_mark _ (by simp) _)
      fun m e' hm he' => ?_
    cases m with
    | zero => omega
    | succ m =>
        refine .bind (P := fun v => v = [])
          (.eat_bind_of_ne (by simp) (.pure rfl))
          fun v hv => .pure ?_
        rw [hv, List.map_singleton, he']

theorem continues_list_cons {e : Expr} {es : List Expr} {ks ks' : List Kind}
    (hform : ExprForm (.expr 0 e) ks) (he : ExprPhrase.Continues ks (.expr 0 e))
    (hes : ExprPhrase.Continues ks' (.list es)) :
    ExprPhrase.Continues (ks ++ .mark .comma :: ks') (.list (e :: es)) := by
  refine ⟨fun {n close rest} hn hclose => ?_, fun {n rest} hn => ?_⟩
  · rw [List.append_assoc] at hn ⊢
    refine reads_exprsWithin_item hform he hn hclose (stops_mark _ (by simp) _)
      fun m e' hm he' =>
      .eat_bind (.bind (hes.1 ?_ hclose) fun v hv => .pure ?_)
    · simp only [List.cons_append, List.length_append, List.length_cons] at hn ⊢
      omega
    · rw [List.map_cons, he', hv]
  · rw [List.append_assoc] at hn ⊢
    refine reads_tupleRestWithin_item hform he hn (stops_mark _ (by simp) _)
      fun m e' hm he' => .bind (hes.2 ?_) fun v hv => .pure ?_
    · simp only [List.cons_append, List.length_append, List.length_cons] at hn ⊢
      omega
    · rw [List.map_cons, he', hv]

theorem ExprForm.continues {phrase : ExprPhrase} {ks : List Kind}
    (h : ExprForm phrase ks) :
    ExprPhrase.Continues ks phrase := by
  induction h with
  | literal p value =>
      refine continues_of_operand (List.cons_ne_nil _ _) fun {n rest} hn _ => ?_
      cases n with
      | zero => omega
      | succ n =>
          exact .offset_bind fun _ =>
            .peek_bind (.advance_bind (.spanFrom_bind fun _ => .pure rfl))
  | path p first parts =>
      refine continues_of_operand (List.cons_ne_nil _ _)
        fun {n rest} hn hrest => ?_
      cases n with
      | zero => omega
      | succ n =>
          exact .offset_bind fun _ =>
            .peek_bind (.bind (reads_path hrest.dot first parts)
            fun v hv => .spanFrom_bind fun _ => .pure (by rw [hv]; rfl))
  | unit p =>
      refine continues_of_operand (List.cons_ne_nil _ _) fun {n rest} hn _ => ?_
      cases n with
      | zero => omega
      | succ n =>
          exact .offset_bind fun _ => .peek_bind (.advance_bind (.eat_bind
            (.spanFrom_bind fun _ => .pure rfl)))
  | parens inner ih => exact continues_parens inner ih
  | tuple first others ih ihs => exact continues_tuple first ih ihs
  | array items ih => exact continues_array ih
  | call callee args ih ihs => exact continues_call ih ihs
  | index target subscript ih ih' => exact continues_index ih ih'
  | unary op level operand ih => exact continues_unary op level ih
  | binary op level left right ihl ihr =>
      exact continues_binary op level ihl ihr
  | nil => exact continues_list_nil
  | one item ih => exact continues_list_one item ih
  | cons item items ih ihs => exact continues_list_cons item ih ihs

/-- **Expressions are read as written**, up to spans. -/
theorem reads_expr {e : Expr} {ks rest : List Kind}
    (h : ExprForm (.expr 0 e) ks) (hrest : Stops 0 rest) :
    Reads expr (ks ++ rest) rest fun v => v.bare = e := by
  have hread : ExprPhrase.Continues ks (.expr 0 e) := h.continues
  exact .of_length (r := fun n => exprWithin (4 * n + 4) 0)
    (hread.reads_whole (Nat.le_refl _) hrest)

end Exemplar
