import Exemplar.Proofs.Grammar.Stretches

/-!
# Trees are made of the tokens that were taken

Whatever a reader reads stands for the tokens it took (`takes_expr`,
`takes_body`): by recursion over its allowance, with one case for
each of the readers that call each other.

The reader of operators goes on after an operand. It is said to make an
expression of the tokens in `done` and its own, if those in `done` were one that
starts where the span will.
-/

namespace Exemplar

theorem BinaryOp.kind_of_ofKind? {k : Kind} {op : BinaryOp}
    (h : ofKind? k = some op) :
    k = op.kind := by
  unfold ofKind? at h
  split at h <;> cases h <;> rfl

theorem UnaryOp.kind_of_ofKind? {k : Kind} {op : UnaryOp}
    (h : ofKind? k = some op) :
    k = op.kind := by
  unfold ofKind? at h
  split at h <;> cases h <;> rfl

theorem BinaryOp.passes_kind (calm : Bool) (op : BinaryOp) :
    op.kind.passes calm = true := by
  cases op <;> rfl

theorem UnaryOp.passes_kind (calm : Bool) (op : UnaryOp) :
    op.kind.passes calm = true := by
  cases op <;> rfl

namespace Reading

section

variable {calm : Bool} {p : Proviso}

/-! ## Names and documentation -/

theorem takes_pathRest : ∀ (n : Nat) (path : String),
    Takes calm p [] anyToken (pathRest n path) fun v ts =>
      ∃ parts, v = joinPath path parts ∧ ts.map Token.kind = dottedKinds parts
  | 0, path => .pure ⟨[], rfl, rfl⟩
  | n + 1, path => by
      refine .eat_bind rfl (fun d _ hd => .name_bind fun part t _ ht =>
        .tail (takes_pathRest n _) ?_) (.pure ⟨[], rfl, rfl⟩)
      rintro v us ⟨parts, rfl, hkinds⟩
      exact ⟨part :: parts, rfl, by simp [hd, ht, hkinds, dottedKinds]⟩

theorem takes_path : Takes calm p [] anyToken path IsPath := by
  refine .name_bind fun first t _ ht =>
    .tail (.of_length (r := fun n => pathRest n first)
    fun n => takes_pathRest n first) ?_
  rintro v us ⟨parts, rfl, hkinds⟩
  exact ⟨first, parts, rfl, by simp [ht, hkinds]⟩

theorem takes_docsUpTo :
    ∀ n : Nat, Takes calm p [] anyToken (docsUpTo n) fun lines ts =>
    ts.map Token.kind = docKinds lines
  | 0 => .pure rfl
  | n + 1 => by
      refine .peek_bind fun k => ?_
      split
      · exact .advance_bind rfl fun t _ ht =>
          .bind (takes_docsUpTo n) fun lines us _ =>
          .pure fun hlines => by simp [ht, hlines, docKinds]
      · exact .pure rfl

theorem takes_docs : Takes calm p [] anyToken docs fun lines ts =>
    ts.map Token.kind = docKinds lines :=
  .of_length (r := docsUpTo) takes_docsUpTo

/-! ## Types -/

theorem takes_arraySuffixes : ∀ (n : Nat) (t : TypeExpr) (done : List Token),
    Takes calm p done anyToken (arraySuffixes n t) fun v ts =>
    IsType t done → IsType v ts
  | 0, t, done => .pure id
  | n + 1, t, done => by
      refine .eat_bind rfl (fun l _ hl => .mark_bind rfl fun r _ hr => ?_)
        (.pure id)
      refine (takes_arraySuffixes n _ _).mono fun v ts hv ht => hv ?_
      have harray := TypeForm.array ht
      simpa [IsType, hl, hr] using harray

theorem takes_types (n : Nat) :
    Takes calm p [] anyToken (typeWithin n) IsType
      ∧ Takes calm p [] anyToken (typesWithin n) fun items ts =>
          TypeForm (.list items) (ts.map Token.kind) := by
  induction n with
  | zero => exact ⟨.fault, .fault⟩
  | succ n ih =>
      obtain ⟨htype, htypes⟩ := ih
      constructor
      · refine .peek_bind fun k => ?_
        split
        · refine .bind takes_path.of_any fun name us _ => ?_
          refine (takes_arraySuffixes n _ _).mono fun v ts hv hname => hv ?_
          obtain ⟨first, parts, rfl, hkinds⟩ := hname
          simpa [IsType, hkinds] using TypeForm.path first parts
        · refine .advance_bind rfl fun l _ hl => .bind htypes fun items us _ =>
            .mark_bind rfl fun r _ hr => ?_
          refine (takes_arraySuffixes n _ _).mono fun v ts hv hitems => hv ?_
          simpa [IsType, hl, hr] using TypeForm.parens hitems
        · exact .expected
      · refine .peek_bind fun k => ?_
        split
        · exact .pure .nil
        · exact .pure .nil
        · refine .bind htype.of_any fun item us _ =>
            .eat_bind rfl (fun m _ hm => ?_) ?_
          · refine .bind htypes fun items vs _ => .pure fun hitems hitem => ?_
            simpa [hm] using TypeForm.cons hitem hitems
          · exact .pure fun hitem => .one hitem

theorem takes_type : Takes calm p [] anyToken type IsType :=
  .of_length (r := fun n => typeWithin (4 * n + 4)) fun _ => (takes_types _).1

/-! ## Expressions -/

/-- The readers of expressions read what stands for the tokens they take. -/
structure TakesExprs (calm : Bool) (p : Proviso) (n : Nat) : Prop where
  expr : ∀ least, Takes calm p [] anyToken (exprWithin n least)
    fun e ts => ExprTokens (.one e) ts
  operators : ∀ least start e done,
    Takes calm p done anyToken (operatorsWithin n least start e)
      fun v ts => e.span.start = start → ExprTokens (.one e) done →
        ExprTokens (.one v) ts
  operand : Takes calm p [] anyToken (operandWithin n)
    fun e ts => ExprTokens (.one e) ts
  exprs : ∀ close, Takes calm p [] anyToken (exprsWithin n close)
    fun es ts => ExprTokens (.many es) ts
  -- nothing is taken if no comma is ahead
  tupleRest : ∀ next, Takes calm p [] next (tupleRestWithin n) fun es ts =>
    (es = [] ∧ ts = [] ∧ ∃ t, next t ∧ t.kind ≠ .mark .comma)
      ∨ ∃ m us, ts = [m] ++ us ∧ m.kind = .mark .comma
        ∧ ExprTokens (.many es) us

theorem takes_operatorsWithin {n : Nat} (h : TakesExprs calm p n)
    (least start : Nat) (e : Expr) (done : List Token) :
    Takes calm p done anyToken (operatorsWithin (n + 1) least start e)
      fun v ts => e.span.start = start → ExprTokens (.one e) done →
        ExprTokens (.one v) ts := by
  have hstarts : e.span.start = start → ExprTokens (.one e) done →
      OpensAt start done :=
    fun hstart he => hstart ▸ he.encloses.start
  refine .peek_bind fun k => ?_
  split
  · refine .advance_bind rfl fun l _ hl => .bind (h.exprs _) fun args us _ =>
      .mark_bind rfl fun r _ hr => .spanFrom_bind fun stop hs =>
        (h.operators _ _ _ _).mono fun v ts hv hargs hstart he => hv rfl ?_
    exact .call he hl hargs hr
      (hs (((hstarts hstart he).append _).append _ |>.append _))
  · refine .advance_bind rfl fun l _ hl =>
      .bind (h.expr _) fun subscript us _ =>
      .mark_bind rfl fun r _ hr => .spanFrom_bind fun stop hs =>
        (h.operators _ _ _ _).mono fun v ts hv hsubscript hstart he => hv rfl ?_
    exact .index he hl hsubscript hr
      (hs (((hstarts hstart he).append _).append _ |>.append _))
  · split
    · next op hop =>
        split
        · exact .pure fun _ he => he
        · rw [BinaryOp.kind_of_ofKind? hop]
          refine .advance_bind (op.passes_kind _) fun t _ ht =>
            .bind (h.expr _) fun right us _ =>
            (h.operators _ _ _ _).mono fun v ts hv hright hstart he => hv rfl ?_
          exact .binary he ht hright
            ⟨((hstarts hstart he).append _).append _,
              hright.encloses.stop.append _⟩
    · exact .pure fun _ he => he

theorem takes_operandWithin {n : Nat} (h : TakesExprs calm p n) :
    Takes calm p [] anyToken (operandWithin (n + 1)) fun e ts =>
      ExprTokens (.one e) ts := by
  refine .offset_bind fun start => .peek_bind fun k => ?_
  split
  · exact .advance_bind rfl fun t hfirst ht => .spanFrom_bind fun stop hs =>
      .pure (.literal ht (hs (.cons hfirst.2)))
  · refine .bind takes_path.of_any fun name us hhead =>
      .spanFrom_bind fun stop hs => .pure ?_
    rintro ⟨first, parts, rfl, hkinds⟩
    refine .path hkinds (hs ?_)
    cases us with
    | nil => cases hkinds
    | cons t us => exact .cons (hhead t rfl).1.2
  · refine .advance_bind rfl fun l hfirst hl => ?_
    refine .eat_bind rfl (fun r _ hr => .spanFrom_bind fun stop hs =>
      .pure (.unit hl hr (hs (.cons hfirst.2)))) ?_
    refine .bind (h.expr 0).of_any fun first us _ => .peek_bind fun k' => ?_
    split
    · next hcomma =>
        refine .bind (h.tupleRest _) fun others vs _ =>
          .mark_bind rfl fun r _ hr =>
          .spanFrom_bind fun stop hs => .pure fun hothers he => ?_
        rcases hothers with ⟨-, -, t, ht, hne⟩ | ⟨m, vs, rfl, hm, hothers⟩
        · exact absurd (ht.2.trans hcomma) hne
        · exact .tuple hl he hm hothers hr (hs (.cons hfirst.2))
    · exact .mark_bind rfl fun r _ hr => .spanFrom_bind fun stop hs =>
        .pure fun he => .parens hl he hr (hs (.cons hfirst.2))
  · exact .advance_bind rfl fun l hfirst hl =>
      .bind (h.exprs _) fun items us _ =>
      .mark_bind rfl fun r _ hr => .spanFrom_bind fun stop hs =>
        .pure fun hitems =>
        .array hl hitems hr (hs (.cons hfirst.2))
  · split
    · next op hop =>
        rw [UnaryOp.kind_of_ofKind? hop]
        exact .advance_bind (op.passes_kind _) fun t hfirst ht =>
          .bind (h.expr _)
          fun operand us _ => .spanFrom_bind fun stop hs => .pure fun he =>
            .unary ht he (hs (.cons hfirst.2))
    · exact .expected

theorem takes_exprsWithin {n : Nat} (h : TakesExprs calm p n) (close : Mark) :
    Takes calm p [] anyToken (exprsWithin (n + 1) close) fun es ts =>
      ExprTokens (.many es) ts := by
  refine .peek_bind fun k => ?_
  split
  · exact .pure .nil
  · exact .bind (h.expr 0).of_any fun item us _ => .eat_bind rfl
      (fun m _ hm => .bind (h.exprs close) fun items vs _ =>
          .pure fun hitems hitem =>
        .cons hitem hm hitems)
      (.pure fun hitem => .single hitem)

theorem takes_tupleRestWithin {n : Nat} (h : TakesExprs calm p n)
    (next : Token → Prop) :
    Takes calm p [] next (tupleRestWithin (n + 1)) fun es ts =>
      (es = [] ∧ ts = [] ∧ ∃ t, next t ∧ t.kind ≠ .mark .comma)
        ∨ ∃ m us, ts = [m] ++ us ∧ m.kind = .mark .comma
          ∧ ExprTokens (.many es) us := by
  refine .eat_bind rfl (fun m _ hm => .peek_bind fun k => ?_)
    (.pure_next fun t ht => .inl ⟨rfl, rfl, t, ht.1, ht.2⟩)
  split
  · exact .pure (.inr ⟨m, [], rfl, hm, .nil⟩)
  · refine .bind (h.expr 0).of_any fun item us _ => .bind (h.tupleRest anyToken)
      fun items vs _ => .pure fun hitems hitem => .inr ?_
    rcases hitems with ⟨rfl, rfl, -⟩ | ⟨m', ws, rfl, hm', hitems⟩
    · exact ⟨m, us, by simp, hm, .single hitem⟩
    · exact ⟨m, us ++ [m'] ++ ws, by simp, hm, .cons hitem hm' hitems⟩

theorem takesExprs (n : Nat) : TakesExprs calm p n := by
  induction n with
  | zero =>
      exact ⟨fun _ => .fault, fun _ _ _ _ => .fault, .fault, fun _ => .fault,
        fun _ => .fault⟩
  | succ n ih =>
      refine ⟨fun least => ?_, takes_operatorsWithin ih, takes_operandWithin ih,
        takes_exprsWithin ih, takes_tupleRestWithin ih⟩
      refine .offset_bind fun start =>
        .bind ih.operand.of_any fun left us hhead =>
        (ih.operators _ _ _ _).mono fun v ts hv hleft => hv ?_ hleft
      exact Option.some.inj (hleft.encloses.start.symm.trans
        (hleft.encloses.opensAt fun t ht => (hhead t ht).2))

theorem takes_expr : Takes calm p [] anyToken expr fun e ts =>
      ExprTokens (.one e) ts :=
  .of_length (r := fun n => exprWithin (4 * n + 4) 0) fun _ =>
    (takesExprs _).expr 0

/-! ## Statements -/

theorem takes_binding : Takes calm p [] anyToken binding fun v ts =>
      BindingTokens v.1 v.2 ts :=
  .name_bind fun _ _ _ ht => .mark_bind rfl fun _ _ hq =>
    .bind takes_expr fun _ _ _ =>
    .mark_bind rfl fun _ _ hm => .pure fun hvalue => .intro ht hq hvalue hm

end

variable {p : Proviso}

theorem takes_skipStatement (start : Nat) :
    Takes false p [] anyToken (skipStatement start) fun _ _ => True := by
  obtain ⟨g, hg, heq⟩ := exists_skipStatement start
  rw [heq]
  exact .of_onward hg

/-- The tokens of statements and of what closes their body. -/
def StmtsToBrace (p : Proviso) (ss : List Stmt) (ts : List Token) : Prop :=
  ∃ us vs, ts = us ++ vs ∧ p.Closes vs ∧ StmtTokens p (.stmts ss) us

/-- The readers of statements read what stands for the tokens they take. -/
structure TakesStmts (p : Proviso) (n : Nat) : Prop where
  body : Takes false p [] anyToken (bodyWithin n) fun ss ts =>
    StmtTokens p (.body ss) ts
  stmts : Takes false p [] anyToken (stmtsWithin n) (StmtsToBrace p)
  stmt : Takes false p [] anyToken (stmtWithin n) fun s ts =>
    StmtTokens p (.stmt s) ts
  cond : Takes false p [] anyToken (ifWithin n) fun s ts =>
    StmtTokens p (.cond s) ts

theorem takes_stmtsWithin {n : Nat} (h : TakesStmts p n) :
    Takes false p [] anyToken (stmtsWithin (n + 1)) (StmtsToBrace p) := by
  have hdocs : Takes false p [] anyToken skipDocs fun _ ts => IsDocs ts :=
    .bind takes_docs fun lines _ _ => .pure fun h =>
      ⟨lines, by rwa [List.nil_append]⟩
  refine .bind hdocs fun _ lines _ => .peek_bind fun kind => ?_
  split
  · exact .advance_bind rfl fun r _ hr => .pure fun hlines =>
      ⟨lines, [r], rfl, .inl ⟨r, rfl, hr⟩, .nil fun _ => hlines⟩
  · exact .expected
  · refine .taken_bind fun start => .bind h.stmt.attempt.of_any fun e us _ => ?_
    cases e with
    | ok stmt =>
        refine .bind h.stmts fun stmts vs _ => .pure ?_
        rintro ⟨ws, r, rfl, hr, hstmts⟩ hstmt hlines
        exact ⟨lines ++ us ++ ws, r, by simp, hr,
          .cons (fun _ => hlines) (hstmt stmt rfl) hstmts⟩
    | error why =>
        refine .bind .record fun room rs _ => ?_
        cases room with
        | true =>
            refine .bind (takes_skipStatement start) fun _ skipped _ =>
              .tail h.stmts ?_
            rintro ss vs ⟨ws, r, rfl, hr, hstmts⟩ - ⟨hp, -⟩ - -
            exact ⟨lines ++ us ++ rs ++ skipped ++ ws, r, by simp, hr,
              hstmts.prepend hp _⟩
        | false =>
            -- with no room left the body ends where the text does
            refine .bind (.of_onward Cursor.onward_toLast) fun _ skipped _ =>
              .pure ?_
            rintro - ⟨hp, hroom⟩ - -
            exact ⟨_, [], (List.append_nil _).symm,
              .inr ⟨hroom.resolve_left nofun, rfl⟩, .nil (p.gap_of_ne hp _)⟩

theorem takes_stmtWithin {n : Nat} (h : TakesStmts p n) :
    Takes false p [] anyToken (stmtWithin (n + 1)) fun s ts =>
      StmtTokens p (.stmt s) ts := by
  refine .offset_bind fun start => ?_
  have hbinding : ∀ (word : Keyword) (f : Span → String × Expr → Stmt),
      (∀ s v k ts, k.kind = .keyword word → BindingTokens v.1 v.2 ts →
        s.Encloses ([k] ++ ts) → StmtTokens p (.stmt (f s v)) ([k] ++ ts)) →
      Takes false p []
        (fun t => (anyToken t ∧ t.span.start = start) ∧ t.kind = .keyword word)
        (advance >>= fun _ => binding >>= fun v =>
          spanFrom start >>= fun s => pure (f s v))
        fun s ts => StmtTokens p (.stmt s) ts :=
    fun word f hf =>
      .advance_bind (Kind.passes_keyword word) fun k hfirst hk =>
        .bind takes_binding fun v us _ =>
          .spanFrom_bind fun stop hs => .pure fun hv =>
            hf _ _ _ _ hk hv (hs (.cons hfirst.2))
  refine .peek_bind fun kind => ?_
  split
  · exact hbinding .let (fun s v => .bind s v.1 false v.2) fun _ _ _ _ =>
      @StmtTokens.bind p _ _ false _ _ _
  · exact hbinding .mutable (fun s v => .bind s v.1 true v.2) fun _ _ _ _ =>
      @StmtTokens.bind p _ _ true _ _ _
  · exact hbinding .set (fun s v => .assign s v.1 v.2) fun _ _ _ _ => .assign
  · refine .advance_bind rfl fun k hfirst hk => ?_
    exact .eat_bind rfl
      (fun m _ hm => .spanFrom_bind fun stop hs =>
        .pure (.ret hk hm (hs (.cons hfirst.2))))
      (.bind takes_expr.of_any fun value us _ => .mark_bind rfl fun m _ hm =>
        .spanFrom_bind fun stop hs => .pure fun hvalue =>
          .retValue hk hvalue hm (hs (.cons hfirst.2)))
  · exact h.cond.of_any.mono fun s ts hs => .cond hs
  · refine .advance_bind rfl fun k hfirst hk => .name_bind fun name t _ ht =>
      .keyword_bind rfl fun i _ hi => .bind takes_expr fun items us _ =>
        .bind h.body fun body vs _ =>
          .spanFrom_bind fun stop hs => .pure fun hbody hitems => ?_
    exact .loop hk ht hi hitems hbody (hs (.cons hfirst.2))
  · exact .bind takes_expr.of_any fun value us hhead =>
      .mark_bind rfl fun m _ hm => .spanFrom_bind fun stop hs =>
        .pure fun hvalue => .expr hvalue hm (hs ((hvalue.encloses.opensAt fun t ht => (hhead t ht).1.2).append _))

theorem takes_ifWithin {n : Nat} (h : TakesStmts p n) :
    Takes false p [] anyToken (ifWithin (n + 1)) fun s ts =>
      StmtTokens p (.cond s) ts := by
  refine .offset_bind fun start => .keyword_bind rfl fun k hfirst hk =>
    .bind takes_expr
    fun test us _ => .bind h.body fun body vs _ => ?_
  refine .eat_bind rfl (fun x _ hx => .peek_bind fun kind => ?_) ?_
  · split
    · exact .bind h.cond.of_any fun other ws _ => .spanFrom_bind fun stop hs =>
        .pure fun hother hbody htest => .elseIf hk htest hbody hx hother
          (hs (.cons hfirst.2))
    · exact .bind h.body.of_any fun other ws _ => .spanFrom_bind fun stop hs =>
        .pure fun hother hbody htest => .ifElse hk htest hbody hx hother
          (hs (.cons hfirst.2))
  · exact .spanFrom_bind fun stop hs => .pure fun hbody htest =>
      .ifThen hk htest hbody (hs (.cons hfirst.2))

theorem takesStmts (p : Proviso) (n : Nat) : TakesStmts p n := by
  induction n with
  | zero => exact ⟨.fault, .fault, .fault, .fault⟩
  | succ n ih =>
      refine ⟨.mark_bind rfl fun l _ hl => .tail ih.stmts ?_,
        takes_stmtsWithin ih, takes_stmtWithin ih, takes_ifWithin ih⟩
      rintro ss ts ⟨us, vs, rfl, hvs, hstmts⟩
      rw [← List.append_assoc]
      exact .body hl hstmts hvs

theorem takes_body : Takes false p [] anyToken body fun ss ts =>
      StmtTokens p (.body ss) ts :=
  .of_length (r := fun n => bodyWithin (4 * n + 4)) fun _ =>
    (takesStmts p _).body

end Reading

end Exemplar
