import Exemplar.Proofs.Grammar.Progress

/-!
# The loops of the grammar

Every loop of the grammar is written with an allowance, which goes down with
each iteration. Here each is taken apart into the `body` of one iteration and
the rest, and two things are shown of it. An iteration that is not the last
passes a token (`Runs`); so allowances that do for the tokens ahead do not
matter (`Agree`), and without them the loop is the one that repeats its body
(`Loop`).
-/

namespace Exemplar

namespace Reading

variable {α σ : Type} {all : List Token} {b n m : Nat}

/-! ## Loops that count their iterations -/

/-- A loop of at most as many iterations as are given. -/
structure Counted (all : List Token) (body : (σ → Reading α) → σ → Reading α)
    (upTo : Nat → σ → Reading α) : Prop where
  succ : ∀ n s, upTo (n + 1) s = body (upTo n) s
  runs : ∀ b k k' s, Runs all b k k' b b anyToken (body k s) (body k' s)
  /-- At the end of the tokens, the next iteration would be the last and do
  nothing. -/
  zero : ∀ k s c, c.On all → c.current.kind = .eof → upTo 0 s c = body k s c

namespace Counted

variable {body : (σ → Reading α) → σ → Reading α} {upTo : Nat → σ → Reading α}

theorem apply (h : Counted all body upTo) {c : Cursor} (hc : c.On all)
    (hn : all.length ≤ n + c.taken + 1) (s : σ) :
    upTo n s c = body (upTo (n - 1)) s c := by
  cases n with
  | zero => exact h.zero _ s c hc (hc.eof_of_end (by omega))
  | succ n => exact congrFun (h.succ n s) c

/-- One iteration for each token ahead is enough. -/
theorem agree (h : Counted all body upTo) (s : σ) (hn : all.length ≤ n + b + 1)
    (hm : all.length ≤ m + b + 1) :
    Agree all b b anyToken (upTo n s) (upTo m s) := by
  -- over the tokens behind `b`
  obtain ⟨d, hd⟩ : ∃ d, all.length ≤ b + d := ⟨all.length, Nat.le_add_left ..⟩
  induction d generalizing n m b s with
  | zero => exact .absurd hd
  | succ d ih =>
      refine .of_apply fun c hc hb hnext => ?_
      rw [h.apply hc (by omega) s, h.apply (n := m) hc (by omega) s]
      have hbody := (h.runs b (upTo (n - 1)) (upTo (m - 1)) s).close fun s' =>
        ih s' (by omega) (by omega) (by omega)
      exact hbody.apply hc hb hnext

theorem agree_length (h : Counted all body upTo) (s : σ) :
    Agree all b b anyToken (fun c => upTo c.ahead.length s c) fun c =>
      upTo c.ahead.length s c := by
  have hlength : ∀ a l, b ≤ a → a + l + 1 = all.length →
      Agree all a b anyToken (upTo l s) (upTo l s) :=
    fun a l ha hl => (h.agree s (by omega) (by omega)).weaken ha
  exact .of_length (upTo · s) (upTo · s) hlength

/-- Without its allowance the loop repeats its body. -/
theorem loop (h : Counted all body upTo) (l : Nat) :
    Loop all body fun s c => upTo (c.ahead.length + l) s c := by
  refine ⟨fun s c hc => ?_, fun k k' s c hc =>
    h.runs c.taken k k' s hc (Nat.le_refl _) trivial⟩
  have hlength := hc.length
  show upTo (c.ahead.length + l) s c = body _ s c
  rw [h.apply hc (by omega) s]
  refine (h.runs c.taken _ _ s hc (Nat.le_refl _) trivial).eq
    fun s' c' hc' hlt => ?_
  have hlength' := hc'.length
  exact ((h.agree s' (by omega) (by omega)).apply hc' (Nat.le_refl _) trivial).1

end Counted

/-! ## Paths and documentation -/

/-- A dot and a name. -/
def pathBody (again : String → Reading String) (path : String) :
    Reading String := do
  if ← eat (.mark .dot) then
    let part ← name
    again (path ++ "." ++ part)
  else return path

theorem counted_path : Counted all pathBody pathRest where
  succ _ _ := rfl
  runs b k k' path :=
    .eat_bind nofun (.name_bind fun _ => .again (by omega))
      (.pure (Nat.le_refl _))
  zero k path c hc heof := by
    rw [pathBody, eat_bind_of_ne (by simp [heof])]
    rfl

theorem agree_path : Agree all b (b + 1) anyToken path path :=
  .name_bind fun first => counted_path.agree_length first

/-- A line of documentation. -/
def docsBody (again : Unit → Reading (List String)) (_ : Unit) :
    Reading (List String) := do
  match ← peek with
  | .doc line =>
    advance
    let rest ← again ()
    return line :: rest
  | _ => return []

theorem counted_docs : Counted all docsBody fun n _ => docsUpTo n where
  succ _ _ := rfl
  runs b k k' _ := by
    refine .peek_bind fun kind => ?_
    split
    · exact .advance_bind nofun (.again_bind (by omega))
    · exact .pure (Nat.le_refl _)
  zero k _ c hc heof := by
    rw [docsBody, peek_bind, heof]
    rfl

theorem agree_docs : Agree all b b anyToken docs docs :=
  counted_docs.agree_length ()

/-- Both allowances do for the tokens behind `b`, four for each, with `k` to
spare. -/
abbrev Allows (all : List Token) (k n m b : Nat) : Prop :=
  4 * all.length + k ≤ n + 4 * b + 4 ∧ 4 * all.length + k ≤ m + 4 * b + 4

/-- Without its allowance, a loop that is given one repeats its body. -/
theorem Loop.of_within (within : Nat → σ → Reading α)
    (inner : Nat → (σ → Reading α) → σ → Reading α)
    {body : (σ → Reading α) → σ → Reading α}
    (hsucc : ∀ n s, within (n + 1) s = inner n (within n) s)
    (hagree : ∀ {n m b} s, Allows all 4 n m b →
      Agree all b b anyToken (within n s) (within m s))
    (hinner : ∀ {n b} k k' s, Allows all 3 n n b →
      Runs all b k k' b b anyToken (inner n k s) (body k' s))
    (hbody : ∀ {b} k k' s,
      Runs all b k k' b b anyToken (body k s) (body k' s)) :
    Loop all body fun s c => within (4 * c.ahead.length + 4) s c := by
  refine ⟨fun s c hc => ?_, fun k k' s c hc =>
    hbody k k' s hc (Nat.le_refl _) trivial⟩
  have hlength := hc.length
  show within (4 * c.ahead.length + 3 + 1) s c = body _ s c
  rw [hsucc]
  refine (hinner _ _ s (by omega) hc (Nat.le_refl _) trivial).eq
    fun s' c' hc' hlt => ?_
  have hlength' := hc'.length
  exact ((hagree s' (by omega)).apply hc' (Nat.le_refl _) trivial).1

/-! ## Types -/

/-- A pair of brackets. -/
def arraysBody (again : TypeExpr → Reading TypeExpr) (type : TypeExpr) :
    Reading TypeExpr := do
  if ← eat (.mark .lBracket) then
    mark .rBracket
    again (.array type)
  else return type

theorem counted_arrays : Counted all arraysBody arraySuffixes where
  succ _ _ := rfl
  runs b k k' type :=
    .eat_bind nofun (.mark_bind (.again (by omega))) (.pure (Nat.le_refl _))
  zero k type c hc heof := by
    rw [arraysBody, eat_bind_of_ne (by simp [heof])]
    rfl

/-- A type, and a comma if there is another. -/
def typesBody (type : Reading TypeExpr) (again : Unit → Reading (List TypeExpr))
    (_ : Unit) : Reading (List TypeExpr) := do
  match ← peek with
  | .mark .rParen | .eof => return []
  | _ =>
    let item ← type
    if ← eat (.mark .comma) then
      let items ← again ()
      return item :: items
    return [item]

theorem typesWithin_succ (n : Nat) :
    typesWithin (n + 1) = typesBody (typeWithin n) (fun _ =>
      typesWithin n) () := by
  rw [typesWithin]
  rfl

theorem runs_types {type type' : Reading TypeExpr}
    {k k' : Unit → Reading (List TypeExpr)}
    (htype : Agree all b (b + 1) anyToken type type') :
    Runs all b k k' b b anyToken (typesBody type k ())
      (typesBody type' k' ()) := by
  refine .peek_bind fun kind => ?_
  split
  · exact .pure (Nat.le_refl _)
  · exact .pure (Nat.le_refl _)
  · exact .bind_moved htype.of_any fun item =>
      .eat_bind nofun (.again_bind (by omega)) (.pure (Nat.le_succ _))

/-- The readers of types agree where their allowances do. -/
theorem agree_types : ∀ n m {b : Nat},
    (Allows all 1 n m b →
      Agree all b (b + 1) anyToken (typeWithin n) (typeWithin m))
    ∧ (Allows all 2 n m b →
      Agree all b b anyToken (typesWithin n) (typesWithin m))
  | 0, _, _ => ⟨fun _ => .absurd (by omega), fun _ => .absurd (by omega)⟩
  | _ + 1, 0, _ => ⟨fun _ => .absurd (by omega), fun _ => .absurd (by omega)⟩
  | n + 1, m + 1, b => by
      have ih := fun b => @agree_types n m b
      refine ⟨fun h => .peek_bind fun kind => ?_, fun h => ?_⟩
      · split
        · exact .bind_moved agree_path.of_any fun _ =>
            counted_arrays.agree _ (by omega) (by omega)
        · refine .advance_bind nofun
            (.bind ((ih _).2 (by omega)) fun items => ?_)
          exact .mark_bind
            ((counted_arrays.agree _ (by omega) (by omega)).weaken (by omega))
        · exact .expected
      · rw [typesWithin_succ, typesWithin_succ]
        exact (runs_types ((ih _).1 (by omega))).close fun _ =>
          (ih _).2 (by omega)

theorem agree_typeWithin (h : Allows all 1 n n b) :
    Agree all b (b + 1) anyToken (typeWithin n) type :=
  .of_length (fun _ => typeWithin n) (fun l => typeWithin (4 * l + 4))
    fun _ _ _ _ => ((agree_types _ _).1 (by omega)).weaken (by omega)

theorem agree_type : Agree all b (b + 1) anyToken type type :=
  .of_length (fun l => typeWithin (4 * l + 4)) (fun l => typeWithin (4 * l + 4))
    fun _ _ _ _ => ((agree_types _ _).1 (by omega)).weaken (by omega)

theorem loop_types :
    Loop all (typesBody type) fun _ c =>
      typesWithin (4 * c.ahead.length + 4) c :=
  .of_within (fun n _ => typesWithin n) (fun n => typesBody (typeWithin n))
    (fun n _ => typesWithin_succ n)
    (fun _ _ => (agree_types _ _).2 (by omega))
    (fun _ _ _ _ => runs_types (agree_typeWithin (by omega))) fun _ _ _ =>
    runs_types agree_type

/-! ## Expressions -/

/-- A call, a subscript, or an operator that binds tightly enough. -/
def operatorsBody (exprs : Mark → Reading (List Expr))
    (expr : Nat → Reading Expr) (least start : Nat)
    (again : Expr → Reading Expr) (left : Expr) : Reading Expr := do
  match ← peek with
  | .mark .lParen =>
    advance
    let args ← exprs .rParen
    mark .rParen
    let span ← spanFrom start
    again (.call span left args)
  | .mark .lBracket =>
    advance
    let subscript ← expr 0
    mark .rBracket
    let span ← spanFrom start
    again (.index span left subscript)
  | kind =>
    match BinaryOp.ofKind? kind with
    | some op =>
      if op.power < least then return left
      advance
      let right ← expr (op.power + 1)
      again (.binary ⟨start, right.span.stop⟩ op left right)
    | none => return left

/-- An expression, and a comma if there is another. -/
def exprsBody (expr : Reading Expr) (close : Mark)
    (again : Unit → Reading (List Expr)) (_ : Unit) : Reading (List Expr) := do
  let kind ← peek
  if kind = .mark close ∨ kind = .eof then return []
  let item ← expr
  if ← eat (.mark .comma) then
    let items ← again ()
    return item :: items
  return [item]

/-- A comma, and an expression unless the tuple ends. -/
def tupleBody (expr : Reading Expr) (again : Unit → Reading (List Expr))
    (_ : Unit) : Reading (List Expr) := do
  if ← eat (.mark .comma) then
    if (← peek) = .mark .rParen then return []
    let item ← expr
    let items ← again ()
    return item :: items
  return []

theorem operatorsWithin_succ (n least start : Nat) :
    operatorsWithin (n + 1) least start
      = operatorsBody (exprsWithin n) (exprWithin n) least start
          (operatorsWithin n least start) := by
  funext left
  rw [operatorsWithin]
  rfl

theorem exprsWithin_succ (n : Nat) (close : Mark) :
    exprsWithin (n + 1) close
      = exprsBody (exprWithin n 0) close (fun _ => exprsWithin n close) () := by
  rw [exprsWithin]
  rfl

theorem tupleRestWithin_succ (n : Nat) :
    tupleRestWithin (n + 1) = tupleBody (exprWithin n 0) (fun _ =>
      tupleRestWithin n) () := by
  rw [tupleRestWithin]
  rfl

section

variable {exprs exprs' : Mark → Reading (List Expr)}
  {expr expr' : Nat → Reading Expr} {item item' : Reading Expr}
  {k k' : Unit → Reading (List Expr)}

theorem runs_operators {k k' : Expr → Reading Expr}
    (hexprs : ∀ close,
      Agree all (b + 1) (b + 1) anyToken (exprs close) (exprs' close))
    (hexpr : ∀ least,
      Agree all (b + 1) (b + 2) anyToken (expr least) (expr' least))
    (least start : Nat) (left : Expr) :
    Runs all b k k' b b anyToken (operatorsBody exprs expr least start k left)
      (operatorsBody exprs' expr' least start k' left) := by
  refine .peek_bind fun kind => ?_
  split
  · exact .advance_bind nofun (.bind (hexprs _) fun args => .mark_bind
      (.spanFrom_bind fun _ => .again (by omega)))
  · exact .advance_bind nofun (.bind_moved (hexpr _) fun subscript => .mark_bind
      (.spanFrom_bind fun _ => .again (by omega)))
  · split
    · next op hop =>
        split
        · exact .pure (Nat.le_refl _)
        · refine .advance_bind ?_ (.bind_moved (hexpr _) fun right =>
            .again (by omega))
          rintro rfl
          cases hop
    · exact .pure (Nat.le_refl _)

theorem runs_exprs (hitem : Agree all b (b + 1) anyToken item item')
    (close : Mark) :
    Runs all b k k' b b anyToken (exprsBody item close k ())
      (exprsBody item' close k' ()) := by
  refine .peek_bind fun kind => ?_
  split
  · exact .pure (Nat.le_refl _)
  · exact .bind_moved hitem.of_any fun item =>
      .eat_bind nofun (.again_bind (by omega)) (.pure (Nat.le_succ _))

theorem runs_tuple (hitem : Agree all (b + 1) (b + 2) anyToken item item') :
    Runs all b k k' b b anyToken (tupleBody item k ())
      (tupleBody item' k' ()) := by
  refine .eat_bind nofun (.peek_bind fun kind => ?_) (.pure (Nat.le_refl _))
  split
  · exact .pure (Nat.le_succ _)
  · exact .bind_moved hitem.of_any fun item => .again_bind (by omega)

end

/-- The readers of expressions agree where their allowances do. -/
structure AgreeExprs (all : List Token) (n m : Nat) : Prop where
  expr : ∀ {b}, Allows all 2 n m b →
    ∀ least, Agree all b (b + 1) anyToken (exprWithin n least)
      (exprWithin m least)
  operand : ∀ {b}, Allows all 1 n m b →
    Agree all b (b + 1) anyToken (operandWithin n) (operandWithin m)
  operators : ∀ {b}, Allows all 1 n m b →
    ∀ least start left,
      Agree all b b anyToken (operatorsWithin n least start left)
        (operatorsWithin m least start left)
  exprs : ∀ {b}, Allows all 3 n m b →
    ∀ close, Agree all b b anyToken (exprsWithin n close) (exprsWithin m close)
  tupleRest : ∀ {b}, Allows all 1 n m b →
    Agree all b b anyToken (tupleRestWithin n) (tupleRestWithin m)

theorem AgreeExprs.operand_succ (h : AgreeExprs all n m)
    (hallow : Allows all 1 (n + 1) (m + 1) b) :
    Agree all b (b + 1) anyToken (operandWithin (n + 1))
      (operandWithin (m + 1)) := by
  refine .offset_bind fun start => .peek_bind fun kind => ?_
  split
  · exact .advance_bind nofun (.spanFrom_bind fun _ => .pure (Nat.le_refl _))
  · exact .bind_moved agree_path.of_any fun _ => .spanFrom_bind fun _ =>
      .pure (Nat.le_refl _)
  · refine .advance_bind nofun
      (.eat_bind nofun (.spanFrom_bind fun _ => .pure (by omega)) ?_)
    refine .bind_moved (h.expr (by omega) 0) fun first =>
      .peek_bind fun kind' => ?_
    split
    · exact .bind (h.tupleRest (by omega)).of_any fun others => .mark_bind
        (.spanFrom_bind fun _ => .pure (by omega))
    · exact .mark_bind (.spanFrom_bind fun _ => .pure (by omega))
  · exact .advance_bind nofun (.bind (h.exprs (by omega) _) fun items =>
      .mark_bind (.spanFrom_bind fun _ => .pure (by omega)))
  · split
    · next op hop =>
        refine .advance_bind ?_
            (.bind_moved (h.expr (by omega) _) fun operand =>
          .spanFrom_bind fun _ => .pure (by omega))
        rintro rfl
        cases hop
    · exact .expected

theorem agreeExprs : ∀ n m : Nat, AgreeExprs all n m
  | 0, m => by
      constructor <;> intros <;> exact .absurd (by omega)
  | n + 1, 0 => by
      constructor <;> intros <;> exact .absurd (by omega)
  | n + 1, m + 1 => by
      have ih := agreeExprs n m
      refine ⟨fun h least => ?_, ih.operand_succ, fun h least start left => ?_,
        fun h close => ?_, fun h => ?_⟩
      · exact .offset_bind fun start =>
          .bind_moved (ih.operand (by omega)) fun left =>
          ih.operators (by omega) _ _ _
      · rw [operatorsWithin_succ, operatorsWithin_succ]
        exact (runs_operators (ih.exprs (by omega)) (ih.expr (by omega))
          least start left).close fun left =>
          ih.operators (by omega) least start left
      · rw [exprsWithin_succ, exprsWithin_succ]
        exact (runs_exprs (ih.expr (by omega) 0) close).close fun _ =>
          ih.exprs (by omega) close
      · rw [tupleRestWithin_succ, tupleRestWithin_succ]
        exact (runs_tuple (ih.expr (by omega) 0)).close fun _ =>
          ih.tupleRest (by omega)

def exprAbove (least : Nat) : Reading Expr := fun c =>
  exprWithin (4 * c.ahead.length + 4) least c

def exprList (close : Mark) : Reading (List Expr) := fun c =>
  exprsWithin (4 * c.ahead.length + 4) close c

theorem agree_exprWithin (h : Allows all 2 n n b) (least : Nat) :
    Agree all b (b + 1) anyToken (exprWithin n least) (exprAbove least) :=
  .of_length (fun _ => exprWithin n least) (fun l =>
    exprWithin (4 * l + 4) least)
    fun _ _ _ _ => ((agreeExprs _ _).expr (by omega) least).weaken (by omega)

theorem agree_exprAbove (least : Nat) :
    Agree all b (b + 1) anyToken (exprAbove least) (exprAbove least) :=
  .of_length (fun l => exprWithin (4 * l + 4) least) (fun l =>
    exprWithin (4 * l + 4) least)
    fun _ _ _ _ => ((agreeExprs _ _).expr (by omega) least).weaken (by omega)

theorem agree_expr : Agree all b (b + 1) anyToken expr expr := agree_exprAbove 0

theorem agree_exprsWithin (h : Allows all 3 n n b) (close : Mark) :
    Agree all b b anyToken (exprsWithin n close) (exprList close) :=
  .of_length (fun _ => exprsWithin n close) (fun l =>
    exprsWithin (4 * l + 4) close)
    fun _ _ _ _ => ((agreeExprs _ _).exprs (by omega) close).weaken (by omega)

theorem agree_exprList (close : Mark) :
    Agree all b b anyToken (exprList close) (exprList close) :=
  .of_length (fun l => exprsWithin (4 * l + 4) close) (fun l =>
    exprsWithin (4 * l + 4) close)
    fun _ _ _ _ => ((agreeExprs _ _).exprs (by omega) close).weaken (by omega)

theorem loop_operators (least start : Nat) :
    Loop all (operatorsBody exprList exprAbove least start) fun left c =>
      operatorsWithin (4 * c.ahead.length + 4) least start left c :=
  .of_within (fun n => operatorsWithin n least start)
    (fun n => operatorsBody (exprsWithin n) (exprWithin n) least start)
    (fun n left => congrFun (operatorsWithin_succ n least start) left)
    (fun left _ => (agreeExprs _ _).operators (by omega) least start left)
    (fun _ _ left _ => runs_operators (agree_exprsWithin (by omega))
      (agree_exprWithin (by omega)) least start left)
    fun _ _ left =>
      runs_operators agree_exprList agree_exprAbove least start left

theorem loop_exprs (close : Mark) :
    Loop all (exprsBody expr close) fun _ => exprList close :=
  .of_within (fun n _ => exprsWithin n close)
    (fun n => exprsBody (exprWithin n 0) close)
    (fun n _ => exprsWithin_succ n close)
    (fun _ _ => (agreeExprs _ _).exprs (by omega) close)
    (fun _ _ _ _ => runs_exprs (agree_exprWithin (by omega) 0) close)
    fun _ _ _ => runs_exprs agree_expr close

theorem loop_tuple :
    Loop all (tupleBody expr) fun _ c =>
      tupleRestWithin (4 * c.ahead.length + 4) c :=
  .of_within (fun n _ => tupleRestWithin n) (fun n =>
    tupleBody (exprWithin n 0)) (fun n _ => tupleRestWithin_succ n)
    (fun _ _ => (agreeExprs _ _).tupleRest (by omega))
    (fun _ _ _ _ => runs_tuple (agree_exprWithin (by omega) 0)) fun _ _ _ =>
      runs_tuple agree_expr

/-! ## Skipping -/

/-- A token of a statement that failed, unless it ends there. -/
def skipStatementBody (start : Nat) (again : Unit → Reading Unit) (_ : Unit) :
    Reading Unit := do
  match ← peek with
  | .mark .semi => advance
  | .mark .rBrace | .eof => return ()
  | kind =>
    let here ← taken
    if startsStatement kind ∧ start < here then return ()
    advance
    again ()

/-- A token of an item that failed, unless it ends there. -/
def skipItemBody (start : Nat) (again : Nat → Reading Unit) (depth : Nat) :
    Reading Unit := do
  let here ← taken
  match ← peek, depth with
  | .eof, _ => return ()
  | .mark .lBrace, depth =>
    advance
    again (depth + 1)
  | .mark .rBrace, 0 => return ()
  | .mark .rBrace, 1 => advance
  | .mark .rBrace, depth + 2 =>
    advance
    again (depth + 1)
  | kind, depth =>
    if depth = 0 ∧ startsItem kind ∧ start < here then return ()
    advance
    again depth

theorem runs_skipStatement {k k' : Unit → Reading Unit} (start : Nat) :
    Runs all b k k' b b anyToken (skipStatementBody start k ())
      (skipStatementBody start k' ()) := by
  refine .peek_bind fun kind => ?_
  split
  · exact .advance_bind nofun (.pure (Nat.le_succ _))
  · exact .pure (Nat.le_refl _)
  · exact .pure (Nat.le_refl _)
  · next heof =>
      refine .taken_bind fun here hhere => ?_
      split
      · exact .pure hhere
      · exact .advance_bind heof (.again (by omega))

theorem runs_skipItem {k k' : Nat → Reading Unit} (start depth : Nat) :
    Runs all b k k' b b anyToken (skipItemBody start k depth)
      (skipItemBody start k' depth) := by
  refine .taken_bind fun here hhere => .peek_bind fun kind => ?_
  split
  · exact .pure hhere
  · exact .advance_bind nofun (.again (by omega))
  · exact .pure hhere
  · exact .advance_bind nofun (.pure (by omega))
  · exact .advance_bind nofun (.again (by omega))
  · next heof _ _ _ _ =>
      split
      · exact .pure hhere
      · exact .advance_bind heof (.again (by omega))

theorem skipWhile_apply (keep : Kind → Nat → Bool) {c : Cursor} (hc : c.On all)
    (hend : ∀ n, keep .eof n = false) :
    c.skipWhile keep
      = if keep c.current.kind c.taken then c.advance.skipWhile keep
        else c := by
  rcases hc.ahead_cases with ⟨hahead, heof⟩ | ⟨t, rest, hahead, hcurrent, hrest⟩
  · rw [heof, hend, Cursor.skipWhile, hahead]
    rfl
  · rw [Cursor.skipWhile, hahead, Cursor.skipWhile.go, hcurrent,
      Cursor.skipWhile, hrest]

theorem skipStatement_unfold (start : Nat) {c : Cursor} (hc : c.On all) :
    skipStatement start c
      = skipStatementBody start (fun _ => skipStatement start) () c := by
  have hskip : ∀ keep : Bool,
    (c.current.kind != .eof && c.current.kind != .mark .rBrace
        && c.current.kind != .mark .semi
        && !(startsStatement c.current.kind && decide (start < c.taken)))
          = keep →
      skipStatement start c = if keep then skipStatement start c.advance
        else .read () (if c.current.kind = .mark .semi then c.advance
          else c) := by
    rintro keep rfl
    rw [skipStatement, skipWhile_apply _ hc fun _ => rfl]
    split <;> rfl
  have hplain : c.current.kind ≠ .mark .semi → c.current.kind ≠ .mark .rBrace →
      c.current.kind ≠ .eof → skipStatement start c
        = (if startsStatement c.current.kind ∧ start < c.taken then pure ()
            else (advance >>= fun _ => skipStatement start) : Reading Unit)
              c := by
    intro hsemi hclose heof
    by_cases hstop : startsStatement c.current.kind = true ∧ start < c.taken
    · rw [hskip false (by simp [hstop]), if_pos hstop, if_neg hsemi]
      rfl
    · have hword : (startsStatement c.current.kind && decide (start < c.taken))
          = false := by
        simpa using hstop
      rw [hskip true (by simp [hsemi, hclose, heof, hword]), if_neg hstop]
      rfl
  rw [skipStatementBody, peek_bind]
  cases hkind : c.current.kind with
  | mark sign =>
      rw [hkind] at hskip hplain
      cases sign <;> first
        | exact hskip false rfl | exact hplain (by simp) (by simp) (by simp)
  | eof =>
      rw [hkind] at hskip
      exact hskip false rfl
  | literal _ | ident _ | doc _ | keyword _ =>
      rw [hkind] at hplain
      exact hplain (by simp) (by simp) (by simp)

theorem skipItemFrom_unfold (start depth : Nat) {c : Cursor} (hc : c.On all)
    {k : Nat → Reading Unit}
    (hk : ∀ d, k d c.advance
      = .read () (skipItemFrom start d c.advance.ahead c.advance)) :
    .read () (skipItemFrom start depth c.ahead c)
      = skipItemBody start k depth c := by
  unfold skipItemBody
  rw [taken_bind, peek_bind]
  rcases hc.ahead_cases with ⟨hahead, heof⟩ | ⟨t, rest, hahead, hcurrent, hrest⟩
  · rw [heof, hahead]
    rfl
  · rw [hrest] at hk
    have hplain : ∀ {P : Prop} [Decidable P],
        .read () (if P then c else skipItemFrom start depth rest c.advance)
          = (if P then pure () else (advance >>= fun _ => k depth) :
            Reading Unit) c := by
      intro P _
      by_cases h : P
      · rw [if_pos h, if_pos h]
        rfl
      · rw [if_neg h, if_neg h]
        exact (hk depth).symm
    rw [hahead, hcurrent]
    unfold skipItemFrom
    cases t.kind with
    | mark sign =>
        cases sign <;> first
          | exact hplain
          | exact (hk _).symm
          | rcases depth with _ | _ | depth <;> first | rfl | exact (hk _).symm
    | literal _ | ident _ | doc _ | keyword _ => exact hplain
    | eof => rfl

end Reading

end Exemplar
