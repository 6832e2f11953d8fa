import Exemplar.Proofs.Grammar.Loops
import Exemplar.Proofs.Grammar.Membership

/-!
# Reading ends, in bounds and in order

The last readers, of statements, items and blocks, in the same way; then all
loops of the grammar together (`Loops`), and the headline,
`Parsed.ofTokens_ends`.

What needs care is the going on after a fault. A statement that fails is skipped
up to the next one, and this must not be itself: a keyword that starts a
statement is passed before the statement can fail (`LeavesKeyword`). An item
that fails may be skipped up to a closing brace, which stays; then the next
iteration starts at this brace, and if it fails there, the brace is passed
(`exists_skipItem_past`). When there is no room for another fault, the loops end
one by one.
-/

namespace Exemplar

namespace Reading

variable {α σ : Type} {all : List Token} {b n m : Nat}

/-! ## Statements -/

theorem agree_skipAll : Agree all b b anyToken skipAll skipAll :=
  .of_onward Cursor.onward_toLast

theorem agree_skipDocs : Agree all b b anyToken skipDocs skipDocs :=
  .bind agree_docs fun _ => .pure (Nat.le_refl _)

theorem agree_binding : Agree all b (b + 1) anyToken binding binding :=
  .name_bind fun _ =>
    .mark_bind (.bind_moved agree_expr fun _ => .mark_bind (.pure (by omega)))

/-- Skipping goes past a token that ends no statement and starts none. -/
theorem exists_skipStatement_past (start : Nat) {c : Cursor} (hc : c.On all)
    (hclose : c.current.kind ≠ .mark .rBrace) (heof : c.current.kind ≠ .eof)
    (hword : startsStatement c.current.kind = false) :
    ∃ c', skipStatement start c = .read () c' ∧ c'.On all
      ∧ c.taken < c'.taken := by
  obtain ⟨hpast, htaken⟩ := hc.step heof
  obtain ⟨g, hg, hskip⟩ := exists_skipStatement start
  obtain ⟨hgo, hle⟩ := hpast.onward (hg c.advance)
  have hcases : skipStatement start c = .read () c.advance
      ∨ skipStatement start c = skipStatement start c.advance := by
    rw [skipStatement_unfold start hc, skipStatementBody, peek_bind]
    cases hkind : c.current.kind with
    | mark sign =>
        cases sign <;> first
          | exact Or.inl rfl | exact absurd hkind hclose | exact Or.inr rfl
    | eof => exact absurd hkind heof
    | keyword word =>
        rw [hkind] at hword
        refine Or.inr ?_
        show (if startsStatement (.keyword word) = true
          ∧ start < c.taken then pure ()
          else (advance >>= fun _ => skipStatement start) : Reading Unit) c = _
        rw [if_neg (by simp [hword])]
        rfl
    | literal _ | ident _ | doc _ => exact Or.inr rfl
  rcases hcases with h | h
  · exact ⟨_, h, hpast, by omega⟩
  · refine ⟨g c.advance, ?_, hgo, by omega⟩
    rw [h, hskip]

theorem attempt_eq_resume {β : Type} {r : Reading α} {good : α → Reading β}
    {skip : Reading Unit} {again spent : Reading β}
    {f : Except Fault α → Reading β} (hok : ∀ a, f (.ok a) = good a)
    (herror : ∀ why, f (.error why) = do
    if ← record why then skip; again else spent) :
    (attempt r >>= f) = resume r good skip again spent :=
  funext fun _ => attempt_bind_eq_resume hok herror

/-- A statement. One that fails is recorded and skipped; when there is no room
for another fault, so is everything. -/
def stmtsBody (stmt : Reading Stmt) (again : Unit → Reading (List Stmt))
    (_ : Unit) : Reading (List Stmt) := do
  skipDocs
  match ← peek with
  | .mark .rBrace =>
    advance
    return []
  | .eof => expected (.mark .rBrace)
  | _ =>
    let start ← taken
    resume stmt (fun stmt => do let stmts ← again (); return stmt :: stmts)
      (skipStatement start) (again ()) (do skipAll; return [])

theorem stmtsWithin_succ (n : Nat) :
    stmtsWithin (n + 1) = stmtsBody (stmtWithin n) (fun _ =>
      stmtsWithin n) () := by
  rw [stmtsWithin, stmtsBody]
  refine congrArg (skipDocs >>= ·) (funext fun _ =>
    congrArg (peek >>= ·) (funext fun kind => ?_))
  cases kind with
  | mark sign =>
      cases sign <;> first
        | rfl
        | exact congrArg (taken >>= ·) (funext fun _ =>
            attempt_eq_resume (fun _ => rfl) fun _ => rfl)
  | eof => rfl
  | literal _ | ident _ | doc _ | keyword _ =>
      exact congrArg (taken >>= ·) (funext fun _ =>
        attempt_eq_resume (fun _ => rfl) fun _ => rfl)

/-- A reader of statements does not fail at a keyword that starts one. -/
def LeavesKeyword (all : List Token) (b : Nat) (stmt : Reading Stmt) : Prop :=
  ∀ {c c' : Cursor} {why : Fault}, c.On all → b ≤ c.taken →
    startsStatement c.current.kind = true → stmt c = .failed why c' →
    c.taken ≠ c'.taken

theorem runs_stmts {stmt stmt' : Reading Stmt}
    {k k' : Unit → Reading (List Stmt)}
    (hstmt : ∀ a, b ≤ a → Agree all a (a + 1) anyToken stmt stmt')
    (hleaves : LeavesKeyword all b stmt) :
    Runs all b k k' b b anyToken (stmtsBody stmt k ())
      (stmtsBody stmt' k' ()) := by
  refine .bind agree_skipDocs fun _ => .peek_bind fun kind => ?_
  split
  · exact .advance_bind nofun (.pure (Nat.le_succ _))
  · exact .expected
  · next hclose heof =>
      refine .taken_bind fun start hstart => .resume
        (fun a ha => (hstmt a (Nat.le_trans hstart ha)).of_any)
        (fun stmt => .again_bind (by omega)) ?_ (.again (by omega))
        (.bind agree_skipAll fun _ => .pure hstart)
      intro c c₂ c₃ why hc hle hnext hfail hback hc₃ htaken
      by_cases hmoved : start < c₃.taken
      · obtain ⟨g, hg, hskip⟩ := exists_skipStatement start
        obtain ⟨hc₄, hle₄⟩ := hc₃.onward (hg c₃)
        exact ⟨g c₃, by rw [hskip], hc₄, by omega⟩
      · -- the statement failed at its first token, which is no keyword of one
        have hsame : c₃.current = c.current := hc₃.current_eq hc (by omega)
        have hword : startsStatement c.current.kind = false := by
          rw [Bool.eq_false_iff]
          intro hword
          exact hleaves hc (Nat.le_trans hstart hle) hword hfail (by omega)
        rw [← hsame] at hnext hword
        obtain ⟨c₄, hskip, hc₄, hlt⟩ := exists_skipStatement_past start hc₃
          (by rw [hnext]; exact hclose) (by rw [hnext]; exact heof) hword
        exact ⟨c₄, hskip, hc₄, by omega⟩

/-- The readers of statements agree where their allowances do. -/
structure AgreeStmts (all : List Token) (n m : Nat) : Prop where
  body : ∀ {b}, Allows all 1 n m b →
    Agree all b (b + 1) anyToken (bodyWithin n) (bodyWithin m)
  cond : ∀ {b}, Allows all 2 n m b →
    Agree all b (b + 1) anyToken (ifWithin n) (ifWithin m)
  stmt : ∀ {b}, Allows all 3 n m b →
    Agree all b (b + 1) anyToken (stmtWithin n) (stmtWithin m)
  stmts : ∀ {b}, Allows all 4 n m b →
    Agree all b b anyToken (stmtsWithin n) (stmtsWithin m)

theorem AgreeStmts.stmt_succ (h : AgreeStmts all n m)
    (hallow : Allows all 3 (n + 1) (m + 1) b) :
    Agree all b (b + 1) anyToken (stmtWithin (n + 1)) (stmtWithin (m + 1)) := by
  refine .offset_bind fun start => .peek_bind fun kind => ?_
  split
  · exact .advance_bind nofun (.bind_moved agree_binding fun _ =>
        .spanFrom_bind fun _ =>
      .pure (by omega))
  · exact .advance_bind nofun (.bind_moved agree_binding fun _ =>
        .spanFrom_bind fun _ =>
      .pure (by omega))
  · exact .advance_bind nofun (.bind_moved agree_binding fun _ =>
        .spanFrom_bind fun _ =>
      .pure (by omega))
  · exact .advance_bind nofun
      (.eat_bind nofun (.spanFrom_bind fun _ => .pure (by omega))
        (.bind_moved agree_expr fun _ =>
          .mark_bind (.spanFrom_bind fun _ => .pure (by omega))))
  · exact (h.cond (by omega)).of_any
  · exact .advance_bind nofun (.name_bind fun _ =>
      .keyword_bind (.bind_moved agree_expr fun _ =>
        .bind_moved (h.body (by omega)) fun _ =>
          .spanFrom_bind fun _ => .pure (by omega)))
  · exact .bind_moved agree_expr.of_any fun _ =>
      .mark_bind (.spanFrom_bind fun _ =>
      .pure (by omega))

theorem AgreeStmts.cond_succ (h : AgreeStmts all n m)
    (hallow : Allows all 2 (n + 1) (m + 1) b) :
    Agree all b (b + 1) anyToken (ifWithin (n + 1)) (ifWithin (m + 1)) := by
  refine .offset_bind fun start =>
    .keyword_bind (.bind_moved agree_expr fun test =>
    .bind_moved (h.body (by omega)) fun body =>
      .eat_bind nofun (.peek_bind fun kind => ?_) (.spanFrom_bind fun _ =>
        .pure (by omega)))
  split
  · exact .bind_moved (h.cond (by omega)).of_any fun _ =>
      .spanFrom_bind fun _ => .pure (by omega)
  · exact .bind_moved (h.body (by omega)).of_any fun _ =>
      .spanFrom_bind fun _ => .pure (by omega)

theorem leavesKeyword_stmtWithin {stmt' : Reading Stmt}
    (hn : 4 * all.length + 3 ≤ n + 4 * b + 4)
    (hstmt : Agree all b (b + 1) anyToken (stmtWithin n) stmt') :
    LeavesKeyword all b (stmtWithin n) := by
  intro c c' why hc hb hword hfail hsame
  have hlength := hc.length
  obtain ⟨l, rfl⟩ : ∃ l, n = l + 2 := ⟨n - 2, by omega⟩
  have hlt := length_lt_of_failed_stmt hc.closed hword hfail
  obtain ⟨-, hgoes⟩ := hstmt.apply hc hb trivial
  rw [hfail] at hgoes
  have hlength' := hgoes.1.length
  omega

theorem agreeStmts : ∀ n m : Nat, AgreeStmts all n m
  | 0, m => by
      constructor <;> intros <;> exact .absurd (by omega)
  | n + 1, 0 => by
      constructor <;> intros <;> exact .absurd (by omega)
  | n + 1, m + 1 => by
      have ih := agreeStmts n m
      refine ⟨fun h => ?_, ih.cond_succ, ih.stmt_succ, fun h => ?_⟩
      · exact .bind_moved .mark fun _ => ih.stmts (by omega)
      · rw [stmtsWithin_succ, stmtsWithin_succ]
        exact (runs_stmts (fun a ha => ih.stmt (by omega))
          (leavesKeyword_stmtWithin (by omega) (ih.stmt (by omega)))).close
            fun _ => ih.stmts (by omega)

def stmt : Reading Stmt := fun c => stmtWithin (4 * c.ahead.length + 4) c

theorem agree_stmtWithin (h : Allows all 3 n n b) :
    Agree all b (b + 1) anyToken (stmtWithin n) stmt :=
  .of_length (fun _ => stmtWithin n) (fun l => stmtWithin (4 * l + 4))
    fun _ _ _ _ => ((agreeStmts _ _).stmt (by omega)).weaken (by omega)

theorem agree_stmt : Agree all b (b + 1) anyToken stmt stmt :=
  .of_length (fun l => stmtWithin (4 * l + 4)) (fun l => stmtWithin (4 * l + 4))
    fun _ _ _ _ => ((agreeStmts _ _).stmt (by omega)).weaken (by omega)

theorem leavesKeyword_stmt : LeavesKeyword all b stmt := by
  intro c c' why hc hb hword hfail
  have hlength := hc.length
  exact leavesKeyword_stmtWithin (b := c.taken) (by omega)
    (agree_stmtWithin (by omega)) hc (Nat.le_refl _) hword hfail

theorem loop_stmts :
    Loop all (stmtsBody stmt) fun _ c =>
      stmtsWithin (4 * c.ahead.length + 4) c :=
  .of_within (fun n _ => stmtsWithin n) (fun n => stmtsBody (stmtWithin n))
    (fun n _ => stmtsWithin_succ n) (fun _ h => (agreeStmts _ _).stmts h)
    (fun _ _ _ _ => runs_stmts (fun _ _ => agree_stmtWithin (by omega))
      (leavesKeyword_stmtWithin (by omega) (agree_stmtWithin (by omega))))
    fun _ _ _ => runs_stmts (fun _ _ => agree_stmt) leavesKeyword_stmt

theorem agree_body : Agree all b (b + 1) anyToken body body :=
  .of_length (fun l => bodyWithin (4 * l + 4)) (fun l => bodyWithin (4 * l + 4))
    fun _ _ _ _ => ((agreeStmts _ _).body (by omega)).weaken (by omega)

/-! ## Items -/

theorem agree_openDirective :
    Agree all b (b + 1) anyToken openDirective openDirective := by
  refine .offset_bind fun start =>
    .keyword_bind (.bind_moved agree_path fun space =>
    .eat_bind nofun ?_ ?_)
  · exact .bind_moved (.bind_moved agree_path fun _ => .pure (Nat.le_refl _))
      fun asName => .mark_bind (.spanFrom_bind fun _ => .pure (by omega))
  · exact .bind (.pure (Nat.le_refl _)) fun asName =>
      .mark_bind (.spanFrom_bind fun _ => .pure (by omega))

theorem agree_attr : Agree all b (b + 1) anyToken attr attr := by
  refine .offset_bind fun start =>
    .mark_bind (.bind_moved agree_path fun name =>
    .mark_bind (.peek_bind fun kind => ?_))
  split
  · exact .advance_bind nofun (.bind (.pure (Nat.le_refl _)) fun _ => .mark_bind
      (.spanFrom_bind fun _ => .pure (by omega)))
  · exact .bind (.pure (Nat.le_refl _)) fun _ => .mark_bind
      (.spanFrom_bind fun _ => .pure (by omega))
  · exact .bind .expected fun _ =>
      .mark_bind (.spanFrom_bind fun _ => .pure (by omega))

/-- An attribute and the documentation behind it. -/
def attributesBody (again : Unit → Reading (List Attribute × Doc)) (_ : Unit) :
    Reading (List Attribute × Doc) := do
  if (← peek) = .mark .at then
    let first ← attr
    let doc ← docs
    let (others, moreDoc) ← again ()
    return (first :: others, doc ++ moreDoc)
  return ([], [])

theorem counted_attributes : Counted all attributesBody fun n _ =>
      attributesUpTo n where
  succ _ _ := rfl
  runs b k k' _ := by
    refine .peek_bind fun kind => ?_
    split
    · exact .bind_moved agree_attr.of_any fun first =>
        .bind agree_docs fun doc =>
        .again_bind (by omega)
    · exact .pure (Nat.le_refl _)
  zero k _ c hc heof := by
    rw [attributesBody, peek_bind, heof]
    rfl

/-- A parameter, and a comma if there is another. -/
def paramsBody (again : Unit → Reading (List Param)) (_ : Unit) :
    Reading (List Param) := do
  match ← peek with
  | .mark .rParen | .eof => return []
  | _ =>
    let start ← offset
    let target ← name
    mark .colon
    let type ← type
    let param : Param := ⟨target, type, ← spanFrom start⟩
    if ← eat (.mark .comma) then
      let params ← again ()
      return param :: params
    return [param]

theorem counted_params : Counted all paramsBody fun n _ => paramsUpTo n where
  succ _ _ := rfl
  runs b k k' _ := by
    refine .peek_bind fun kind => ?_
    split
    · exact .pure (Nat.le_refl _)
    · exact .pure (Nat.le_refl _)
    · exact .offset_bind fun _ => .name_bind fun _ =>
        .mark_bind (.bind_moved agree_type fun _ =>
        .spanFrom_bind fun _ =>
          .eat_bind nofun (.again_bind (by omega)) (.pure (by omega)))
  zero k _ c hc heof := by
    rw [paramsBody, peek_bind, heof]
    rfl

theorem agree_attributes : Agree all b b anyToken attributes attributes :=
  counted_attributes.agree_length ()

theorem agree_params : Agree all b b anyToken params params :=
  counted_params.agree_length ()

theorem agree_bodyOrHeader :
    Agree all b (b + 1) anyToken bodyOrHeader bodyOrHeader := by
  refine .eat_bind nofun (.pure (Nat.le_refl _)) (.peek_bind fun kind => ?_)
  split
  · exact .bind_moved agree_body.of_any fun _ => .pure (Nat.le_refl _)
  · exact .expected

theorem agree_newtype (ctx : Context) (doc : Doc)
    (attributes : List Attribute) :
    Agree all b (b + 1) anyToken (newtype ctx doc attributes)
      (newtype ctx doc attributes) :=
  .offset_bind fun _ =>
    .keyword_bind (.name_bind fun _ => .mark_bind (.bind_moved agree_type
    fun _ => .mark_bind (.spanFrom_bind fun _ => .pure (by omega))))

theorem agree_callable {kind : Kind} (hkind : kind ≠ .eof) (ctx : Context)
    (what : CallableKind) (doc : Doc) (attributes : List Attribute) :
    Agree all b (b + 1) (fun t => t.kind = kind)
      (callable ctx what doc attributes)
      (callable ctx what doc attributes) :=
  .offset_bind fun _ => .advance_bind hkind (.name_bind fun _ => .mark_bind
    (.bind agree_params fun _ =>
        .mark_bind (.mark_bind (.bind_moved agree_type fun _ =>
      .bind_moved agree_bodyOrHeader fun _ => .spanFrom_bind fun _ =>
        .pure (by omega)))))

theorem agree_specialization {kind : Kind} (hkind : kind ≠ .eof) (ctx : Context)
    (variant : Variant) (doc : Doc) :
    Agree all b (b + 1) (fun t => t.kind = kind)
      (specialization ctx variant doc)
      (specialization ctx variant doc) :=
  .offset_bind fun _ => .advance_bind hkind (.bind_moved agree_path fun _ =>
    .bind_moved agree_bodyOrHeader fun _ => .spanFrom_bind fun _ =>
      .pure (by omega))

theorem agree_attributed (ctx : Context) (doc : Doc) :
    Agree all b (b + 1) anyToken (attributed ctx doc) (attributed ctx doc) := by
  refine .bind agree_attributes fun p => .peek_bind fun kind => ?_
  split
  · exact (agree_newtype ..).of_any
  · exact agree_callable (by simp) ..
  · exact agree_callable (by simp) ..
  · exact .expected

theorem agree_item (ctx : Context) (doc : Doc) :
    Agree all b (b + 1) anyToken (item ctx doc) (item ctx doc) := by
  refine .peek_bind fun kind => ?_
  have hattributed : Agree all b (b + 1) (fun t => t.kind = kind)
      (attributed ctx doc >>= fun d => pure (Item.decl d))
      (attributed ctx doc >>= fun d => pure (Item.decl d)) :=
    .bind_moved (agree_attributed ctx doc).of_any fun _ => .pure (Nat.le_refl _)
  split
  · exact .bind_moved agree_openDirective.of_any fun _ => .pure (Nat.le_refl _)
  · exact .fault nofun
  · exact .bind_moved (agree_specialization (by simp) ..) fun _ =>
      .pure (Nat.le_refl _)
  · exact .bind_moved (agree_specialization (by simp) ..) fun _ =>
      .pure (Nat.le_refl _)
  · exact hattributed
  · exact hattributed
  · exact hattributed
  · exact hattributed
  · exact .expected

/-! ## Blocks -/

/-- Skipping goes past the place where the item started. -/
theorem exists_skipItem_past {start : Nat} {c : Cursor} (hc : c.On all)
    (hstart : start ≤ c.taken)
    (heof : c.taken = start → c.current.kind ≠ .eof) :
    ∃ c', skipItem start c = .read () c' ∧ c'.On all ∧ start < c'.taken := by
  obtain ⟨hc₁, hle⟩ := hc.onward (Cursor.onward_skipItemFrom start c.ahead 0 c)
  rw [skipItem]
  generalize skipItemFrom start 0 c.ahead c = c₁ at hc₁ hle
  by_cases hstuck : c₁.taken = start
  · have hsame : c₁.current = c.current := hc₁.current_eq hc (by omega)
    obtain ⟨hpast, htaken⟩ := hc₁.step (by rw [hsame]; exact heof (by omega))
    exact ⟨c₁.advance, by rw [if_pos hstuck], hpast, by omega⟩
  · exact ⟨c₁, by rw [if_neg hstuck], hc₁, by omega⟩

/-- An item. One that fails is recorded and skipped, as long as there is room
for another fault. -/
def itemsBody (origin : Origin) (again : Block → Reading (Block × Ending))
    (block : Block) :
    Reading (Block × Ending) := do
  let start ← taken
  let doc ← docs
  match ← peek with
  | .mark .rBrace | .eof => return (block, .closed)
  | _ =>
    resume (item ⟨origin, block.name⟩ doc) (fun i => again (i.addTo block))
      (skipItem start) (again block) (return (block, .spent))

/-- A namespace block or an item outside namespaces, in the same way. -/
def fileBody (origin : Origin) (again : Draft → Reading Draft) (draft : Draft) :
    Reading Draft := do
  let start ← taken
  let doc ← docs
  match ← peek with
  | .eof => return draft
  | _ =>
    resume (topLevel origin draft doc) again (skipItem start) (again draft)
      (return draft)

/-- Behind an item that failed, skipping moves. -/
theorem skips_item {r : Reading α} {start : Nat} {kind : Kind}
    (hkind : kind ≠ .eof) {c c₂ c₃ : Cursor} {why : Fault} (hc : c.On all)
    (hstart : start ≤ c.taken) (hnext : c.current.kind = kind)
    (_ : r c = .failed why c₂) (hback : c.taken ≤ c₂.taken) (hc₃ : c₃.On all)
    (htaken : c₃.taken = c₂.taken) :
    ∃ c₄, skipItem start c₃ = .read () c₄ ∧ c₄.On all ∧ start < c₄.taken := by
  refine exists_skipItem_past hc₃ (by omega) fun hstuck => ?_
  rw [hc₃.current_eq hc (by omega), hnext]
  exact hkind

/-- Without documentation ahead, none is read. -/
theorem docs_of_eof {c : Cursor} (hc : c.On all)
    (heof : c.current.kind = .eof) :
    docs c = .read [] c := by
  have hlength := hc.length
  have hbody := counted_docs.apply (n := c.ahead.length) hc (by omega) ()
  rw [docsBody, peek_bind, heof] at hbody
  exact hbody

theorem counted_items (origin : Origin) :
    Counted all (itemsBody origin) (itemsUpTo origin) where
  succ n block := by
    rw [itemsUpTo, itemsBody]
    refine congrArg (taken >>= ·) (funext fun start =>
        congrArg (docs >>= ·) (funext fun doc =>
      congrArg (peek >>= ·) (funext fun kind => ?_)))
    cases kind with
    | mark sign =>
        cases sign <;> first
          | rfl | exact attempt_eq_resume (fun _ => rfl) fun _ => rfl
    | eof => rfl
    | literal _ | ident _ | doc _ | keyword _ =>
        exact attempt_eq_resume (fun _ => rfl) fun _ => rfl
  runs b k k' block := by
    refine .taken_bind fun start hstart => .bind agree_docs fun doc =>
      .peek_bind fun kind => ?_
    split
    · exact .pure hstart
    · exact .pure hstart
    · next heof =>
        exact .resume (fun _ _ => (agree_item ..).of_any)
          (fun i => .again (by omega)) (skips_item heof)
          (.again (by omega)) (.pure hstart)
  zero k block c hc heof := by
    rw [itemsBody, taken_bind, bind_of_read (docs_of_eof hc heof),
      peek_bind, heof]
    rfl

theorem agree_namespaceBlock (origin : Origin) (doc : Doc) :
    Agree all b (b + 1) anyToken (namespaceBlock origin doc)
      (namespaceBlock origin doc) := by
  refine .offset_bind fun start =>
    .keyword_bind (.bind_moved agree_path fun name => .mark_bind ?_)
  have hitems : ∀ a (block : Block), Agree all a a anyToken
      (fun c => itemsUpTo origin (c.ahead.length + 1) block c)
      (fun c => itemsUpTo origin (c.ahead.length + 1) block c) := fun a block =>
    .of_length (fun l => itemsUpTo origin (l + 1) block)
      (fun l => itemsUpTo origin (l + 1) block)
      fun _ _ ha _ =>
        ((counted_items origin).agree block (by omega) (by omega)).weaken ha
  refine .bind (hitems _ _) fun p => ?_
  obtain ⟨block, ending⟩ := p
  cases ending with
  | spent => exact .pure (by omega)
  | closed => exact .mark_bind (.spanFrom_bind fun _ => .pure (by omega))

theorem agree_topLevel (origin : Origin) (draft : Draft) (doc : Doc) :
    Agree all b (b + 1) anyToken (topLevel origin draft doc)
      (topLevel origin draft doc) := by
  refine .peek_bind fun kind => ?_
  split
  · exact .bind_moved (agree_namespaceBlock origin doc).of_any fun _ =>
      .pure (Nat.le_refl _)
  · exact .bind_moved (agree_item ..).of_any fun _ => .pure (Nat.le_refl _)

theorem counted_file (origin : Origin) :
    Counted all (fileBody origin) (topLevelsUpTo origin) where
  succ n draft := by
    rw [topLevelsUpTo, fileBody]
    refine congrArg (taken >>= ·) (funext fun start =>
        congrArg (docs >>= ·) (funext fun doc =>
      congrArg (peek >>= ·) (funext fun kind => ?_)))
    cases kind with
    | eof => rfl
    | literal _ | ident _ | doc _ | keyword _ | mark _ =>
        exact attempt_eq_resume (fun _ => rfl) fun _ => rfl
  runs b k k' draft := by
    refine .taken_bind fun start hstart => .bind agree_docs fun doc =>
      .peek_bind fun kind => ?_
    split
    · exact .pure hstart
    · next heof =>
        exact .resume (fun _ _ => (agree_topLevel ..).of_any)
          (fun d => .again (by omega)) (skips_item heof)
          (.again (by omega)) (.pure hstart)
  zero k draft c hc heof := by
    rw [fileBody, taken_bind, bind_of_read (docs_of_eof hc heof),
      peek_bind, heof]
    rfl

/-- A text is read, whatever faults it has. -/
theorem exists_topLevelsUpTo (origin : Origin) :
    ∀ (n : Nat) (draft : Draft) (c : Cursor),
    ∃ draft' c', topLevelsUpTo origin n draft c = .read draft' c'
  | 0, draft, c => ⟨draft, c, rfl⟩
  | n + 1, draft, c => by
      obtain ⟨lines, c₁, hdocs, -⟩ := exists_docs c
      rcases topLevelsUpTo_cases origin n draft hdocs with ⟨-, h⟩ | ⟨-, h⟩
      · exact ⟨draft, c₁, h⟩
      rw [h]
      rcases resume_cases (topLevel origin draft lines) (topLevelsUpTo origin n)
        (skipItem c.taken)
          (topLevelsUpTo origin n draft) (pure draft) c₁ with
        ⟨next, c₂, -, h⟩ | ⟨why, c₂, -, h | ⟨c', h, -⟩⟩
      · rw [h]
        exact exists_topLevelsUpTo origin n next c₂
      · obtain ⟨g, -, hskip⟩ := exists_skipItem c.taken
        rw [h, bind_of_read (congrFun hskip _)]
        exact exists_topLevelsUpTo origin n draft _
      · exact ⟨draft, c', h⟩

/-! ## All loops -/

theorem loop_skipItem (start : Nat) :
    Loop all (skipItemBody start) fun depth c =>
      .read () (skipItemFrom start depth c.ahead c) :=
  ⟨fun depth _ hc => skipItemFrom_unfold start depth hc fun _ => rfl,
    fun _ _ depth _ hc => runs_skipItem start depth hc (Nat.le_refl _) trivial⟩

theorem loop_skipStatement (start : Nat) :
    Loop all (skipStatementBody start) fun _ => skipStatement start :=
  ⟨fun _ _ hc => skipStatement_unfold start hc,
    fun _ _ _ _ hc => runs_skipStatement start hc (Nat.le_refl _) trivial⟩

/-- The loops of the grammar, without their allowances. -/
structure Loops (all : List Token) (origin : Origin) : Prop where
  file : Loop all (fileBody origin) fun draft c =>
    topLevelsUpTo origin (c.ahead.length + 1) draft c
  items : Loop all (itemsBody origin) fun block c =>
    itemsUpTo origin (c.ahead.length + 1) block c
  stmts : Loop all (stmtsBody stmt) fun _ c =>
    stmtsWithin (4 * c.ahead.length + 4) c
  params : Loop all paramsBody fun _ => params
  types : Loop all (typesBody type) fun _ c =>
    typesWithin (4 * c.ahead.length + 4) c
  exprs : ∀ close, Loop all (exprsBody expr close) fun _ => exprList close
  tuple : Loop all (tupleBody expr) fun _ c =>
    tupleRestWithin (4 * c.ahead.length + 4) c
  operators : ∀ least start,
    Loop all (operatorsBody exprList exprAbove least start)
    fun left c => operatorsWithin (4 * c.ahead.length + 4) least start left c
  arrays : Loop all arraysBody fun type c => arraySuffixes c.ahead.length type c
  attributes : Loop all attributesBody fun _ => attributes
  docs : Loop all docsBody fun _ => docs
  path : Loop all pathBody fun path c => pathRest c.ahead.length path c
  /-- Going on after an item that failed. -/
  skipItem : ∀ start, Loop all (skipItemBody start)
    fun depth c => .read () (skipItemFrom start depth c.ahead c)
  /-- Going on after a statement that failed. -/
  skipStatement : ∀ start, Loop all (skipStatementBody start) fun _ =>
    skipStatement start

theorem loops (all : List Token) (origin : Origin) : Loops all origin where
  file := (counted_file origin).loop 1
  items := (counted_items origin).loop 1
  stmts := loop_stmts
  params := counted_params.loop 0
  types := loop_types
  exprs := loop_exprs
  tuple := loop_tuple
  operators := loop_operators
  arrays := counted_arrays.loop 0
  attributes := counted_attributes.loop 0
  docs := counted_docs.loop 0
  path := counted_path.loop 0
  skipItem := loop_skipItem
  skipStatement := loop_skipStatement

end Reading

/-! ## Whole texts -/

/-- No token starts before one that comes before it. -/
def InOrder (tokens : List Token) : Prop :=
  tokens.Pairwise fun t t' => t.span.start ≤ t'.span.start

instance (tokens : List Token) : Decidable (InOrder tokens) :=
  inferInstanceAs
    (Decidable (tokens.Pairwise fun t t' => t.span.start ≤ t'.span.start))

theorem start_le_of_inOrder {all : List Token} (horder : InOrder all)
    {p q : Nat} {s s' : Span} (hle : p ≤ q)
    (hs : all[p]?.map Token.span = some s)
    (hs' : all[q]?.map Token.span = some s') :
    s.start ≤ s'.start := by
  obtain ⟨t, ht, rfl⟩ := Option.map_eq_some_iff.mp hs
  obtain ⟨t', ht', rfl⟩ := Option.map_eq_some_iff.mp hs'
  obtain ⟨hp, rfl⟩ := List.getElem?_eq_some_iff.mp ht
  obtain ⟨hq, rfl⟩ := List.getElem?_eq_some_iff.mp ht'
  rcases Nat.lt_or_eq_of_le hle with hlt | rfl
  · exact List.pairwise_iff_getElem.mp horder p q hp hq hlt
  · exact Nat.le_refl _

/-- Faults of tokens in order are in order. -/
theorem FoundUpTo.pairwise {all : List Token} {i : Nat} {faults : List Fault}
    (h : FoundUpTo all i faults) (horder : InOrder all) :
    faults.Pairwise fun f f' => f.span.start ≤ f'.span.start := by
  obtain ⟨places, hsorted, -, hfound⟩ := h
  induction hfound with
  | nil => exact .nil
  | @cons f p fs ps hf hfs ih =>
      obtain ⟨hfirst, hrest⟩ := List.pairwise_cons.mp hsorted
      refine .cons (fun f' hf' => ?_) (ih hrest)
      obtain ⟨i, hi, rfl⟩ := List.mem_iff_getElem.mp hf'
      have hlength : i < ps.length := hfs.length_eq ▸ hi
      exact start_le_of_inOrder horder (hfirst _ (List.getElem_mem hlength))
        hf.1 (hfs.get hi hlength).1

theorem inOrder_ended {tokens : List Token} (h : InOrder tokens)
    (hlast : ∀ t ∈ tokens.getLast?, t.span.start ≤ t.span.stop) :
    InOrder (ended tokens) := by
  rcases List.eq_nil_or_concat tokens with rfl | ⟨front, t, rfl⟩
  · exact List.pairwise_singleton ..
  · rw [List.concat_eq_append] at h hlast ⊢
    rw [List.getLast?_concat] at hlast
    have hall :
        InOrder ((front ++ [t]) ++ [⟨.eof, ⟨t.span.stop, t.span.stop⟩⟩]) := by
      refine List.pairwise_append.mpr ⟨h, List.pairwise_singleton ..,
        fun t₁ ht₁ t₂ ht₂ => ?_⟩
      rw [List.mem_singleton.mp ht₂]
      refine Nat.le_trans ?_ (hlast t rfl)
      rcases List.mem_append.mp ht₁ with ht₁ | ht₁
      · exact (List.pairwise_append.mp h).2.2 t₁ ht₁ t
          (List.mem_singleton_self t)
      · exact Nat.le_of_eq (by rw [List.mem_singleton.mp ht₁])
    rw [ended, List.getLast?_concat]
    split
    · exact h
    · next heq =>
        obtain rfl := Option.some.inj heq
        exact hall
    · next heq => cases heq

open Reading in
theorem Parsed.faults_ofTokens {tokens : List Token} {origin : Origin}
    {draft : Draft} {c : Cursor}
    (h : topLevelsUpTo origin ((Cursor.ofTokens tokens).ahead.length + 1)
      emptyDraft (Cursor.ofTokens tokens) = .read draft c) :
    (Parsed.ofTokens tokens origin).faults = c.faults := by
  unfold Parsed.ofTokens
  rw [emptyDraft] at h
  dsimp only
  rw [h]
  dsimp only
  split <;> rfl

open Reading in
/-- With any allowance that is large enough, the reader of texts comes to the
same place. -/
theorem Parsed.exists_run (tokens : List Token) (origin : Origin) : ∃ draft c,
    (∀ n, (ended tokens).length ≤ n + 1 →
      topLevelsUpTo origin n emptyDraft (Cursor.ofTokens tokens)
        = .read draft c)
    ∧ c.On (ended tokens) ∧ (ofTokens tokens origin).faults = c.faults := by
  have hstart := Cursor.on_ofTokens tokens
  have hlength := hstart.length
  generalize hc₀ : Cursor.ofTokens tokens = start at hstart hlength
  obtain ⟨draft, c, hrun⟩ :=
    exists_topLevelsUpTo origin (start.ahead.length + 1) emptyDraft start
  have hagree : ∀ n, (ended tokens).length ≤ n + 1 →
      topLevelsUpTo origin n emptyDraft start = .read draft c
        ∧ Goes (ended tokens) start.taken start.taken
          (topLevelsUpTo origin n emptyDraft start) := by
    intro n hn
    obtain ⟨hsame, hgoes⟩ :=
      ((counted_file origin).agree (n := n) (m := start.ahead.length + 1)
        (b := start.taken) emptyDraft (by omega) (by omega)).apply hstart
          (Nat.le_refl _) trivial
    exact ⟨hsame.trans hrun, hgoes⟩
  obtain ⟨hsame, hgoes⟩ := hagree (ended tokens).length (Nat.le_succ _)
  rw [hsame] at hgoes
  exact ⟨draft, c, fun n hn => (hagree n hn).1, hgoes.1,
    faults_ofTokens (hc₀ ▸ hrun)⟩

/-- Faults are found at tokens, in their order. -/
theorem Parsed.found_ofTokens (tokens : List Token) (origin : Origin) :
    FoundUpTo (ended tokens) (ended tokens).length
      (ofTokens tokens origin).faults := by
  obtain ⟨draft, c, -, hc, hfaults⟩ := exists_run tokens origin
  have hlength := hc.length
  rw [hfaults]
  exact hc.found.mono (by omega)

open Reading in
/-- Reading ends, in bounds and in order, whatever the tokens are. The cursor is
always at a place of the list, and the two ways there are to move it do not move
it back. Of each loop, every iteration passes a token or is the last. A larger
allowance changes nothing. At most twenty faults are recorded, each at a token
and none before another that was recorded earlier. -/
theorem Parsed.ofTokens_ends (tokens : List Token) (origin : Origin) :
    let all := ended tokens
    let start := Cursor.ofTokens tokens
    let faults := (Parsed.ofTokens tokens origin).faults
    (start.On all ∧ ∀ c : Cursor, c.On all → all[c.taken]? = some c.current
        ∧ ∀ c' ∈ [c.advance, c.toLast], c'.On all ∧ c.taken ≤ c'.taken)
      ∧ Loops all origin
      ∧ (∀ n draft c, After (fileBody origin) n emptyDraft start draft c →
        n < all.length)
      ∧ (∃ draft c, (∀ n, all.length ≤ n + 1 →
            topLevelsUpTo origin n emptyDraft start = .read draft c)
          ∧ c.On all ∧ faults = c.faults)
      ∧ faults.length ≤ 20 ∧ FoundUpTo all all.length faults
      ∧ (InOrder all → faults.Pairwise fun f f' => f.span.start ≤ f'.span.start)
      ∧ (InOrder tokens → (∀ t ∈ tokens.getLast?, t.span.start ≤ t.span.stop) →
          InOrder all) := by
  intro all start faults
  have hstart : start.On all := Cursor.on_ofTokens tokens
  have hlength := hstart.length
  obtain ⟨draft, c, hrun, hc, hfaults⟩ := exists_run tokens origin
  have hfound : FoundUpTo all all.length faults := found_ofTokens tokens origin
  refine ⟨⟨hstart, fun c₁ hc₁ => ⟨hc₁.current, fun c' hc' => ?_⟩⟩,
    loops all origin,
    fun n draft c' hafter => ?_, ⟨draft, c, hrun, hc, hfaults⟩, ?_, hfound,
    hfound.pairwise, inOrder_ended⟩
  · rcases List.mem_cons.mp hc' with rfl | hc'
    · exact hc₁.onward (Cursor.onward_advance c₁)
    · rw [List.mem_singleton.mp hc']
      exact hc₁.onward (Cursor.onward_toLast c₁)
  · obtain ⟨hc', hle⟩ := (loops all origin).file.taken_add_le hstart hafter
    have hlength' := hc'.length
    omega
  · show (ofTokens tokens origin).faults.length ≤ 20
    rw [hfaults]
    exact hc.few

/-- A closing brace that closes nothing, and a directive that breaks off: the
second fault is at the `eof` that was added. -/
def strayTokens : List Token :=
  [⟨.mark .rBrace, ⟨0, 1⟩⟩, ⟨.keyword .open, ⟨2, 6⟩⟩]

theorem Parsed.ofTokens_ends_stray :
    InOrder strayTokens
      ∧ (∀ t ∈ strayTokens.getLast?, t.span.start ≤ t.span.stop)
      ∧ (Parsed.ofTokens strayTokens (.primary "")).faults.map Fault.span
        = [⟨0, 1⟩, ⟨6, 6⟩]
      ∧ (Parsed.ofTokens strayTokens (.primary "")).faults.Pairwise
          fun f f' => f.span.start ≤ f'.span.start := by
  have horder : InOrder strayTokens := by decide
  have hlast : ∀ t ∈ strayTokens.getLast?, t.span.start ≤ t.span.stop := by
    decide
  obtain ⟨-, -, -, -, -, -, hfaults, hended⟩ :=
    Parsed.ofTokens_ends strayTokens (.primary "")
  exact ⟨horder, hlast, by decide +kernel, hfaults (hended horder hlast)⟩

end Exemplar
