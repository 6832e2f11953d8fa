import Exemplar.Grammar.Stmts
import Exemplar.Proofs.Grammar.Exprs

/-!
# Statements are read as written

`StmtForm` relates statements, conditionals and bodies to the texts they can
be written as, with documentation lines between statements. Whatever is so
written is read as those statements, up to spans, and records no fault
(`reads_body`).

A conditional ends where no `else` is ahead. In a body none ever is: what
follows a statement is a line of documentation, a statement or the brace.
-/

namespace Exemplar

open Reading

/-! ## Written forms -/

/-- A statement, a conditional, a body in braces, or what stands in one. -/
inductive StmtPhrase where
  | stmt (s : Stmt)
  | cond (s : Stmt)
  | body (ss : List Stmt)
  | stmts (ss : List Stmt)

def bindingKeyword (isMutable : Bool) : Keyword :=
  if isMutable then .mutable else .let

inductive StmtForm : StmtPhrase → List Kind → Prop where
  | expr {e ks} (value : ExprForm (.expr 0 e) ks) :
      StmtForm (.stmt (.expr .nowhere e)) (ks ++ [.mark .semi])
  | bind {e ks} (name : String) (isMutable : Bool)
      (value : ExprForm (.expr 0 e) ks) :
      StmtForm (.stmt (.bind .nowhere name isMutable e))
        (.keyword (bindingKeyword isMutable) :: .ident name :: .mark .eq
          :: (ks ++ [.mark .semi]))
  | assign {e ks} (name : String) (value : ExprForm (.expr 0 e) ks) :
      StmtForm (.stmt (.assign .nowhere name e))
        (.keyword .set :: .ident name :: .mark .eq :: (ks ++ [.mark .semi]))
  | ret : StmtForm (.stmt (.ret .nowhere none)) [.keyword .return, .mark .semi]
  | retValue {e ks} (value : ExprForm (.expr 0 e) ks) :
      StmtForm (.stmt (.ret .nowhere (some e)))
        (.keyword .return :: (ks ++ [.mark .semi]))
  | loop {e ss ks ks'} (name : String) (items : ExprForm (.expr 0 e) ks)
      (body : StmtForm (.body ss) ks') :
      StmtForm (.stmt (.loop .nowhere name e ss))
        (.keyword .for :: .ident name :: .keyword .in :: (ks ++ ks'))
  | cond {s ks} (h : StmtForm (.cond s) ks) : StmtForm (.stmt s) ks
  | ifThen {e ss ks ks'} (test : ExprForm (.expr 0 e) ks)
      (body : StmtForm (.body ss) ks') :
      StmtForm (.cond (.ifThen .nowhere e ss)) (.keyword .if :: (ks ++ ks'))
  | ifElse {e ss os ks ks' ks''} (test : ExprForm (.expr 0 e) ks)
      (body : StmtForm (.body ss) ks') (other : StmtForm (.body os) ks'') :
      StmtForm (.cond (.ifElse .nowhere e ss os))
        (.keyword .if :: (ks ++ (ks' ++ .keyword .else :: ks'')))
  | elseIf {e ss o ks ks' ks''} (test : ExprForm (.expr 0 e) ks)
      (body : StmtForm (.body ss) ks') (other : StmtForm (.cond o) ks'') :
      StmtForm (.cond (.ifElse .nowhere e ss [o]))
        (.keyword .if :: (ks ++ (ks' ++ .keyword .else :: ks'')))
  | body {ss ks} (stmts : StmtForm (.stmts ss) ks) :
      StmtForm (.body ss) (.mark .lBrace :: (ks ++ [.mark .rBrace]))
  | nil (lines : List String) : StmtForm (.stmts []) (docKinds lines)
  | cons {s ss ks ks'} (lines : List String) (stmt : StmtForm (.stmt s) ks)
      (stmts : StmtForm (.stmts ss) ks') :
      StmtForm (.stmts (s :: ss)) (docKinds lines ++ (ks ++ ks'))

/-- Conditionals start with their keyword. -/
theorem StmtForm.starts_cond {s : Stmt} {ks : List Kind}
    (h : StmtForm (.cond s) ks) :
    ∃ ks', ks = .keyword .if :: ks' := by
  cases h with
  | ifThen | ifElse | elseIf => exact ⟨_, rfl⟩

theorem StmtForm.starts {s : Stmt} {ks : List Kind}
    (h : StmtForm (.stmt s) ks) :
    ∃ k ks', ks = k :: ks'
      ∧ (startsExpr k = true ∨ startsStatement k = true) := by
  cases h with
  | expr value =>
      obtain ⟨k, ks', rfl, hk⟩ := value.starts
      exact ⟨k, _, rfl, Or.inl hk⟩
  | bind name isMutable =>
      exact ⟨_, _, rfl, Or.inr (by cases isMutable <;> rfl)⟩
  | assign | ret | retValue | loop => exact ⟨_, _, rfl, Or.inr rfl⟩
  | cond h =>
      obtain ⟨ks', rfl⟩ := h.starts_cond
      exact ⟨_, _, rfl, Or.inr rfl⟩

/-- Bodies start with their brace. -/
theorem StmtForm.starts_body {ss : List Stmt} {ks : List Kind}
    (h : StmtForm (.body ss) ks) :
    ∃ ks', ks = .mark .lBrace :: ks' := by
  cases h with
  | body => exact ⟨_, rfl⟩

/-- No `else` follows a statement in a body. -/
theorem StmtForm.headD_ne_else {ss : List Stmt} {ks : List Kind}
    (h : StmtForm (.stmts ss) ks) (rest : List Kind) :
    (ks ++ .mark .rBrace :: rest).headD .eof ≠ .keyword .else := by
  cases h with
  | nil lines => cases lines <;> simp [docKinds]
  | cons lines stmt stmts =>
      cases lines with
      | nil =>
          obtain ⟨k, ks', rfl, hk⟩ := stmt.starts
          rintro (rfl : k = _)
          rcases hk with hk | hk <;> cases hk
      | cons line lines => simp [docKinds]

/-! ## Reading -/

/-- The phrase is read, where it ends. -/
def StmtPhrase.Read (ks : List Kind) : StmtPhrase → Prop
  | .stmt s => ∀ {n : Nat} {rest : List Kind}, 4 * (ks ++ rest).length + 3 ≤ n →
      rest.headD .eof ≠ .keyword .else →
        Reads (stmtWithin n) (ks ++ rest) rest fun v => v.bare = s
  | .cond s => ∀ {n : Nat} {rest : List Kind}, 4 * (ks ++ rest).length + 2 ≤ n →
      rest.headD .eof ≠ .keyword .else →
        Reads (ifWithin n) (ks ++ rest) rest fun v => v.bare = s
  | .body ss => ∀ {n : Nat} {rest : List Kind},
      4 * (ks ++ rest).length + 1 ≤ n →
      Reads (bodyWithin n) (ks ++ rest) rest fun v => v.map Stmt.bare = ss
  | .stmts ss => ∀ {n : Nat} {rest : List Kind},
      4 * (ks ++ .mark .rBrace :: rest).length + 4 ≤ n →
        Reads (stmtsWithin n) (ks ++ .mark .rBrace :: rest) rest fun v =>
        v.map Stmt.bare = ss

theorem reads_skipDocs_bind {β : Type} {f : Unit → Reading β}
    {rest final : List Kind} {Q : β → Prop} (hrest : NoDocAhead rest)
    (lines : List String) (h : Reads (f ()) rest final Q) :
    Reads (skipDocs >>= f) (docKinds lines ++ rest) final Q :=
  .bind (P := fun _ => True) (.bind (reads_docs hrest lines) fun _ _ =>
    .pure trivial)
    fun _ _ => h

theorem reads_binding {e : Expr} {ks rest : List Kind} (name : String)
    (h : ExprForm (.expr 0 e) ks) :
    Reads binding (.ident name :: .mark .eq :: (ks ++ .mark .semi :: rest)) rest
      fun v => v.1 = name ∧ v.2.bare = e :=
  .name_bind
      (.mark_bind (.bind (reads_expr h (stops_mark _ (by simp) _)) fun _ hv =>
    .mark_bind (.pure ⟨rfl, hv⟩)))

/-- The test and the first body of a conditional, and then what follows. -/
theorem reads_ifWithin {e : Expr} {ss : List Stmt}
    {ks ks' rest final : List Kind} {n : Nat} {Q : Stmt → Prop}
    (htest : ExprForm (.expr 0 e) ks) (hform : StmtForm (.body ss) ks')
    (hbody : StmtPhrase.Read ks' (.body ss))
    (hn : 4 * (.keyword .if :: (ks ++ (ks' ++ rest))).length + 2 ≤ n)
    (hgo : ∀ m start e' ss', m + 1 = n → e'.bare = e → ss'.map Stmt.bare = ss →
      Reads (do
      if ← eat (.keyword .else) then
        if (← peek) = .keyword .if then
          let other ← ifWithin m
          return .ifElse (← spanFrom start) e' ss' [other]
        let other ← bodyWithin m
        return .ifElse (← spanFrom start) e' ss' other
      return .ifThen (← spanFrom start) e' ss') rest final Q) :
    Reads (ifWithin n) (.keyword .if :: (ks ++ (ks' ++ rest))) final Q := by
  cases n with
  | zero => omega
  | succ m =>
      have hread : Reads (bodyWithin m) (ks' ++ rest) rest fun v =>
        v.map Stmt.bare = ss := by
        apply hbody
        rw [List.length_cons, List.length_append] at hn
        omega
      have hstops : Stops 0 (ks' ++ rest) := by
        obtain ⟨ks'', rfl⟩ := hform.starts_body
        exact stops_mark _ (by simp) _
      exact .offset_bind fun start =>
        .keyword_bind (.bind (reads_expr htest hstops)
        fun e' he' => .bind hread fun ss' hss' =>
          hgo m start e' ss' rfl he' hss')

theorem read_stmt_expr {e : Expr} {ks : List Kind}
    (h : ExprForm (.expr 0 e) ks) :
    StmtPhrase.Read (ks ++ [.mark .semi]) (.stmt (.expr .nowhere e)) := by
  intro n rest hn _
  rw [List.append_assoc] at hn ⊢
  have hread : Reads expr (ks ++ .mark .semi :: rest) (.mark .semi :: rest)
      fun v => v.bare = e :=
    reads_expr h (stops_mark _ (by simp) _)
  obtain ⟨k, ks', rfl, hk⟩ := h.starts
  cases n with
  | zero => omega
  | succ n =>
      refine .offset_bind fun start => .peek_bind ?_
      have hgoal : Reads (do
          let value ← expr
          mark .semi
          return .expr (← spanFrom start) value)
            (k :: ks' ++ .mark .semi :: rest) rest
          fun v : Stmt => v.bare = .expr .nowhere e :=
        .bind hread fun v hv =>
          .mark_bind (.spanFrom_bind fun _ => .pure (by rw [Stmt.bare, hv]))
      -- no keyword of a statement starts an expression
      split <;> first | exact hgoal | cases hk

theorem read_stmt_retValue {e : Expr} {ks : List Kind}
    (h : ExprForm (.expr 0 e) ks) :
    StmtPhrase.Read (.keyword .return :: (ks ++ [.mark .semi]))
      (.stmt (.ret .nowhere (some e))) := by
  intro n rest hn _
  rw [List.cons_append, List.append_assoc] at hn ⊢
  have hread : Reads expr (ks ++ .mark .semi :: rest) (.mark .semi :: rest)
      fun v => v.bare = e :=
    reads_expr h (stops_mark _ (by simp) _)
  obtain ⟨k, ks', rfl, hk⟩ := h.starts
  cases n with
  | zero => omega
  | succ n =>
      refine .offset_bind fun start =>
        .peek_bind
          (.advance_bind (.eat_bind_of_ne (ne_of_startsExpr hk (by simp))
            (.bind hread fun v hv =>
          .mark_bind (.spanFrom_bind fun _ => .pure ?_))))
      rw [Stmt.bare, Option.map_some, hv]

theorem read_stmt_loop {e : Expr} {ss : List Stmt} {ks ks' : List Kind}
    (name : String) (hitems : ExprForm (.expr 0 e) ks)
    (hform : StmtForm (.body ss) ks') (hbody : StmtPhrase.Read ks' (.body ss)) :
    StmtPhrase.Read
      (.keyword .for :: .ident name :: .keyword .in :: (ks ++ ks'))
      (.stmt (.loop .nowhere name e ss)) := by
  intro n rest hn _
  simp only [List.cons_append, List.append_assoc, List.length_cons] at hn ⊢
  cases n with
  | zero => omega
  | succ n =>
      have hread : Reads (bodyWithin n) (ks' ++ rest) rest fun v =>
        v.map Stmt.bare = ss := by
        apply hbody
        rw [List.length_append] at hn
        omega
      have hstops : Stops 0 (ks' ++ rest) := by
        obtain ⟨ks'', rfl⟩ := hform.starts_body
        exact stops_mark _ (by simp) _
      refine .offset_bind fun start =>
        .peek_bind
            (.advance_bind
              (.name_bind
                (.keyword_bind (.bind (reads_expr hitems hstops) fun e' he' =>
                  .bind hread fun ss' hss' =>
          .spanFrom_bind fun _ => .pure ?_))))
      rw [Stmt.bare, he', Stmt.bareAll_eq_map, hss']

section Conditionals

variable {e : Expr} {ss : List Stmt} {ks ks' ks'' : List Kind}

theorem read_cond_ifElse {os : List Stmt} (htest : ExprForm (.expr 0 e) ks)
    (hform : StmtForm (.body ss) ks') (hother : StmtForm (.body os) ks'')
    (hbody : StmtPhrase.Read ks' (.body ss))
    (hread : StmtPhrase.Read ks'' (.body os)) :
    StmtPhrase.Read (.keyword .if :: (ks ++ (ks' ++ .keyword .else :: ks'')))
      (.cond (.ifElse .nowhere e ss os)) := by
  intro n rest hn _
  simp only [List.cons_append, List.append_assoc] at hn ⊢
  refine reads_ifWithin htest hform hbody hn
    fun m start e' ss' hm he' hss' => .eat_bind ?_
  have hblock : Reads (bodyWithin m) (ks'' ++ rest) rest
      fun v => v.map Stmt.bare = os := by
    apply hread
    simp only [List.length_cons, List.length_append] at hn ⊢
    omega
  obtain ⟨ks₁, rfl⟩ := hother.starts_body
  refine .peek_bind ?_
  rw [if_neg (by simp)]
  refine .bind hblock fun os' hos => .spanFrom_bind fun _ => .pure ?_
  rw [Stmt.bare, he', Stmt.bareAll_eq_map, hss', Stmt.bareAll_eq_map, hos]

theorem read_cond_elseIf {o : Stmt} (htest : ExprForm (.expr 0 e) ks)
    (hform : StmtForm (.body ss) ks') (hother : StmtForm (.cond o) ks'')
    (hbody : StmtPhrase.Read ks' (.body ss))
    (hread : StmtPhrase.Read ks'' (.cond o)) :
    StmtPhrase.Read (.keyword .if :: (ks ++ (ks' ++ .keyword .else :: ks'')))
      (.cond (.ifElse .nowhere e ss [o])) := by
  intro n rest hn hrest
  simp only [List.cons_append, List.append_assoc] at hn ⊢
  refine reads_ifWithin htest hform hbody hn
    fun m start e' ss' hm he' hss' => .eat_bind ?_
  have hcond : Reads (ifWithin m) (ks'' ++ rest) rest fun v => v.bare = o := by
    refine hread ?_ hrest
    simp only [List.length_cons, List.length_append] at hn ⊢
    omega
  obtain ⟨ks₁, rfl⟩ := hother.starts_cond
  refine .peek_bind ?_
  rw [if_pos rfl]
  refine .bind hcond fun o' ho => .spanFrom_bind fun _ => .pure ?_
  rw [Stmt.bare, he', Stmt.bareAll_eq_map, hss', Stmt.bareAll_eq_map,
    List.map_singleton, ho]

end Conditionals

theorem read_stmts_cons {s : Stmt} {ss : List Stmt} {ks ks' : List Kind}
    (lines : List String) (hform : StmtForm (.stmt s) ks)
    (hforms : StmtForm (.stmts ss) ks') (hs : StmtPhrase.Read ks (.stmt s))
    (hss : StmtPhrase.Read ks' (.stmts ss)) :
    StmtPhrase.Read (docKinds lines ++ (ks ++ ks')) (.stmts (s :: ss)) := by
  intro n rest hn
  rw [List.append_assoc, List.append_assoc] at hn ⊢
  obtain ⟨k, ks₁, rfl, hk⟩ := hform.starts
  have hdoc : NoDocAhead (k :: ks₁ ++ (ks' ++ .mark .rBrace :: rest)) := by
    rintro line (rfl : k = _)
    rcases hk with hk | hk <;> cases hk
  simp only [List.length_append, List.length_cons] at hn
  cases n with
  | zero => omega
  | succ n =>
      have hstmt : Reads (stmtWithin n)
        (k :: ks₁ ++ (ks' ++ .mark .rBrace :: rest))
          (ks' ++ .mark .rBrace :: rest) fun v => v.bare = s := by
        refine hs ?_ (hforms.headD_ne_else rest)
        simp only [List.length_append, List.length_cons]
        omega
      have hstmts : Reads (stmtsWithin n) (ks' ++ .mark .rBrace :: rest) rest
          fun v => v.map Stmt.bare = ss := by
        apply hss
        simp only [List.length_append, List.length_cons]
        omega
      refine reads_skipDocs_bind hdoc lines (.peek_bind ?_)
      split
      · rcases hk with hk | hk <;> cases hk
      · rcases hk with hk | hk <;> cases hk
      · refine .taken_bind fun start => .bind hstmt.attempt fun v hv => ?_
        obtain ⟨s', rfl, hs'⟩ := hv
        refine .bind hstmts fun ss' hss' => .pure ?_
        rw [List.map_cons, hs', hss']

theorem StmtForm.read {phrase : StmtPhrase} {ks : List Kind}
    (h : StmtForm phrase ks) :
    StmtPhrase.Read ks phrase := by
  induction h with
  | expr value => exact read_stmt_expr value
  | bind name isMutable value =>
      intro n rest hn _
      simp only [List.cons_append, List.append_assoc] at hn ⊢
      cases n with
      | zero => omega
      | succ n =>
          refine .offset_bind fun start => .peek_bind ?_
          cases isMutable <;>
            exact .advance_bind (.bind (reads_binding name value) fun v hv =>
              .spanFrom_bind fun _ => .pure (by rw [Stmt.bare, hv.1, hv.2]))
  | assign name value =>
      intro n rest hn _
      simp only [List.cons_append, List.append_assoc] at hn ⊢
      cases n with
      | zero => omega
      | succ n =>
          exact .offset_bind fun start => .peek_bind (.advance_bind (.bind
            (reads_binding name value) fun v hv =>
              .spanFrom_bind fun _ => .pure (by rw [Stmt.bare, hv.1, hv.2])))
  | ret =>
      intro n rest hn _
      cases n with
      | zero => omega
      | succ n =>
          exact .offset_bind fun start => .peek_bind (.advance_bind (.eat_bind
            (.spanFrom_bind fun _ => .pure rfl)))
  | retValue value => exact read_stmt_retValue value
  | loop name items body ih => exact read_stmt_loop name items body ih
  | cond h ih =>
      intro n rest hn hrest
      obtain ⟨ks', rfl⟩ := h.starts_cond
      cases n with
      | zero => omega
      | succ n =>
          exact .offset_bind fun start => .peek_bind (ih (by omega) hrest)
  | ifThen test body ih =>
      intro n rest hn hrest
      rw [List.cons_append, List.append_assoc] at hn ⊢
      refine reads_ifWithin test body ih hn fun m start e' ss' _ he' hss' =>
        .eat_bind_of_ne hrest (.spanFrom_bind fun _ => .pure ?_)
      rw [Stmt.bare, he', Stmt.bareAll_eq_map, hss']
  | ifElse test body other ih ih' =>
      exact read_cond_ifElse test body other ih ih'
  | elseIf test body other ih ih' =>
      exact read_cond_elseIf test body other ih ih'
  | @body ss ks stmts ih =>
      intro n rest hn
      rw [List.cons_append, List.append_assoc, List.singleton_append] at hn ⊢
      rw [List.length_cons] at hn
      cases n with
      | zero => omega
      | succ n => exact .mark_bind (ih (by omega))
  | nil lines =>
      intro n rest hn
      cases n with
      | zero => omega
      | succ n =>
          exact reads_skipDocs_bind (by intro line; simp) lines
            (.peek_bind (.advance_bind (.pure rfl)))
  | cons lines stmt stmts ih ihs =>
      exact read_stmts_cons lines stmt stmts ih ihs

/-- **Statements are read as written**, up to spans. -/
theorem reads_body {ss : List Stmt} {ks : List Kind}
    (h : StmtForm (.body ss) ks) (rest : List Kind) :
    Reads body (ks ++ rest) rest fun v => v.map Stmt.bare = ss := by
  have hread : StmtPhrase.Read ks (.body ss) := h.read
  exact .of_length (r := fun n => bodyWithin (4 * n + 4)) (hread (by omega))

end Exemplar
