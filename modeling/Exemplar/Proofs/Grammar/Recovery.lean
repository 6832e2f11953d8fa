import Exemplar.Proofs.Grammar.Nesting

/-!
# Going on after a fault

A statement that is given up is skipped to its semicolon, to a closing brace
or to the next statement (`skipStatement_inside`); an item that failed, past
the braces it opens or to the next item (`skipItem_inside`). Either way the
same braces are open afterwards, and for a statement this needs that no
opening brace is among what is skipped.

With this the readers of bodies stay where they are (`stays_body`). The three
loops of the grammar, over statements, items and blocks, try to read, record
the fault, skip and go on: they are cases of `resume`.
-/

namespace Exemplar

open Reading

/-! ## Tokens that end a header -/

/-- Whatever comes before, the token leads to the same place. -/
def Kind.isFresh : Kind → Bool
  | .ident _ | .mark .dot | .mark .lBrace => false
  | _ => true

theorem Nest.step_fresh {k : Kind} (hk : k.isFresh = true) (s : Nest) :
    s.step k = (flat s.braces).step k := by
  obtain ⟨braces, header⟩ := s
  have hnext : header.next k = Header.idle.next k := by
    cases k with
    | ident part => cases hk
    | keyword word => cases word <;> rcases header with _ | _ | _ <;> rfl
    | mark sign =>
        cases sign <;> first | (rcases header with _ | _ | _ <;> rfl) | cases hk
    | literal _ | doc _ | eof => rcases header with _ | _ | _ <;> rfl
  cases k with
  | mark sign => cases sign <;> first | exact congrArg _ hnext | cases hk
  | literal _ | ident _ | doc _ | keyword _ | eof => exact congrArg _ hnext

/-- A token that is no brace leaves all braces as they are. -/
theorem Nest.braces_step {k : Kind} (hleft : k ≠ .mark .lBrace)
    (hright : k ≠ .mark .rBrace) (s : Nest) : (s.step k).braces = s.braces := by
  cases k with
  | mark sign =>
      cases sign <;> first
        | rfl | exact absurd rfl hleft | exact absurd rfl hright
  | literal _ | ident _ | doc _ | keyword _ | eof => rfl

theorem isFresh_of_startsStatement {k : Kind} (h : startsStatement k = true) :
    k.isFresh = true := by
  cases k with
  | keyword word => rfl
  | literal _ | ident _ | doc _ | mark _ | eof => cases h

theorem isFresh_of_startsItem {k : Kind} (h : startsItem k = true) :
    k.isFresh = true := by
  cases k with
  | mark sign => cases sign <;> first | rfl | cases h
  | keyword _ | doc _ => rfl
  | literal _ | ident _ | eof => cases h

namespace Cursor.Inside

variable {ts x : List Token} {base : List (Option String)} {c : Cursor}

theorem of_fresh (h : c.Behind ts x) (hbraces : (Nest.after x).braces = base)
    (hfresh : ∀ t ∈ c.ahead.head?, t.kind.isFresh = true) :
    c.Inside ts base x :=
  ⟨h, fun t ht => ⟨hbraces, by rw [Nest.step_fresh (hfresh t ht), hbraces]⟩⟩

end Cursor.Inside

/-! ## Skipping -/

namespace Reading

variable {ts x : List Token} {base inner : List (Option String)} {c : Cursor}
  {start : Nat}

/-- The tokens of a statement that are skipped, up to its semicolon. -/
theorem behind_givenUp : ∀ (rest : List Token) {x : List Token} {c : Cursor},
      c.ahead = rest →
    c.Behind ts x → (Nest.after x).braces = inner → start ≤ c.taken →
    (start < c.taken ∨ ∀ t ∈ rest.head?, startsStatement t.kind = false) →
    (∀ t ∈ givenUp rest, t.kind ≠ .mark .lBrace) →
      ∃ c', Cursor.skipWhile.go (fun kind taken =>
          kind != .eof && kind != .mark .rBrace && kind != .mark .semi
            && !(startsStatement kind && decide (start < taken))) rest c = c'
        ∧ c'.Behind ts (x ++ givenUp rest)
        ∧ (Nest.after (x ++ givenUp rest)).braces = inner
        ∧ Around (namesOf inner) x (givenUp rest)
  | [], x, c, _, hc, hbraces, _, _, _ =>
      ⟨c, rfl, by rwa [givenUp, List.takeWhile_nil, List.append_nil],
        by rwa [givenUp, List.takeWhile_nil, List.append_nil], .nil⟩
  | t :: rest, x, c, hahead, hc, hbraces, hstart, hfirst, hbrace => by
      have hne : t.kind ≠ .eof := hc.noEof t (by rw [hc.tokens, hahead]; simp)
      by_cases hskip : t.kind.isGivenUp = true
      · have hcons : givenUp (t :: rest) = t :: givenUp rest :=
          List.takeWhile_cons_of_pos hskip
        rw [hcons] at hbrace ⊢
        simp only [Kind.isGivenUp, Bool.and_eq_true, bne_iff_ne, ne_eq,
          Bool.not_eq_true'] at hskip
        obtain ⟨⟨hsemi, hclose⟩, hword⟩ := hskip
        have hadvance := hc.advance hahead
        have hopen : (Nest.after (x ++ [t])).braces = inner := by
          rw [Nest.after_concat,
            Nest.braces_step (hbrace t (List.mem_cons_self ..)) hclose, hbraces]
        have htaken : start < c.advance.taken := by
          rw [hadvance.taken, List.length_append, ← hc.taken]
          exact Nat.lt_succ_of_le hstart
        have hnext : c.advance.ahead = rest := by
          unfold Cursor.advance
          rw [hahead]
        obtain ⟨c', hgo, hc', hbraces', haround⟩ :=
          behind_givenUp rest hnext hadvance hopen (Nat.le_of_lt htaken)
            (Or.inl htaken)
            fun t' ht' => hbrace t' (List.mem_cons_of_mem _ ht')
        refine ⟨c', ?_, ?_, ?_, ?_⟩
        · rw [Cursor.skipWhile.go, if_pos (by simp [hne, hsemi, hclose, hword])]
          exact hgo
        · rwa [List.append_assoc] at hc'
        · rwa [List.append_assoc] at hbraces'
        · exact (Around.singleton (by rw [namespacesAround, hbraces])).append
            haround
      · have hnil : givenUp (t :: rest) = [] := List.takeWhile_cons_of_neg hskip
        rw [hnil, List.append_nil]
        refine ⟨c, ?_, hc, hbraces, .nil⟩
        rw [Cursor.skipWhile.go, if_neg]
        intro hkeep
        simp only [Bool.and_eq_true, bne_iff_ne, ne_eq, Bool.not_eq_true',
          Bool.and_eq_false_iff,
          decide_eq_false_iff_not] at hkeep
        obtain ⟨⟨⟨-, hclose⟩, hsemi⟩, hword⟩ := hkeep
        have hplain : startsStatement t.kind = false := by
          rcases hword with hword | hword
          · exact hword
          · exact (hfirst.resolve_left hword) t rfl
        exact hskip (by simp [Kind.isGivenUp, hsemi, hclose, hplain])

/-- What the skipping of a statement stops at. -/
theorem stop_of_givenUp {all rest : List Token}
    (h : all = givenUp all ++ rest) :
    ∀ t ∈ rest.head?, t.kind = .mark .semi ∨ t.kind = .mark .rBrace
      ∨ startsStatement t.kind = true := by
  intro t ht
  have hsplit : givenUp all ++ all.dropWhile (fun t => t.kind.isGivenUp)
      = all :=
    List.takeWhile_append_dropWhile
  rw [List.append_cancel_left (h.symm.trans hsplit.symm)] at ht
  have hnot := List.head?_dropWhile_not (fun t : Token => t.kind.isGivenUp) all
  rw [Option.mem_def.mp ht] at hnot
  simp only [Kind.isGivenUp, Bool.and_eq_false_iff, bne_eq_false_iff_eq,
    Bool.not_eq_false'] at hnot
  rcases hnot with (h | h) | h
  · exact Or.inl h
  · exact Or.inr (Or.inl h)
  · exact Or.inr (Or.inr h)

/-- Whatever comes before, a semicolon leaves no block about to start. -/
theorem inside_semi (hc : c.Behind ts x)
    (hbraces : (Nest.after x).braces = inner)
    (hsemi : c.current.kind = .mark .semi) :
    ∃ t, c.advance.Inside ts inner (x ++ [t])
      ∧ Around (namesOf inner) x [t] := by
  obtain ⟨t, rest, hahead, ht⟩ := hc.exists_of_kind hsemi (by simp)
  have hflat : Nest.after (x ++ [t]) = Nest.flat inner := by
    rw [Nest.after_concat, Nest.step_fresh (by rw [ht]; rfl), hbraces, ht]
    rfl
  exact ⟨t, .of_flat (hc.advance hahead) hflat,
    .singleton (by rw [namespacesAround, hbraces])⟩

/-- After the statement that was given up, the same braces are open. -/
theorem skipStatement_inside (hc : c.Inside ts inner x)
    (hstart : start ≤ c.taken)
    (hfirst : start < c.taken ∨ startsStatement c.current.kind = false)
    (hbrace : ∀ t ∈ givenUp c.ahead, t.kind ≠ .mark .lBrace) :
    ∃ us c', skipStatement start c = .read () c'
      ∧ c'.Inside ts inner (x ++ us) ∧ Around (namesOf inner) x us
      ∧ (c.current.kind ≠ .eof → c.current.kind ≠ .mark .rBrace →
          startsStatement c.current.kind = false → us ≠ []) := by
  cases hahead : c.ahead with
  | nil =>
      have hend : c.current.kind = .eof := by
        rw [Cursor.current, hahead]
        exact hc.closed
      refine ⟨[], c, ?_, by rwa [List.append_nil], .nil,
        fun hne => absurd hend hne⟩
      rw [skipStatement, Cursor.skipWhile, hahead]
      show Outcome.read ()
        (if c.current.kind = .mark .semi then c.advance else c) = _
      rw [if_neg (by simp [hend])]
  | cons t rest =>
      have hcurrent : c.current = t := by rw [Cursor.current, hahead]; rfl
      have hhead : start < c.taken ∨ ∀ t' ∈ c.ahead.head?,
          startsStatement t'.kind = false := by
        refine hfirst.imp_right fun hplain t' ht' => ?_
        rw [hahead] at ht'
        obtain rfl := Option.some.inj ht'
        rwa [hcurrent] at hplain
      obtain ⟨c₁, hgo, hc₁, hbraces₁, haround⟩ :=
        behind_givenUp c.ahead rfl hc.toBehind (hc.braces (by simp [hahead]))
          hstart hhead hbrace
      have hstop := stop_of_givenUp (hc.ahead_eq hc₁)
      have hskip : skipStatement start c
          = .read () (if c₁.current.kind = .mark .semi then c₁.advance
            else c₁) := by
        rw [skipStatement, Cursor.skipWhile, hgo]
      by_cases hsemi : c₁.current.kind = .mark .semi
      · rw [if_pos hsemi] at hskip
        obtain ⟨t₁, hinside, hlast⟩ := inside_semi hc₁ hbraces₁ hsemi
        refine ⟨givenUp c.ahead ++ [t₁], _, hskip, ?_, haround.append hlast, ?_⟩
        · rwa [← List.append_assoc]
        · exact fun _ _ _ =>
            List.append_ne_nil_of_right_ne_nil _ (List.cons_ne_nil _ _)
      · rw [if_neg hsemi] at hskip
        refine ⟨givenUp c.ahead, _, hskip, .of_fresh hc₁ hbraces₁ fun t' ht' =>
          ?_, haround, fun _ hclose hplain hnil => ?_⟩
        · rcases hstop t' ht' with h | h | h
          · rw [h]; rfl
          · rw [h]; rfl
          · exact isFresh_of_startsStatement h
        · -- the first token was not skipped, so it is the semicolon
          have hsame : c₁.ahead = c.ahead := by
            rw [hc.ahead_eq hc₁, hnil]
            rfl
          have hfirst' := hstop t (by rw [hsame, hahead]; rfl)
          rw [hcurrent] at hclose hplain
          rw [Cursor.current, hsame, hahead] at hsemi
          rcases hfirst' with h | h | h
          · exact hsemi h
          · exact hclose h
          · rw [hplain] at h
            cases h

/-- Skipping has come from `c`, which is behind `x`, to a place with the braces
of `base` open. Where it did not move, there was a reason. -/
def Skipped (ts : List Token) (base : List (Option String)) (start : Nat)
    (x : List Token) (c c' : Cursor) : Prop :=
  ∃ us, c'.Inside ts base (x ++ us)
    ∧ (us = [] → c.ahead = [] ∨ c.current.kind = .mark .rBrace
      ∨ start < c.taken)

namespace Skipped

variable {t : Token} {rest : List Token} {c' : Cursor}

theorem refl (hc : c.Inside ts base x)
    (hwhy : c.ahead = [] ∨ c.current.kind = .mark .rBrace ∨ start < c.taken) :
    Skipped ts base start x c c :=
  ⟨[], by rwa [List.append_nil], fun _ => hwhy⟩

theorem cons (h : Skipped ts base start (x ++ [t]) c.advance c') :
    Skipped ts base start x c c' := by
  obtain ⟨us, hinside, -⟩ := h
  refine ⟨t :: us, ?_, nofun⟩
  rwa [List.append_assoc] at hinside

/-- Past one token, where skipping ends. -/
theorem single (h : c.advance.Inside ts base (x ++ [t])) :
    Skipped ts base start x c c.advance :=
  ⟨[t], h, nofun⟩

end Skipped

theorem skipped_skipItemFrom :
    ∀ (rest : List Token) (extra : List (Option String)) {depth : Nat}
    {x : List Token} {c : Cursor}, c.ahead = rest → c.Behind ts x →
    (Nest.after x).braces = extra ++ base → extra.length = depth →
      Skipped ts base start x c (skipItemFrom start depth rest c)
  | [], extra, depth, x, c, hahead, hc, hbraces, hdepth =>
      .refl (.of_end hc hahead) (Or.inl hahead)
  | t :: rest, extra, depth, x, c, hahead, hc, hbraces, hdepth => by
      have hcurrent : c.current = t := by rw [Cursor.current, hahead]; rfl
      have hne : t.kind ≠ .eof := hc.noEof t (by rw [hc.tokens, hahead]; simp)
      have hadvance := hc.advance hahead
      have hnext : c.advance.ahead = rest := by
        unfold Cursor.advance
        rw [hahead]
      -- past the token, with the braces that are open then
      have hgo : ∀ (extra' : List (Option String)) {depth' : Nat},
          ((Nest.after x).step t.kind).braces = extra' ++ base →
          extra'.length = depth' →
            Skipped ts base start x c
              (skipItemFrom start depth' rest c.advance) := by
        intro extra' depth' hbraces' hdepth'
        rw [← Nest.after_concat] at hbraces'
        exact (skipped_skipItemFrom rest extra' hnext hadvance hbraces'
          hdepth').cons
      have hstay : t.kind.isFresh = true → depth = 0 → c.Inside ts base x := by
        intro hfresh hzero
        obtain rfl := List.length_eq_zero_iff.mp (hdepth.trans hzero)
        refine .of_fresh hc hbraces fun t' ht' => ?_
        rw [hahead] at ht'
        obtain rfl := Option.some.inj ht'
        exact hfresh
      unfold skipItemFrom
      split
      · next heof => exact absurd heof hne
      · next hbrace =>
          refine hgo ((Nest.after x).header.name? :: extra) ?_
            (by simp [hdepth])
          rw [hbrace, List.cons_append, ← hbraces]
          rfl
      · next hbrace =>
          refine .refl (hstay (by rw [hbrace]; rfl) rfl) (Or.inr (Or.inl ?_))
          rw [hcurrent, hbrace]
      · next hbrace =>
          obtain ⟨brace, rfl⟩ := List.length_eq_one_iff.mp hdepth
          refine .single (.of_flat hadvance ?_)
          rw [Nest.after_concat, Nest.step_fresh (by rw [hbrace]; rfl),
            hbrace, hbraces]
          rfl
      · next depth' hbrace =>
          refine hgo extra.tail ?_ (by rw [List.length_tail, hdepth]; rfl)
          cases extra with
          | nil => cases hdepth
          | cons brace extra =>
              rw [hbrace]
              exact congrArg List.tail hbraces
      · next kind hleft hzero hone htwo =>
          have hclose : t.kind ≠ .mark .rBrace := by
            intro hclose
            rcases extra with _ | ⟨_, _ | ⟨_, extra⟩⟩
            · exact hzero hclose hdepth.symm
            · exact hone hclose hdepth.symm
            · exact htwo extra.length hclose hdepth.symm
          split
          · next hstop =>
              exact .refl (hstay (isFresh_of_startsItem hstop.2.1) hstop.1)
                (Or.inr (Or.inr hstop.2.2))
          · refine hgo extra ?_ hdepth
            rw [Nest.braces_step hleft hclose, hbraces]

/-- After the item that failed, the same braces are open. A closing brace that
it starts with is passed; outside all braces it closes none. -/
theorem skipItem_inside (hc : c.Behind ts x)
    (hbraces : c.ahead ≠ [] → (Nest.after x).braces = base)
    (hstart : start ≤ c.taken)
    (hclose : c.current.kind = .mark .rBrace → start < c.taken ∨ base = []) :
    ∃ us c', skipItem start c = .read () c' ∧ c'.Inside ts base (x ++ us)
      ∧ (c.ahead = [] ∨ start < c'.taken) := by
  by_cases hend : c.ahead = []
  · refine ⟨[], c, ?_, by rw [List.append_nil]; exact .of_end hc hend,
      Or.inl hend⟩
    rw [skipItem, hend]
    show Outcome.read () (if c.taken = start then c.advance else c) = _
    rw [Cursor.advance_nil hend, ite_self]
  have hskip : Skipped ts base start x c (skipItemFrom start 0 c.ahead c) :=
    skipped_skipItemFrom c.ahead [] rfl hc (hbraces hend) rfl
  generalize hto : skipItemFrom start 0 c.ahead c = c' at hskip
  have hread : skipItem start c
      = .read () (if c'.taken = start then c'.advance else c') := by
    rw [skipItem, hto]
  obtain ⟨us, hinside, hstuck⟩ := hskip
  have htaken : c'.taken = c.taken + us.length := by
    rw [hinside.taken, List.length_append, hc.taken]
  by_cases hsame : c'.taken = start
  · -- nothing was skipped, so a closing brace is next
    have hnil : us = [] := List.length_eq_zero_iff.mp (by omega)
    rw [hnil, List.append_nil] at hinside
    have hbrace : c.current.kind = .mark .rBrace := by
      rcases hstuck hnil with h | h | h
      · exact absurd h hend
      · exact h
      · omega
    have hbase : base = [] := (hclose hbrace).resolve_left (by omega)
    rw [← hinside.kind_current hc] at hbrace
    obtain ⟨t, rest, hahead, ht⟩ := hinside.exists_of_kind hbrace (by simp)
    have hpast := hinside.toBehind.advance hahead
    refine ⟨[t], c'.advance, ?_, hinside.advance hahead ?_, Or.inr ?_⟩
    · rw [hread, if_pos hsame]
    · rw [ht, hbase]
      rfl
    · rw [hpast.taken, List.length_append, ← hinside.taken, hsame]
      exact Nat.lt_succ_self _
  · refine ⟨us, c', ?_, hinside, Or.inr (by omega)⟩
    rw [hread, if_neg hsame]

/-! ## Statements -/

theorem keyword_bind_of_eq {β : Type} {word : Keyword} {c : Cursor}
    (h : c.current.kind = .keyword word) (f : Unit → Reading β) :
    (keyword word >>= f) c = (advance >>= f) c := by
  have hread : keyword word c = .read () c.advance := by
    unfold keyword
    rw [eat_bind_of_eq h]
    rfl
  rw [bind_of_read hread, advance_bind]

/-- A statement with a keyword does not fail at its keyword. -/
theorem length_lt_of_failed_stmt {n : Nat} {c c' : Cursor} {f : Fault}
    (hc : c.Closed) (hword : startsStatement c.current.kind = true)
    (h : stmtWithin (n + 2) c = .failed f c') :
    c'.ahead.length < c.ahead.length := by
  have hpast : ∀ {K : Unit → Reading Stmt},
    Takes false .any [] anyToken (K ()) (fun _ _ => True) →
      (advance >>= K) c = .failed f c' → c'.ahead.length < c.ahead.length := by
    intro K hK hfail
    have hclosed : c.advance.Closed := by
      rw [Cursor.Closed, Cursor.last_advance]
      exact hc
    obtain ⟨-, us, hus⟩ := hK.of_failed hclosed trivial hfail
    have hne : c.ahead ≠ [] := by
      intro hnil
      rw [Cursor.current, hnil] at hword
      rw [show ([].headD c.last).kind = .eof from hc] at hword
      cases hword
    obtain ⟨t, rest, hahead⟩ := List.exists_cons_of_ne_nil hne
    have hrest : rest = us ++ c'.ahead := by
      rw [← hus.ahead, Cursor.advance, hahead]
    rw [hahead, hrest, List.length_cons, List.length_append]
    omega
  have hbinding : ∀ (make : Span → String × Expr → Stmt),
      Takes false .any [] anyToken (binding >>= fun p =>
          spanFrom c.current.span.start >>= fun s =>
        pure (make s p)) fun _ _ => True :=
    fun make => .bind takes_binding fun _ _ _ => .spanFrom_bind fun _ _ =>
      .pure fun _ => trivial
  have hvalue : Takes false .any [] anyToken (expr >>= fun value =>
        mark .semi >>= fun _ =>
      spanFrom c.current.span.start >>= fun s => pure (Stmt.ret s (some value)))
      fun _ _ => True :=
    .bind takes_expr fun _ _ _ => .mark_bind rfl fun _ _ _ =>
      .spanFrom_bind fun _ _ =>
      .pure fun _ => trivial
  rw [stmtWithin, offset_bind, peek_bind] at h
  cases hkind : c.current.kind with
  | literal _ | ident _ | doc _ | mark _ | eof =>
      rw [hkind] at hword; cases hword
  | keyword word =>
      rw [hkind] at hword h
      cases word with
      | «let» => exact hpast (hbinding fun s p => .bind s p.1 false p.2) h
      | «mutable» => exact hpast (hbinding fun s p => .bind s p.1 true p.2) h
      | set => exact hpast (hbinding fun s p => .assign s p.1 p.2) h
      | «return» =>
          refine hpast (.eat_bind rfl (fun _ _ _ => ?_) hvalue.of_any) h
          exact .spanFrom_bind fun _ _ => .pure trivial
      | «if» =>
          have h : ifWithin (n + 1) c = .failed f c' := h
          rw [ifWithin, offset_bind, keyword_bind_of_eq hkind] at h
          refine hpast (.bind takes_expr fun _ _ _ =>
            .bind (takesStmts _ _).body fun _ _ _ => ?_) h
          refine .eat_bind rfl (fun _ _ _ => .peek_bind fun k => ?_)
            (.spanFrom_bind fun _ _ => .pure fun _ _ => trivial)
          split
          · exact .bind (takesStmts _ _).cond.of_any fun _ _ _ =>
              .spanFrom_bind fun _ _ =>
              .pure fun _ _ _ => trivial
          · exact .bind (takesStmts _ _).body.of_any fun _ _ _ =>
              .spanFrom_bind fun _ _ =>
              .pure fun _ _ _ => trivial
      | «for» =>
          refine hpast (.name_bind fun _ _ _ _ => .keyword_bind rfl fun _ _ _ =>
            .bind takes_expr fun _ _ _ => ?_) h
          exact .bind (takesStmts _ _).body fun _ _ _ =>
            .spanFrom_bind fun _ _ =>
            .pure fun _ _ => trivial
      | _ => cases hword

theorem mark_apply (sign : Mark) (c : Cursor) :
    mark sign c = if c.current.kind = .mark sign then .read () c.advance
      else expected (.mark sign) c := by
  unfold mark
  by_cases hkind : c.current.kind = .mark sign
  · rw [eat_bind_of_eq hkind, if_pos hkind]
    rfl
  · rw [eat_bind_of_ne hkind, if_neg hkind]
    rfl

theorem exists_docs (c : Cursor) :
    ∃ lines c', docs c = .read lines c' ∧ c'.faults = c.faults := by
  have hupTo : ∀ (l : Nat) (c : Cursor),
      ∃ lines c', docsUpTo l c = .read lines c' ∧ c'.faults = c.faults := by
    intro l
    induction l with
    | zero => exact fun c => ⟨[], c, rfl, rfl⟩
    | succ l ih =>
        intro c
        rw [docsUpTo, peek_bind]
        cases c.current.kind with
        | doc line =>
            obtain ⟨lines, c', hrest, hfaults⟩ := ih c.advance
            refine ⟨line :: lines, c', ?_,
              hfaults.trans (Cursor.faults_advance c)⟩
            show (docsUpTo l >>= fun rest => pure (line :: rest)) c.advance = _
            rw [bind_of_read hrest]
            rfl
        | literal _ | ident _ | keyword _ | mark _ | eof =>
            exact ⟨[], c, rfl, rfl⟩
  exact hupTo c.ahead.length c

theorem bind_pure_apply {α β : Type} (r : Reading α) (g : α → β) (c : Cursor) :
    (r >>= fun v => pure (g v)) c = (r c).map g := by
  change Reading.bind r _ c = _
  unfold Reading.bind
  cases r c <;> rfl

/-- A fault is recorded with room for another, or there is none any more. -/
theorem record_cases (why : Fault) (c : Cursor) :
    record why c = .read true { c with faults := c.faults ++ [why] }
    ∨ ∃ c', record why c = .read false c' ∧ c.faults <+: c'.faults
      ∧ faultLimit ≤ c'.faults.length := by
  unfold record
  by_cases hroom : c.faults.length < faultLimit
  · rw [if_pos hroom]
    by_cases hmore : c.faults.length + 1 < faultLimit
    · rw [decide_eq_true hmore]
      exact Or.inl rfl
    · rw [decide_eq_false hmore]
      refine Or.inr ⟨_, rfl, List.prefix_append .., ?_⟩
      rw [List.length_append]
      exact Nat.le_of_not_lt hmore
  · rw [if_neg hroom]
    exact Or.inr ⟨c, rfl, List.prefix_rfl, Nat.le_of_not_lt hroom⟩

/-- Try to read. After a fault, go on with what is skipped to, as long as there
is room for another. -/
def resume {α β : Type} (r : Reading α) (good : α → Reading β)
    (skip : Reading Unit) (again spent : Reading β) : Reading β := do
  match ← attempt r with
  | .ok a => good a
  | .error why =>
    if ← record why then
      skip
      again
    else spent

theorem attempt_bind_eq_resume {α β : Type} {r : Reading α}
    {good : α → Reading β} {skip : Reading Unit} {again spent : Reading β}
    {c : Cursor} {f : Except Fault α → Reading β}
    (hok : ∀ a, f (.ok a) = good a)
    (herror : ∀ why, f (.error why) = do
    if ← record why then skip; again else spent) :
    (attempt r >>= f) c = resume r good skip again spent c := by
  refine congrFun (congrArg (attempt r >>= ·) (funext fun e => ?_)) c
  cases e with
  | ok a => exact hok a
  | error why => exact herror why

theorem resume_cases {α β : Type} (r : Reading α) (good : α → Reading β)
    (skip : Reading Unit) (again spent : Reading β) (c : Cursor) :
    (∃ a c₂, r c = .read a c₂ ∧ resume r good skip again spent c = good a c₂)
    ∨ ∃ why c₂, r c = .failed why c₂
      ∧ (resume r good skip again spent c
          = (skip >>= fun _ => again) { c₂ with faults := c₂.faults ++ [why] }
        ∨ ∃ c', resume r good skip again spent c = spent c'
          ∧ c₂.faults <+: c'.faults
          ∧ faultLimit ≤ c'.faults.length) := by
  cases hr : r c with
  | read a c₂ =>
      have htry : attempt r c = .read (.ok a) c₂ := by rw [attempt, hr]
      exact Or.inl ⟨a, c₂, rfl, bind_of_read htry⟩
  | failed why c₂ =>
      have htry : attempt r c = .read (.error why) c₂ := by rw [attempt, hr]
      refine Or.inr ⟨why, c₂, rfl, ?_⟩
      rw [resume, bind_of_read htry]
      dsimp only
      rcases record_cases why c₂ with hroom | ⟨c₃, hroom, hgrows, hlimit⟩
      · rw [bind_of_read hroom]
        exact Or.inl rfl
      · rw [bind_of_read hroom]
        exact Or.inr ⟨c₃, rfl, hgrows, hlimit⟩

theorem skipDocs_bind {β : Type} {c c₁ : Cursor} {lines : List String}
    (hdocs : docs c = .read lines c₁) (f : Unit → Reading β) :
    (skipDocs >>= f) c = f () c₁ := by
  have hskip : skipDocs c = .read () c₁ := by
    unfold skipDocs
    rw [bind_of_read hdocs]
    rfl
  rw [bind_of_read hskip]

/-- What the reader of statements does behind documentation: it closes the
body, breaks off, or tries a statement. -/
theorem stmtsWithin_cases {n : Nat} {c c₁ : Cursor} {lines : List String}
    (hdocs : docs c = .read lines c₁) :
    c₁.current.kind = .mark .rBrace
      ∧ stmtsWithin (n + 1) c = .read [] c₁.advance
    ∨ c₁.current.kind = .eof
      ∧ stmtsWithin (n + 1) c = expected (.mark .rBrace) c₁
    ∨ c₁.current.kind ≠ .mark .rBrace ∧ c₁.current.kind ≠ .eof
      ∧ stmtsWithin (n + 1) c = resume (stmtWithin n)
          (fun stmt => stmtsWithin n >>= fun stmts => pure (stmt :: stmts))
          (skipStatement c₁.taken) (stmtsWithin n) (skipAll >>= fun _ =>
            pure []) c₁ := by
  rw [stmtsWithin, skipDocs_bind hdocs, peek_bind]
  by_cases hclose : c₁.current.kind = .mark .rBrace
  · rw [hclose]
    exact Or.inl ⟨rfl, rfl⟩
  by_cases heof : c₁.current.kind = .eof
  · rw [heof]
    exact Or.inr (Or.inl ⟨rfl, rfl⟩)
  refine Or.inr (Or.inr ⟨hclose, heof, ?_⟩)
  cases hkind : c₁.current.kind with
  | eof => exact absurd hkind heof
  | mark sign =>
      cases sign <;> first
        | exact absurd hkind hclose
        | exact attempt_bind_eq_resume (fun _ => rfl) fun _ => rfl
  | literal _ | ident _ | doc _ | keyword _ =>
      exact attempt_bind_eq_resume (fun _ => rfl) fun _ => rfl

/-- A reader that started behind `x` has come to a place with the braces of
`base` open, as `Stays` says. -/
def Settled {α : Type} (ts : List Token) (base : List (Option String))
    (x : List Token) :
    Outcome α → Prop
  | .read _ c => ∃ us, c.Inside ts base (x ++ us) ∧ Around (namesOf base) x us
  | .failed f c => f.span = c.current.span
      ∧ ∃ us, c.Inside ts base (x ++ us) ∧ Around (namesOf base) x us

theorem Settled.append {α : Type} {us : List Token} {o : Outcome α}
    (haround : Around (namesOf base) x us) (h : Settled ts base (x ++ us) o) :
    Settled ts base x o := by
  cases o with
  | read v c =>
      obtain ⟨vs, hc, hrest⟩ := h
      exact ⟨us ++ vs, by rwa [← List.append_assoc], haround.append hrest⟩
  | failed f c =>
      obtain ⟨hspan, vs, hc, hrest⟩ := h
      exact ⟨hspan, us ++ vs, by rwa [← List.append_assoc],
        haround.append hrest⟩

/-- The reader stands in a body, whose brace is the innermost, and passes the
brace that closes it. -/
def Closes {α : Type} (ts : List Token) (base : List (Option String)) (n : Nat)
    (r : Reading α) : Prop :=
  ∀ ⦃x c⦄, c.Inside ts (none :: base) x → 4 * c.ahead.length + 4 ≤ n →
    Sound ts (r c).cursor.faults → Settled ts base x (r c)

theorem passes_stmtsWithin (n : Nat) : Passes anyToken (stmtsWithin n) :=
  .of_takes (takesStmts .any n).stmts

/-- The readers of statements stay where they are. -/
structure StaysStmts (ts : List Token) (n : Nat) : Prop where
  body : ∀ base, Stays ts base n 1 false anyToken (bodyWithin n)
  stmts : ∀ base, Closes ts base n (stmtsWithin n)
  stmt : ∀ base, Stays ts base n 3 true anyToken (stmtWithin n)
  cond : ∀ base, Stays ts base n 2 true anyToken (ifWithin n)

theorem stays_bodyWithin {n : Nat} (h : Closes ts base n (stmtsWithin n)) :
    Stays ts base (n + 1) 1 false anyToken (bodyWithin (n + 1)) := by
  have hopen : ∀ {x : List Token} {c c₁ : Cursor}, c.Inside ts base x →
      4 * c.ahead.length + 1 ≤ n + 1 → mark .lBrace c = .read () c₁ →
        Sound ts (stmtsWithin n c₁).cursor.faults →
        Settled ts base x (stmtsWithin n c₁) := by
    intro x c c₁ hc hn hread hs
    rw [mark_apply] at hread
    split at hread
    · next hbrace =>
        obtain ⟨-, rfl⟩ := Outcome.read.inj hread
        obtain ⟨t, rest, hahead, ht⟩ := hc.exists_of_kind hbrace (by simp)
        have hinner : c.advance.Inside ts (none :: base) (x ++ [t]) :=
          hc.advance hahead (by rw [ht]; rfl)
        have hfirst : Around (namesOf base) x [t] :=
          .singleton (by rw [namespacesAround, hc.braces (by simp [hahead])])
        have hlength := hinner.length
        rw [List.length_append, ← hc.length] at hlength
        refine .append hfirst (h hinner ?_ hs)
        simp only [List.length_singleton] at hlength
        omega
    · cases hread
  refine ⟨.of_takes (takesStmts .any _).body, ?_, ?_⟩
  · intro x c v c' hc hn _ hread hs
    obtain ⟨⟨⟩, c₁, hmark, hread⟩ := bind_eq_read.mp hread
    have hsettled := hopen hc hn hmark (by rw [hread]; exact hs)
    rw [hread] at hsettled
    obtain ⟨us, hc', haround⟩ := hsettled
    exact ⟨us, hc', haround, by simp⟩
  · intro x c f c' hc hn _ hfail hs
    rcases bind_eq_failed.mp hfail with hmark | ⟨⟨⟩, c₁, hmark, hfail⟩
    · rw [mark_apply] at hmark
      split at hmark
      · cases hmark
      · obtain ⟨rfl, rfl⟩ := Outcome.failed.inj hmark
        exact ⟨rfl, [], by rwa [List.append_nil], .nil⟩
    · have hsettled := hopen hc hn hmark (by rw [hfail]; exact hs)
      rw [hfail] at hsettled
      exact hsettled

theorem Settled.map {α β : Type} {g : α → β} {o : Outcome α}
    (h : Settled ts base x o) :
    Settled ts base x (o.map g) := by
  cases o <;> exact h

/-- A statement that was given up is skipped, and something is skipped. -/
theorem skipped_of_failed {n : Nat} {x us : List Token} {c c₂ c₃ : Cursor}
    {why : Fault} (hc : c.Inside ts (none :: base) x) (hn : 2 ≤ n)
    (hclose : c.current.kind ≠ .mark .rBrace) (heof : c.current.kind ≠ .eof)
    (hfail : stmtWithin n c = .failed why c₂)
    (hspan : why.span = c₂.current.span)
    (hc₂ : c₂.Inside ts (none :: base) (x ++ us))
    (hskip : skipStatement c.taken { c₂ with faults := c₂.faults ++ [why] }
      = .read () c₃) (htame : why.skipsBrace ts = false) :
    ∃ vs, c₃.Inside ts (none :: base) (x ++ us ++ vs)
      ∧ Around (namesOf (none :: base)) (x ++ us) vs ∧ us ++ vs ≠ [] := by
  have hcut := hc.ahead_eq hc₂.toBehind
  have htaken : c₂.taken = c.taken + us.length := by
    rw [hc₂.taken, List.length_append, hc.taken]
  have hsame : us = [] → c₂.current.kind = c.current.kind := by
    intro hus
    rw [hus, List.append_nil] at hc₂
    exact hc₂.kind_current hc.toBehind
  -- where nothing was read, the token ahead starts no statement
  have hplain : us = [] → startsStatement c.current.kind = false := by
    intro hus
    rw [Bool.eq_false_iff]
    intro hword
    obtain ⟨l, rfl⟩ : ∃ l, n = l + 2 := ⟨n - 2, by omega⟩
    have hlt := length_lt_of_failed_stmt hc.closed hword hfail
    rw [hcut, hus, List.nil_append] at hlt
    exact absurd hlt (Nat.lt_irrefl _)
  have hle : c.taken ≤ c₂.taken := by omega
  have hfirst : c.taken < c₂.taken ∨ startsStatement c₂.current.kind
      = false := by
    by_cases hus : us = []
    · right
      rw [hsame hus]
      exact hplain hus
    · have hpos := List.length_pos_iff.mpr hus
      left
      omega
  have hc₂' := hc₂.withFaults (c₂.faults ++ [why])
  obtain ⟨vs, c₃', hskip', hc₃, haround, hmoved⟩ :=
    skipStatement_inside hc₂' hle hfirst
      (why.lBrace_of_givenUp htame hc₂' hspan)
  obtain ⟨-, rfl⟩ := Outcome.read.inj (hskip'.symm.trans hskip)
  refine ⟨vs, hc₃, haround, ?_⟩
  by_cases hus : us = []
  · have hkind :
        ({ c₂ with faults := c₂.faults ++ [why] } : Cursor).current.kind
          = c.current.kind := hsame hus
    rw [hkind] at hmoved
    exact List.append_ne_nil_of_right_ne_nil _ (hmoved heof hclose (hplain hus))
  · exact List.append_ne_nil_of_left_ne_nil hus _

theorem closes_stmtsWithin {n : Nat} (h : StaysStmts ts n)
    (base : List (Option String)) :
    Closes ts base (n + 1) (stmtsWithin (n + 1)) := by
  intro x c hc hn hs
  obtain ⟨lines, c₁, hdocs, hfaults⟩ := exists_docs c
  have hs₁ : Sound ts c₁.faults := by
    rw [hfaults]
    exact (passes_stmtsWithin _).sound hc.closed trivial rfl hs
  have hstays : Stays ts (none :: base) (n + 1) 4 false anyToken docs :=
    .of_takes takes_docs nofun
  obtain ⟨us, hc₁, haround, -⟩ := hstays.read hc hn trivial hdocs hs₁
  have haround : Around (namesOf base) x us := haround
  have hlength := hc₁.length
  rw [List.length_append, ← hc.length] at hlength
  refine .append haround ?_
  rcases stmtsWithin_cases (n := n) hdocs with
      ⟨hclose, heq⟩ | ⟨heof, heq⟩ | ⟨hclose, heof, heq⟩
  · -- the body is closed
    rw [heq]
    obtain ⟨t, rest, hahead, ht⟩ := hc₁.exists_of_kind hclose (by simp)
    refine ⟨[t], hc₁.advance hahead (by rw [ht]; rfl), .singleton ?_⟩
    rw [namespacesAround, hc₁.braces (by simp [hahead])]
    rfl
  · rw [heq]
    refine ⟨rfl, [], ?_, .nil⟩
    rw [List.append_nil]
    exact .of_end hc₁.toBehind (hc₁.ahead_eq_nil heof)
  rw [heq] at hs ⊢
  rcases resume_cases (stmtWithin n)
      (fun stmt => stmtsWithin n >>= fun stmts => pure (stmt :: stmts))
        (skipStatement c₁.taken)
      (stmtsWithin n) (skipAll >>= fun _ => pure []) c₁ with
    ⟨stmt, c₂, hread, heq⟩ | ⟨why, c₂, hfail, heq | ⟨c', heq, -, hlimit⟩⟩
  · rw [heq, bind_pure_apply] at hs ⊢
    rw [Outcome.cursor_map] at hs
    have hc₂ := (h.stmt []).passes.closed hc₁.closed trivial hread
    have hs₂ := (passes_stmtsWithin n).sound hc₂ trivial rfl hs
    obtain ⟨vs, hc₂, haround₂, hne⟩ :=
      (h.stmt _).read hc₁ (by omega) trivial hread hs₂
    have haround₂ : Around (namesOf base) (x ++ us) vs := haround₂
    have hpos := List.length_pos_iff.mpr (hne rfl)
    have hlength₂ := hc₂.length
    rw [List.length_append, ← hc₁.length] at hlength₂
    exact .append haround₂ (h.stmts base hc₂ (by omega) hs).map
  · obtain ⟨g, hg, hskip⟩ := exists_skipStatement c₁.taken
    have hclosed := (h.stmt []).passes.closed hc₁.closed trivial hfail
    have honward := hg { c₂ with faults := c₂.faults ++ [why] }
    have hskip := congrFun hskip { c₂ with faults := c₂.faults ++ [why] }
    generalize g { c₂ with faults := c₂.faults ++ [why] } = c₃ at honward hskip
    obtain ⟨_, hpast⟩ := honward.past
    rw [heq, bind_of_read hskip] at hs ⊢
    have hs₃ := (passes_stmtsWithin n).sound (hpast.closed hclosed)
      trivial rfl hs
    rw [honward.faults] at hs₃
    obtain ⟨hspan, vs, hc₂, haround₂⟩ :=
      (h.stmt _).failed hc₁ (by omega) trivial hfail
        (hs₃.earlier (List.prefix_append ..))
    obtain ⟨ws, hc₃, haround₃, hne⟩ :=
      skipped_of_failed hc₁ (by omega) hclose heof hfail hspan hc₂ hskip
        (hs₃.tame why (by simp))
    have hpos := List.length_pos_iff.mpr hne
    have hlength₃ := hc₃.length
    rw [List.append_assoc, List.length_append, ← hc₁.length] at hlength₃
    have haround₂ : Around (namesOf base) (x ++ us) vs := haround₂
    have haround₃ : Around (namesOf base) (x ++ us ++ vs) ws := haround₃
    exact .append haround₂ (.append haround₃ (h.stmts base hc₃ (by omega) hs))
  · rw [heq] at hs
    exact absurd hs.few (Nat.not_lt.mpr hlimit)

theorem stays_stmtWithin {n : Nat} (h : StaysStmts ts n)
    (base : List (Option String)) :
    Stays ts base (n + 1) 3 true anyToken (stmtWithin (n + 1)) := by
  refine .offset_bind fun start => .peek_bind fun kind => ?_
  split
  · exact .advance_bind rfl (.bind (.of_takes takes_binding nofun) fun _ =>
      .spanFrom_bind fun _ => .pure)
  · exact .advance_bind rfl (.bind (.of_takes takes_binding nofun) fun _ =>
      .spanFrom_bind fun _ => .pure)
  · exact .advance_bind rfl (.bind (.of_takes takes_binding nofun) fun _ =>
      .spanFrom_bind fun _ => .pure)
  · exact .advance_bind rfl (.eat_bind rfl (.spanFrom_bind fun _ => .pure)
      (.bind (.of_takes takes_expr nofun) fun _ =>
        .mark_bind rfl (.spanFrom_bind fun _ => .pure)))
  · exact ((h.cond base).within (by omega)).of_any
  · exact .advance_bind rfl (.name_bind fun _ =>
        .keyword_bind rfl (.bind (.of_takes takes_expr nofun) fun _ =>
      .bind ((h.body base).within (by omega)) fun _ =>
        .spanFrom_bind fun _ => .pure))
  · exact .bind (.of_takes takes_expr.of_any nofun) fun _ =>
      .mark_bind rfl (.spanFrom_bind fun _ => .pure)

theorem stays_ifWithin {n : Nat} (h : StaysStmts ts n)
    (base : List (Option String)) :
    Stays ts base (n + 1) 2 true anyToken (ifWithin (n + 1)) := by
  refine .offset_bind fun start =>
    .keyword_bind rfl (.bind (.of_takes takes_expr nofun) fun test =>
    .bind ((h.body base).within (by omega)) fun body =>
      .eat_bind rfl (.peek_bind fun kind => ?_) (.spanFrom_bind fun _ => .pure))
  split
  · exact .bind ((h.cond base).within (by omega)).forget.of_any fun _ =>
      .spanFrom_bind fun _ => .pure
  · exact .bind ((h.body base).within (by omega)).of_any fun _ =>
      .spanFrom_bind fun _ => .pure

theorem staysStmts (n : Nat) : StaysStmts ts n := by
  induction n with
  | zero =>
      refine ⟨fun _ => .fault, fun _ x c _ hn => ?_,
        fun _ => .fault, fun _ => .fault⟩
      omega
  | succ n ih =>
      exact ⟨fun base => stays_bodyWithin (ih.stmts base),
        closes_stmtsWithin ih, stays_stmtWithin ih, stays_ifWithin ih⟩

theorem stays_body {n k : Nat} : Stays ts base n k false anyToken body :=
  .of_length (r := fun l => bodyWithin (4 * l + 4)) fun _ =>
    ((staysStmts _).body base).within (by omega)

end Reading

end Exemplar
