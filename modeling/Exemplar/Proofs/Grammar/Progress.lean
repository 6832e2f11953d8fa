import Mathlib.Data.List.Forall2
import Exemplar.Proofs.Grammar.Recovery

/-!
# Readers make progress

A cursor is a place in a list of tokens that an `eof` ends. `Cursor.On` says
what holds of every cursor on the way: its place is in the list, what it calls
the next token and the end of the last one is what stands there, and the faults
recorded were found at places up to here, one behind the other.

`Agree all b b' next r r'` is about two readers that differ in their allowances
only. From a place at `b` or behind it, both do the same, and what they leave is
again such a cursor: at `b'` or behind it, or a fault of the token ahead.

`Runs` is the same for one iteration of a loop. What the loop does afterwards is
not known then: it is `k` for one reader and `k'` for the other. Either neither
matters, or both are asked at the same place, and this place is behind `p`,
where the iteration started. `Runs.close` closes the loop again.
-/

namespace Exemplar

open Reading

/-- The tokens with the `eof` that ends them. -/
def ended (tokens : List Token) : List Token :=
  match tokens.getLast? with
  | some ⟨.eof, _⟩ => tokens
  | some t => tokens ++ [⟨.eof, ⟨t.span.stop, t.span.stop⟩⟩]
  | none => [⟨.eof, ⟨0, 0⟩⟩]

/-- The faults are those of tokens up to place `i`, in order. None of them says
that an allowance was spent. -/
def FoundUpTo (all : List Token) (i : Nat) (faults : List Fault) : Prop :=
  ∃ places : List Nat, places.Pairwise (· ≤ ·) ∧ (∀ p ∈ places, p ≤ i)
    ∧ List.Forall₂ (fun f p => all[p]?.map Token.span = some f.span
      ∧ f.cause ≠ .tooDeep)
        faults places

theorem FoundUpTo.mono {all : List Token} {i j : Nat} {faults : List Fault}
    (h : FoundUpTo all i faults) (hle : i ≤ j) : FoundUpTo all j faults := by
  obtain ⟨places, hsorted, hplaces, hfound⟩ := h
  exact ⟨places, hsorted, fun p hp => Nat.le_trans (hplaces p hp) hle, hfound⟩

theorem FoundUpTo.concat {all : List Token} {i : Nat} {faults : List Fault}
    {f : Fault} (h : FoundUpTo all i faults)
    (hspan : all[i]?.map Token.span = some f.span)
    (hcause : f.cause ≠ .tooDeep) : FoundUpTo all i (faults ++ [f]) := by
  obtain ⟨places, hsorted, hplaces, hfound⟩ := h
  refine ⟨places ++ [i],
    List.pairwise_append.mpr ⟨hsorted, List.pairwise_singleton .., ?_⟩, ?_,
    List.rel_append hfound (.cons ⟨hspan, hcause⟩ .nil)⟩
  · rintro p hp j hj
    rw [List.mem_singleton.mp hj]
    exact hplaces p hp
  · intro p hp
    rcases List.mem_append.mp hp with hp | hp
    · exact hplaces p hp
    · exact Nat.le_of_eq (List.mem_singleton.mp hp)

namespace Cursor

/-- The cursor is at a place of the list, and keeps its books. -/
structure On (all : List Token) (c : Cursor) : Prop where
  rest : all.drop c.taken = c.ahead ++ [c.last]
  closed : c.Closed
  /-- The token read last is the one before. -/
  passed : ∀ i, c.taken = i + 1 → all[i]?.map (fun t => t.span.stop)
    = some c.lastStop
  found : FoundUpTo all c.taken c.faults
  few : c.faults.length ≤ faultLimit

/-- Reading starts at the first token. -/
theorem on_ofTokens (tokens : List Token) :
    (ofTokens tokens).On (ended tokens) := by
  have hstart : ∀ (front : List Token) (last : Token), last.kind = .eof →
      On (front ++ [last]) ⟨front, last, 0, 0, []⟩ := fun front last hlast =>
    ⟨rfl, hlast, nofun, ⟨[], .nil, nofun, .nil⟩, Nat.zero_le _⟩
  rcases List.eq_nil_or_concat tokens with rfl | ⟨front, ⟨kind, span⟩, rfl⟩
  · exact hstart [] _ rfl
  · rw [List.concat_eq_append]
    unfold ofTokens ended
    rw [List.getLast?_concat]
    cases kind with
    | eof =>
        rw [show (front ++ [(⟨.eof, span⟩ : Token)]).dropLast = front by simp]
        exact hstart front _ rfl
    | literal _ | ident _ | doc _ | keyword _ | mark _ => exact hstart _ _ rfl

namespace On

variable {all : List Token} {c c' : Cursor}

theorem length (h : c.On all) : c.taken + c.ahead.length + 1 = all.length := by
  have hlength := congrArg List.length h.rest
  rw [List.length_drop, List.length_append, List.length_singleton] at hlength
  omega

/-- The token ahead is the one at the place. -/
theorem current (h : c.On all) : all[c.taken]? = some c.current := by
  have hhead := congrArg List.head? h.rest
  rw [List.head?_drop] at hhead
  rw [hhead, Cursor.current]
  cases c.ahead <;> rfl

/-- The place alone says what is ahead. -/
theorem current_eq (h : c.On all) (h' : c'.On all)
    (hplace : c.taken = c'.taken) :
    c.current = c'.current := by
  refine Option.some.inj ?_
  rw [← h.current, ← h'.current, hplace]

theorem eof_of_end (h : c.On all) (hend : all.length ≤ c.taken + 1) :
    c.current.kind = .eof := by
  have hlength := h.length
  have hahead : c.ahead = [] := List.length_eq_zero_iff.mp (by omega)
  rw [Cursor.current, hahead]
  exact h.closed

/-- Either the `eof` is ahead, or the next token is. -/
theorem ahead_cases (h : c.On all) : c.ahead = [] ∧ c.current.kind = .eof
    ∨ ∃ t rest, c.ahead = t :: rest ∧ c.current = t
      ∧ c.advance.ahead = rest := by
  cases hahead : c.ahead with
  | nil =>
      refine Or.inl ⟨rfl, ?_⟩
      rw [Cursor.current, hahead]
      exact h.closed
  | cons t rest =>
      refine Or.inr ⟨t, rest, rfl, ?_, ?_⟩
      · rw [Cursor.current, hahead]
        rfl
      · rw [Cursor.advance, hahead]

/-- Past a token. -/
theorem pass (h : c.On all) {t : Token} {rest : List Token}
    (hahead : c.ahead = t :: rest) :
    c.advance.On all ∧ c.advance.taken = c.taken + 1 := by
  have hcurrent := h.current
  obtain ⟨ahead, last, lastStop, taken, faults⟩ := c
  obtain rfl : ahead = t :: rest := hahead
  refine ⟨⟨?_, h.closed, ?_, h.found.mono (Nat.le_succ _), h.few⟩, rfl⟩
  · have hdrop := congrArg List.tail h.rest
    rw [List.tail_drop] at hdrop
    exact hdrop
  · intro i hi
    obtain rfl : taken = i := Nat.succ.inj hi
    rw [hcurrent]
    rfl

theorem step (h : c.On all) (hkind : c.current.kind ≠ .eof) :
    c.advance.On all ∧ c.advance.taken = c.taken + 1 := by
  rcases h.ahead_cases with ⟨-, heof⟩ | ⟨t, rest, hahead, -⟩
  · exact absurd heof hkind
  · exact h.pass hahead

theorem onward (h : c.On all) (hc : c.Onward c') :
    c'.On all ∧ c.taken ≤ c'.taken := by
  induction hc with
  | refl => exact ⟨h, Nat.le_refl _⟩
  | @step c₁ _ ih =>
      obtain ⟨hc₁, hle⟩ := ih
      rcases hc₁.ahead_cases with ⟨hahead, -⟩ | ⟨t, rest, hahead, -⟩
      · rw [advance_nil hahead]
        exact ⟨hc₁, hle⟩
      · obtain ⟨hpast, htaken⟩ := hc₁.pass hahead
        exact ⟨hpast, by omega⟩

/-- A fault of the token ahead is recorded if there is room. -/
theorem record (h : c.On all) {why : Fault} (hspan : why.span = c.current.span)
    (hcause : why.cause ≠ .tooDeep) :
    ∃ room c', Reading.record why c = .read room c' ∧ c'.On all
      ∧ c'.taken = c.taken := by
  unfold Reading.record
  by_cases hroom : c.faults.length < faultLimit
  · rw [if_pos hroom]
    refine ⟨_, _, rfl,
      ⟨h.rest, h.closed, h.passed, h.found.concat ?_ hcause, ?_⟩, rfl⟩
    · rw [h.current, hspan]
      rfl
    · rw [List.length_append]
      exact hroom
  · rw [if_neg hroom]
    exact ⟨_, c, rfl, h, rfl⟩

end On

end Cursor

/-! ## Readers -/

namespace Reading

/-- Reading comes to `b'` at least, or fails at `b` at least with a fault of
the token that is ahead then. -/
def Goes {α : Type} (all : List Token) (b b' : Nat) : Outcome α → Prop
  | .read _ c => c.On all ∧ b' ≤ c.taken
  | .failed f c =>
      c.On all ∧ b ≤ c.taken ∧ f.span = c.current.span ∧ f.cause ≠ .tooDeep

/-- Two readers that do the same; or, in an iteration that started at `p`,
they go on behind `p`, one with `k` and the other with `k'`. -/
def Continues {α σ : Type} (all : List Token) (p : Nat) (k k' : σ → Reading α)
    (b b' : Nat) (o o' : Outcome α) : Prop :=
  o = o' ∧ Goes all b b' o
    ∨ ∃ (s : σ) (c : Cursor) (g : α → α), c.On all ∧ p < c.taken
        ∧ o = (k s c).map g ∧ o' = (k' s c).map g

/-- From `b` or behind it, both readers do the same and go to `b'` at least, or
their loop goes on. -/
def Runs {α σ : Type} (all : List Token) (p : Nat) (k k' : σ → Reading α)
    (b b' : Nat) (next : Token → Prop) (r r' : Reading α) : Prop :=
  ∀ ⦃c : Cursor⦄, c.On all → b ≤ c.taken → next c.current →
    Continues all p k k' b b' (r c) (r' c)

/-- Both readers do the same, with no loop to go on with. -/
abbrev Agree {α : Type} (all : List Token) (b b' : Nat) (next : Token → Prop)
    (r r' : Reading α) : Prop :=
  Runs all 0 (σ := Empty) nofun nofun b b' next r r'

variable {α β σ : Type} {all : List Token} {p b b' : Nat} {next : Token → Prop}

theorem Goes.mono {a a' : Nat} {o : Outcome α} (h : Goes all b b' o)
    (ha : a ≤ b) (ha' : a' ≤ b') :
    Goes all a a' o := by
  cases o with
  | read v c => exact ⟨h.1, Nat.le_trans ha' h.2⟩
  | failed f c => exact ⟨h.1, Nat.le_trans ha h.2.1, h.2.2⟩

theorem Continues.mono {k k' : σ → Reading α} {a a' : Nat} {o o' : Outcome α}
    (h : Continues all p k k' b b' o o') (ha : a ≤ b) (ha' : a' ≤ b') :
    Continues all p k k' a a' o o' := by
  rcases h with ⟨hsame, hgoes⟩ | hon
  · exact Or.inl ⟨hsame, hgoes.mono ha ha'⟩
  · exact Or.inr hon

/-- Where both loops go on alike, the readers do the same. -/
theorem Continues.eq {k k' : σ → Reading α} {o o' : Outcome α}
    (h : Continues all p k k' b b' o o')
    (hk : ∀ s c, c.On all → p < c.taken → k s c = k' s c) : o = o' := by
  rcases h with ⟨hsame, -⟩ | ⟨s, c, g, hc, hlt, heq, heq'⟩
  · exact hsame
  · rw [heq, heq', hk s c hc hlt]

theorem Goes.map {o : Outcome α} (h : Goes all b b' o) (g : α → β) :
    Goes all b b' (o.map g) := by
  cases o <;> exact h

theorem Agree.apply {r r' : Reading α} (h : Agree all b b' next r r')
    {c : Cursor} (hc : c.On all) (hb : b ≤ c.taken) (hnext : next c.current) :
    r c = r' c ∧ Goes all b b' (r c) := by
  rcases h hc hb hnext with h | ⟨s, -⟩
  · exact h
  · exact s.elim

theorem Agree.of_apply {r r' : Reading α}
    (h : ∀ c : Cursor, c.On all → b ≤ c.taken →
    next c.current → r c = r' c ∧ Goes all b b' (r c)) :
    Agree all b b' next r r' :=
  fun c hc hb hnext => Or.inl (h c hc hb hnext)

namespace Runs

variable {k k' : σ → Reading α} {r r' : Reading α}

theorem of_any (h : Runs all p k k' b b' anyToken r r') :
    Runs all p k k' b b' next r r' :=
  fun _ hc hb _ => h hc hb trivial

theorem weaken {a' : Nat} (h : Runs all p k k' b a' next r r') (hle : b' ≤ a') :
    Runs all p k k' b b' next r r' :=
  fun _ hc hb hnext => (h hc hb hnext).mono (Nat.le_refl _) hle

/-- Behind the last token there is no place. -/
theorem absurd (h : all.length ≤ b) : Runs all p k k' b b' next r r' := by
  intro c hc hb _
  have hlength := hc.length
  omega

/-- The iteration ends, and the loop goes on. -/
theorem close (h : Runs all b k k' b b next r r')
    (hk : ∀ s, Agree all (b + 1) (b + 1) anyToken (k s) (k' s)) :
    Agree all b b next r r' := by
  refine .of_apply fun c hc hb hnext => ?_
  rcases h hc hb hnext with h | ⟨s, c', g, hc', hlt, heq, heq'⟩
  · exact h
  · obtain ⟨hsame, hgoes⟩ := (hk s).apply hc' hlt trivial
    rw [heq, heq', hsame]
    rw [hsame] at hgoes
    exact ⟨rfl, (hgoes.map g).mono (Nat.le_succ _) (Nat.le_succ _)⟩

theorem pure {v : α} (hle : b' ≤ b) :
    Runs all p k k' b b' next (pure v) (pure v) :=
  fun _ hc hb _ => Or.inl ⟨rfl, hc, Nat.le_trans hle hb⟩

theorem fault {why : Cause} (hwhy : why ≠ .tooDeep) :
    Runs all p k k' b b' next (fault why) (fault why) :=
  fun _ hc hb _ => Or.inl ⟨rfl, hc, hb, rfl, hwhy⟩

theorem expected {what : Expected} :
    Runs all p k k' b b' next (expected what) (expected what) :=
  fun _ hc hb _ => Or.inl ⟨rfl, hc, hb, rfl, nofun⟩

/-- The loop goes on, behind the place where the iteration started. -/
theorem again {s : σ} (hlt : p < b) :
    Runs all p k k' b b' next (k s) (k' s) := by
  intro c hc hb _
  have hid : ∀ o : Outcome α, o.map id = o := fun o => by cases o <;> rfl
  exact Or.inr ⟨s, c, id, hc, Nat.lt_of_lt_of_le hlt hb, (hid _).symm,
    (hid _).symm⟩

theorem again_bind {s : σ} {g : α → α} (hlt : p < b) :
    Runs all p k k' b b' next (k s >>= fun v => Pure.pure (g v))
      (k' s >>= fun v => Pure.pure (g v)) :=
  fun c hc hb _ =>
    Or.inr ⟨s, c, g, hc, Nat.lt_of_lt_of_le hlt hb, bind_pure_apply ..,
      bind_pure_apply ..⟩

/-- One after the other. -/
theorem bind_of {γ : Type} {b₁ : Nat} {r r' : Reading γ} {f f' : γ → Reading α}
    (hr : Agree all b b₁ next r r') (hb₁ : b ≤ b₁)
    (hf : ∀ v, Runs all p k k' b₁ b' anyToken (f v) (f' v)) :
    Runs all p k k' b b' next (r >>= f) (r' >>= f') := by
  intro c hc hb hnext
  obtain ⟨hsame, hgoes⟩ := hr.apply hc hb hnext
  cases hrc : r c with
  | failed why c₁ =>
      rw [bind_of_failed hrc, bind_of_failed (hsame.symm.trans hrc)]
      rw [hrc] at hgoes
      exact Or.inl ⟨rfl, hgoes⟩
  | read v c₁ =>
      rw [bind_of_read hrc, bind_of_read (hsame.symm.trans hrc)]
      rw [hrc] at hgoes
      exact (hf v hgoes.1 hgoes.2 trivial).mono hb₁ (Nat.le_refl _)

theorem bind {γ : Type} {r r' : Reading γ} {f f' : γ → Reading α}
    (hr : Agree all b b next r r')
    (hf : ∀ v, Runs all p k k' b b' anyToken (f v) (f' v)) :
    Runs all p k k' b b' next (r >>= f) (r' >>= f') :=
  bind_of hr (Nat.le_refl _) hf

theorem bind_moved {γ : Type} {r r' : Reading γ} {f f' : γ → Reading α}
    (hr : Agree all b (b + 1) next r r')
    (hf : ∀ v, Runs all p k k' (b + 1) b' anyToken (f v) (f' v)) :
    Runs all p k k' b b' next (r >>= f) (r' >>= f') :=
  bind_of hr (Nat.le_succ _) hf

theorem offset_bind {f f' : Nat → Reading α}
    (h : ∀ start, Runs all p k k' b b' next (f start) (f' start)) :
    Runs all p k k' b b' next (offset >>= f) (offset >>= f') :=
  fun _ hc hb hnext => h _ hc hb hnext

theorem spanFrom_bind {start : Nat} {f f' : Span → Reading α}
    (h : ∀ s, Runs all p k k' b b' next (f s) (f' s)) :
    Runs all p k k' b b' next (spanFrom start >>= f) (spanFrom start >>= f') :=
  fun _ hc hb hnext => h _ hc hb hnext

/-- The place that is noted can be taken for the one that is known. -/
theorem taken_bind {f f' : Nat → Reading α}
    (h : ∀ start, b ≤ start →
      Runs all p k k' start b' next (f start) (f' start)) :
    Runs all p k k' b b' next (taken >>= f) (taken >>= f') :=
  fun c hc hb hnext =>
    (h c.taken hb hc (Nat.le_refl _) hnext).mono hb (Nat.le_refl _)

theorem peek_bind {f f' : Kind → Reading α}
    (h : ∀ kind, Runs all p k k' b b' (fun t => t.kind = kind) (f kind)
      (f' kind)) :
    Runs all p k k' b b' next (peek >>= f) (peek >>= f') :=
  fun c hc hb _ => h c.current.kind hc hb rfl

/-- Allowances that are taken from what is ahead. -/
theorem of_length (r r' : Nat → Reading α)
    (h : ∀ a l, b ≤ a → a + l + 1 = all.length →
      Agree all a b' next (r l) (r' l)) :
    Agree all b b' next (fun c => r c.ahead.length c) fun c =>
      r' c.ahead.length c := by
  refine Agree.of_apply fun c hc hb hnext => ?_
  obtain ⟨hsame, hgoes⟩ :=
    (h c.taken _ hb hc.length).apply hc (Nat.le_refl _) hnext
  exact ⟨hsame, hgoes.mono hb (Nat.le_refl _)⟩

/-- Skipping without a look. -/
theorem of_onward {g : Cursor → Cursor} (h : ∀ c : Cursor, c.Onward (g c)) :
    Agree all b b next (fun c => .read () (g c)) fun c => .read () (g c) := by
  refine .of_apply fun c hc hb _ => ⟨rfl, ?_⟩
  obtain ⟨hc', hle⟩ := hc.onward (h c)
  exact ⟨hc', Nat.le_trans hb hle⟩

theorem advance {kind : Kind} (hkind : kind ≠ .eof) :
    Agree all b (b + 1) (fun t => t.kind = kind) Reading.advance
      Reading.advance := by
  refine .of_apply fun c hc hb hnext => ⟨rfl, ?_⟩
  obtain ⟨hc', htaken⟩ := hc.step (hnext ▸ hkind)
  exact ⟨hc', by omega⟩

theorem advance_bind {kind : Kind} {f f' : Unit → Reading α}
    (hkind : kind ≠ .eof)
    (h : Runs all p k k' (b + 1) b' anyToken (f ()) (f' ())) :
    Runs all p k k' b b' (fun t => t.kind = kind) (Reading.advance >>= f)
      (Reading.advance >>= f') :=
  bind_moved (advance hkind) fun _ => h

theorem eat_bind {kind : Kind} {f f' : Bool → Reading α} (hkind : kind ≠ .eof)
    (htrue : Runs all p k k' (b + 1) b' anyToken (f true) (f' true))
    (hfalse : Runs all p k k' b b' next (f false) (f' false)) :
    Runs all p k k' b b' next (eat kind >>= f) (eat kind >>= f') := by
  intro c hc hb hnext
  by_cases hcurrent : c.current.kind = kind
  · rw [eat_bind_of_eq hcurrent, eat_bind_of_eq hcurrent]
    have hpast : Runs all p k k' b b' (fun t => t.kind = kind)
      (Reading.advance >>= fun _ => f true)
        (Reading.advance >>= fun _ => f' true) := advance_bind hkind htrue
    exact hpast hc hb hcurrent
  · rw [eat_bind_of_ne hcurrent, eat_bind_of_ne hcurrent]
    exact hfalse hc hb hnext

theorem mark {sign : Mark} :
    Agree all b (b + 1) next (Reading.mark sign) (Reading.mark sign) :=
  eat_bind nofun (pure (Nat.le_refl _)) expected

theorem mark_bind {sign : Mark} {f f' : Unit → Reading α}
    (h : Runs all p k k' (b + 1) b' anyToken (f ()) (f' ())) :
    Runs all p k k' b b' next (Reading.mark sign >>= f)
      (Reading.mark sign >>= f') :=
  bind_moved mark fun _ => h

theorem keyword_bind {word : Keyword} {f f' : Unit → Reading α}
    (h : Runs all p k k' (b + 1) b' anyToken (f ()) (f' ())) :
    Runs all p k k' b b' next (keyword word >>= f) (keyword word >>= f') :=
  bind_moved (eat_bind nofun (pure (Nat.le_refl _)) expected) fun _ => h

theorem name : Agree all b (b + 1) next Reading.name Reading.name := by
  refine peek_bind fun kind => ?_
  split
  · exact advance_bind nofun (pure (Nat.le_refl _))
  · exact expected

theorem name_bind {f f' : String → Reading α}
    (h : ∀ text, Runs all p k k' (b + 1) b' anyToken (f text) (f' text)) :
    Runs all p k k' b b' next (Reading.name >>= f) (Reading.name >>= f') :=
  bind_moved name h

/-- Going on after a fault. What was read has moved, and so has what is
skipped, which starts at the token of the fault. -/
theorem resume {γ : Type} {r r' : Reading γ} {good good' : γ → Reading α}
    {skip : Reading Unit} {again again' spent spent' : Reading α}
    (hr : ∀ a, b ≤ a → Agree all a (a + 1) next r r')
    (hgood : ∀ v, Runs all p k k' (b + 1) b' anyToken (good v) (good' v))
    (hskip : ∀ {c c₂ c₃ : Cursor} {why : Fault}, c.On all → b ≤ c.taken →
      next c.current →
      r c = .failed why c₂ → c.taken ≤ c₂.taken → c₃.On all →
      c₃.taken = c₂.taken →
        ∃ c₄, skip c₃ = .read () c₄ ∧ c₄.On all ∧ b < c₄.taken)
    (hagain : Runs all p k k' (b + 1) b' anyToken again again')
    (hspent : Runs all p k k' b b' anyToken spent spent') :
    Runs all p k k' b b' next (resume r good skip again spent)
      (resume r' good' skip again' spent') := by
  intro c hc hb hnext
  obtain ⟨hsame, hgoes⟩ := (hr c.taken hb).apply hc (Nat.le_refl _) hnext
  have htry : attempt r' c = attempt r c := by rw [attempt, attempt, hsame]
  cases hrc : r c with
  | read v c₂ =>
      rw [hrc] at hgoes
      have hattempt : attempt r c = .read (.ok v) c₂ := by rw [attempt, hrc]
      rw [Reading.resume, Reading.resume, bind_of_read hattempt,
        bind_of_read (htry.trans hattempt)]
      have hmoved : b + 1 ≤ c₂.taken :=
        Nat.le_trans (Nat.succ_le_succ hb) hgoes.2
      exact (hgood v hgoes.1 hmoved trivial).mono (Nat.le_succ _)
        (Nat.le_refl _)
  | failed why c₂ =>
      rw [hrc] at hgoes
      obtain ⟨hc₂, hb₂, hspan, hcause⟩ := hgoes
      have hattempt : attempt r c = .read (.error why) c₂ := by
        rw [attempt, hrc]
      rw [Reading.resume, Reading.resume, bind_of_read hattempt,
        bind_of_read (htry.trans hattempt)]
      obtain ⟨room, c₃, hrecord, hc₃, htaken⟩ := hc₂.record hspan hcause
      dsimp only
      rw [bind_of_read hrecord, bind_of_read hrecord]
      cases room with
      | true =>
          obtain ⟨c₄, hskipped, hc₄, hlt⟩ :=
            hskip hc hb hnext hrc hb₂ hc₃ htaken
          have hgo : ∀ next : Reading α,
              (skip >>= fun _ => next) c₃ = next c₄ :=
            fun next => bind_of_read hskipped
          simp only [if_true, hgo]
          exact (hagain hc₄ hlt trivial).mono (Nat.le_succ _) (Nat.le_refl _)
      | false => exact hspent hc₃ (by omega) trivial

end Runs

/-! ## Loops -/

/-- `loop` repeats `body`. An iteration is the last, whatever is to follow, or
it goes on behind the place where it started; and it never falls back. -/
structure Loop (all : List Token) (body : (σ → Reading α) → σ → Reading α)
    (loop : σ → Reading α) : Prop where
  unfold : ∀ s c, c.On all → loop s c = body loop s c
  iteration : ∀ k k' s c, c.On all →
    Continues all c.taken k k' c.taken c.taken (body k s c) (body k' s c)

/-- After so many iterations from `s` and `c`, the loop goes on with `s'` from
`c'`: what it does there makes a difference. -/
inductive After (body : (σ → Reading α) → σ → Reading α) :
    Nat → σ → Cursor → σ → Cursor → Prop
  | zero {s : σ} {c : Cursor} : After body 0 s c s c
  | succ {n : Nat} {s s₁ s' : σ} {c c₁ c' : Cursor} (h : After body n s c s₁ c₁)
      (k k' : σ → Reading α) (hk : ∀ t d, (t, d) ≠ (s', c') → k t d = k' t d)
      (hne : body k s₁ c₁ ≠ body k' s₁ c₁) : After body (n + 1) s c s' c'

/-- Every iteration but the last has passed a token. -/
theorem Loop.taken_add_le {body : (σ → Reading α) → σ → Reading α}
    {loop : σ → Reading α} (hloop : Loop all body loop) {n : Nat} {s s' : σ}
    {c c' : Cursor} (hc : c.On all) (h : After body n s c s' c') :
    c'.On all ∧ c.taken + n ≤ c'.taken := by
  induction h with
  | zero => exact ⟨hc, Nat.le_refl _⟩
  | @succ n _ s₁ s' _ c₁ c' _ k k' hk hne ih =>
      obtain ⟨hc₁, hle⟩ := ih hc
      rcases hloop.iteration k k' s₁ c₁ hc₁ with
          ⟨hsame, -⟩ | ⟨t, d, g, hd, hlt, heq, heq'⟩
      · exact absurd hsame hne
      · have hplace : (t, d) = (s', c') := by
          by_contra hother
          rw [heq, heq', hk t d hother] at hne
          exact hne rfl
        obtain ⟨rfl, rfl⟩ := Prod.mk.inj hplace
        exact ⟨hd, by omega⟩

end Reading

end Exemplar
