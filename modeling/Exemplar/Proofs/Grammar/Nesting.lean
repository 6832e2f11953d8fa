import Exemplar.Proofs.Grammar.BlockExtents

/-!
# Braces and the namespaces they belong to

`namespacesAround` says, from the tokens alone, in which namespaces the next
token stands: a brace belongs to a namespace when `namespace` and a path come
right before it. `Stays` says of a reader that it leaves as many braces open
as it found, and that the tokens it passes are in the same namespaces as the
place where it starts.

A reader that takes calm tokens only stays where it is (`Stays.of_takes`), and
what the readers of bodies do after a fault is in
`Exemplar.Proofs.Grammar.Recovery`. Two things can go wrong on the way, and both
are seen from the faults in the end (`Sound`): there is no room for another
fault, or a statement was given up in front of a brace that it was skipped over
(`Fault.skipsBrace`).
-/

namespace Exemplar

open Reading

/-! ## Open braces -/

/-- How much of the first line of a namespace block comes right before: none
of it, a part that a name must follow, or all of it but the brace. -/
inductive Header where
  | idle
  | wanting (path : Option String)
  | named (path : String)
deriving Repr, DecidableEq

namespace Header

def next : Header → Kind → Header
  | _, .keyword .namespace => .wanting none
  | .wanting none, .ident part => .named part
  | .wanting (some path), .ident part => .named (path ++ "." ++ part)
  | .named path, .mark .dot => .wanting (some path)
  | _, _ => .idle

/-- The namespace that a brace belongs to. -/
def name? : Header → Option String
  | .named path => some path
  | .idle | .wanting _ => none

end Header

/-- The braces that are open, the innermost first, and what comes before the
next token. -/
structure Nest where
  braces : List (Option String)
  header : Header
deriving Repr, DecidableEq

namespace Nest

def step (s : Nest) (k : Kind) : Nest where
  braces :=
    match k with
    | .mark .lBrace => s.header.name? :: s.braces
    | .mark .rBrace => s.braces.tail
    | _ => s.braces
  header := s.header.next k

/-- The braces that are open behind some tokens. -/
def after (x : List Token) : Nest :=
  x.foldl (fun s t => s.step t.kind) ⟨[], .idle⟩

/-- The given braces are open, and no block is about to start. -/
def flat (base : List (Option String)) : Nest := ⟨base, .idle⟩

theorem after_concat (x : List Token) (t : Token) :
    after (x ++ [t]) = (after x).step t.kind := by
  rw [after, List.foldl_append]
  rfl

end Nest

/-- The namespaces among braces. -/
def namesOf (braces : List (Option String)) : List String := braces.filterMap id

/-- The namespaces in which the token behind `x` stands, the innermost first. -/
def namespacesAround (x : List Token) : List String :=
  namesOf (Nest.after x).braces

theorem Nest.step_calm {k : Kind} (hk : k.isCalm = true)
    (base : List (Option String)) :
    (flat base).step k = flat base := by
  cases k with
  | keyword word => cases word <;> first | rfl | cases hk
  | mark sign => cases sign <;> first | rfl | cases hk
  | literal _ | ident _ | doc _ | eof => rfl

/-- Calm tokens change nothing. -/
theorem Nest.after_calm {us : List Token} (hus : ∀ t ∈ us, t.kind.isCalm = true)
    {x : List Token} {base : List (Option String)} (hx : after x = flat base) :
    after (x ++ us) = flat base := by
  induction us generalizing x with
  | nil => rwa [List.append_nil]
  | cons t us ih =>
      obtain ⟨ht, hus⟩ := List.forall_mem_cons.mp hus
      have hnext : after (x ++ [t]) = flat base := by
        rw [after_concat, hx, step_calm ht]
      have hrest := ih hus hnext
      rwa [List.append_assoc] at hrest

/-! ## Cursors and what they have passed -/

namespace Cursor

/-- The cursor has passed the tokens `x` of `ts`. -/
structure Behind (ts x : List Token) (c : Cursor) : Prop where
  tokens : ts = x ++ c.ahead
  taken : c.taken = x.length
  closed : c.Closed
  noEof : ∀ t ∈ ts, t.kind ≠ .eof

namespace Behind

variable {ts x : List Token} {c c' : Cursor} {t : Token} {rest : List Token}

theorem length (h : c.Behind ts x) : x.length + c.ahead.length = ts.length := by
  rw [h.tokens, List.length_append]

theorem advance (h : c.Behind ts x) (hahead : c.ahead = t :: rest) :
    c.advance.Behind ts (x ++ [t]) := by
  obtain ⟨ahead, last, lastStop, taken, faults⟩ := c
  obtain rfl : ahead = t :: rest := hahead
  have htaken : taken = x.length := h.taken
  refine ⟨?_, ?_, h.closed, h.noEof⟩
  · rw [h.tokens, List.append_assoc]
    rfl
  · rw [List.length_append, ← htaken]
    rfl

theorem past {calm : Bool} {us : List Token} (h : c.Behind ts x)
    (hpast : c.Past calm us c') :
    c'.Behind ts (x ++ us) := by
  refine ⟨?_, ?_, hpast.closed h.closed, h.noEof⟩
  · rw [h.tokens, hpast.ahead, List.append_assoc]
  · rw [hpast.taken, h.taken, List.length_append]

theorem exists_current (h : c.Behind ts x) (hkind : c.current.kind ≠ .eof) :
    ∃ t rest, c.ahead = t :: rest ∧ c.current = t := by
  unfold current at hkind ⊢
  cases hahead : c.ahead with
  | nil =>
      rw [hahead] at hkind
      exact absurd h.closed hkind
  | cons t rest => exact ⟨t, rest, rfl, rfl⟩

theorem exists_of_kind {k : Kind} (h : c.Behind ts x)
    (hkind : c.current.kind = k) (hne : k ≠ .eof) :
    ∃ t rest, c.ahead = t :: rest ∧ t.kind = k := by
  subst hkind
  obtain ⟨t, rest, hahead, hcurrent⟩ := h.exists_current hne
  exact ⟨t, rest, hahead, by rw [hcurrent]⟩

theorem ahead_eq_nil (h : c.Behind ts x) (hkind : c.current.kind = .eof) :
    c.ahead = [] :=
  ahead_eq_nil_of_eof hkind fun t ht =>
    h.noEof t (h.tokens ▸ List.mem_append_right _ ht)

theorem ahead_eq {us : List Token} (h : c.Behind ts x)
    (h' : c'.Behind ts (x ++ us)) :
    c.ahead = us ++ c'.ahead := by
  have htokens := h'.tokens
  rw [h.tokens, List.append_assoc] at htokens
  exact List.append_cancel_left htokens

theorem ahead_ne_nil {us : List Token} (h : c.Behind ts x)
    (h' : c'.Behind ts (x ++ us)) (hkind : c'.current.kind ≠ .eof) :
    c.ahead ≠ [] := by
  obtain ⟨t, rest, hahead, -⟩ := h'.exists_current hkind
  rw [h.ahead_eq h', hahead]
  exact List.append_ne_nil_of_right_ne_nil _ (List.cons_ne_nil _ _)

theorem kind_current (h : c.Behind ts x) (h' : c'.Behind ts x) :
    c.current.kind = c'.current.kind := by
  have hahead : c.ahead = c'.ahead :=
    List.append_cancel_left (h.tokens.symm.trans h'.tokens)
  rw [current, current, hahead]
  cases c'.ahead with
  | nil => exact h.closed.trans h'.closed.symm
  | cons t rest => rfl

theorem withFaults (h : c.Behind ts x) (faults : List Fault) :
    ({ c with faults := faults } : Cursor).Behind ts x :=
  ⟨h.tokens, h.taken, h.closed, h.noEof⟩

end Behind

/-- The cursor has passed `x`, which leaves the braces of `base` open, and no
block is about to start. At the end of the tokens nothing is asked. -/
structure Inside (ts : List Token) (base : List (Option String))
    (x : List Token) (c : Cursor) : Prop extends c.Behind ts x where
  here : ∀ t ∈ c.ahead.head?, (Nest.after x).braces = base
    ∧ (Nest.after x).step t.kind = (Nest.flat base).step t.kind

namespace Inside

variable {ts x : List Token} {base base' : List (Option String)} {c : Cursor}
  {t : Token} {rest : List Token}

theorem of_flat (h : c.Behind ts x) (hflat : Nest.after x = Nest.flat base) :
    c.Inside ts base x :=
  ⟨h, fun _ _ => by rw [hflat]; exact ⟨rfl, rfl⟩⟩

theorem of_end (h : c.Behind ts x) (hend : c.ahead = []) : c.Inside ts base x :=
  ⟨h, fun t ht => by rw [hend] at ht; cases ht⟩

/-- Past a token that leaves no block about to start. -/
theorem advance (h : c.Inside ts base x) (hahead : c.ahead = t :: rest)
    (hstep : (Nest.flat base).step t.kind = Nest.flat base') :
    c.advance.Inside ts base' (x ++ [t]) := by
  refine .of_flat (h.toBehind.advance hahead) ?_
  rw [Nest.after_concat, (h.here t (by rw [hahead]; rfl)).2, hstep]

theorem braces (h : c.Inside ts base x) (hahead : c.ahead ≠ []) :
    (Nest.after x).braces = base := by
  obtain ⟨t, rest, hcons⟩ := List.exists_cons_of_ne_nil hahead
  exact (h.here t (by rw [hcons]; rfl)).1

theorem withFaults (h : c.Inside ts base x) (faults : List Fault) :
    ({ c with faults := faults } : Cursor).Inside ts base x :=
  ⟨h.toBehind.withFaults faults, h.here⟩

end Inside

end Cursor

/-- Every one of the tokens `us` behind `x` stands in the given namespaces. -/
def Around (names : List String) (x us : List Token) : Prop :=
  ∀ p t q, us = p ++ t :: q → namespacesAround (x ++ p) = names

namespace Around

variable {names : List String} {x us vs : List Token} {t : Token}

theorem nil : Around names x [] := fun p t q h => by simp at h

theorem singleton (h : namespacesAround x = names) : Around names x [t] := by
  intro p t' q hsplit
  cases p with
  | nil => rwa [List.append_nil]
  | cons t'' p => simp at hsplit

theorem append (h : Around names x us) (h' : Around names (x ++ us) vs) :
    Around names x (us ++ vs) := by
  intro p t q hsplit
  -- the token is one of `vs`, the first of them in the limit, or one of `us`
  rcases List.append_eq_append_iff.mp hsplit with ⟨r, rfl, hr⟩ | ⟨r, hus, hr⟩
  · rw [← List.append_assoc]
    exact h' r t q hr
  · cases r with
    | nil =>
        rw [List.append_nil] at hus
        obtain rfl := hus
        have hnext := h' [] t q (by simpa using hr.symm)
        rwa [List.append_nil] at hnext
    | cons t' r =>
        obtain ⟨rfl, -⟩ := List.cons.inj hr
        exact h p t r hus

end Around

/-- Calm tokens stand where the first of them does. -/
theorem Cursor.Inside.past {ts x us : List Token} {base : List (Option String)}
    {c c' : Cursor} (h : c.Inside ts base x) (hpast : c.Past true us c') :
    c'.Inside ts base (x ++ us) ∧ Around (namesOf base) x us := by
  have hc' := h.toBehind.past hpast
  cases us with
  | nil =>
      refine ⟨⟨hc', fun t ht => ?_⟩, .nil⟩
      rw [List.append_nil]
      exact h.here t (by rwa [hpast.ahead])
  | cons t us =>
      obtain ⟨ht, hus⟩ := List.forall_mem_cons.mp (hpast.kinds rfl)
      obtain ⟨hbraces, hstep⟩ := h.here t (by rw [hpast.ahead]; rfl)
      have hafter : ∀ p, (∀ t ∈ p, t.kind.isCalm = true) →
          Nest.after (x ++ t :: p) = Nest.flat base := by
        intro p hp
        have hfirst : Nest.after (x ++ [t]) = Nest.flat base := by
          rw [Nest.after_concat, hstep, Nest.step_calm ht]
        have hall := Nest.after_calm hp hfirst
        rwa [List.append_assoc] at hall
      refine ⟨.of_flat hc' (hafter us hus), fun p t' q hsplit => ?_⟩
      cases p with
      | nil => rw [List.append_nil, namespacesAround, hbraces]
      | cons t₁ p =>
          obtain ⟨rfl, rfl⟩ := List.cons.inj hsplit
          rw [namespacesAround, hafter p fun t₂ ht₂ =>
            hus t₂ (List.mem_append_left _ ht₂)]
          rfl

/-! ## Faults that lead astray -/

/-- The token does not end the skipping of a statement. -/
def Kind.isGivenUp (k : Kind) : Bool :=
  k != .mark .semi && k != .mark .rBrace && !startsStatement k

/-- What is skipped from where a statement was given up. -/
def givenUp (ts : List Token) : List Token :=
  ts.takeWhile fun t => t.kind.isGivenUp

/-- Among the tokens behind `s`, the fault is found in a body, and what is
skipped from there has an opening brace. -/
def Fault.skipsBraceFrom (f : Fault) : Nest → List Token → Bool
  | _, [] => false
  | s, t :: ts =>
    (decide (t.span = f.span) && s.braces.head? == some none
        && (givenUp (t :: ts)).any fun t => t.kind == .mark .lBrace)
      || f.skipsBraceFrom (s.step t.kind) ts

/-- The fault is found in a body, and the statement that is given up there is
skipped past an opening brace. -/
def Fault.skipsBrace (ts : List Token) (f : Fault) : Bool :=
  f.skipsBraceFrom (.flat []) ts

theorem Fault.skipsBraceFrom_append {f : Fault} {y : List Token} :
    ∀ {x : List Token} {s : Nest},
    f.skipsBraceFrom s (x ++ y) = false →
      f.skipsBraceFrom (x.foldl (fun s t => s.step t.kind) s) y = false
  | [], _, h => h
  | t :: _, s, h =>
      skipsBraceFrom_append (s := s.step t.kind) (Bool.or_eq_false_iff.mp h).2

theorem Fault.lBrace_of_givenUp {f : Fault} {ts x : List Token} {c : Cursor}
    {base : List (Option String)} (h : f.skipsBrace ts = false)
    (hc : c.Inside ts (none :: base) x) (hspan : f.span = c.current.span) :
    ∀ t ∈ givenUp c.ahead, t.kind ≠ .mark .lBrace := by
  cases hahead : c.ahead with
  | nil => exact fun t ht => nomatch ht
  | cons t rest =>
      intro t' ht' hkind
      have hrest : f.skipsBraceFrom (Nest.after x) (t :: rest) = false := by
        rw [skipsBrace, hc.tokens, hahead] at h
        exact skipsBraceFrom_append h
      have hcurrent : c.current = t := by rw [Cursor.current, hahead]; rfl
      rw [skipsBraceFrom, hc.braces (by simp [hahead]), hspan,
        hcurrent] at hrest
      have hany : (givenUp (t :: rest)).any (fun t => t.kind == .mark .lBrace)
          = true :=
        List.any_eq_true.mpr ⟨t', ht', by simp [hkind]⟩
      simp [hany] at hrest

/-- There is room for another fault, and no fault led astray. -/
structure Sound (ts : List Token) (faults : List Fault) : Prop where
  few : faults.length < faultLimit
  tame : ∀ f ∈ faults, f.skipsBrace ts = false

theorem Sound.earlier {ts : List Token} {faults faults' : List Fault}
    (hgrows : faults <+: faults') (h : Sound ts faults') : Sound ts faults :=
  ⟨Nat.lt_of_le_of_lt hgrows.length_le h.few, fun f hf =>
    h.tame f (hgrows.subset hf)⟩

/-! ## Readers that stay where they are -/

namespace Outcome

variable {α β : Type}

def cursor : Outcome α → Cursor
  | .read _ c | .failed _ c => c

def map (g : α → β) : Outcome α → Outcome β
  | .read v c => .read (g v) c
  | .failed f c => .failed f c

@[simp] theorem cursor_map (g : α → β) (o : Outcome α) :
    (o.map g).cursor = o.cursor := by
  cases o <;> rfl

end Outcome

namespace Reading

variable {α β : Type}

/-- The reader takes tokens, and faults are only added. -/
def Passes (next : Token → Prop) (r : Reading α) : Prop :=
  ∀ ⦃c : Cursor⦄, c.Closed → next c.current → ∃ us, c.Past false us (r c).cursor

namespace Passes

variable {next : Token → Prop} {r : Reading α} {f : α → Reading β} {c : Cursor}
  {o : Outcome α}

theorem of_takes {calm : Bool} {p : Proviso} {G : α → List Token → Prop}
    (h : Takes calm p [] next r G) : Passes next r := by
  intro c hc hnext
  cases hr : r c with
  | read v c' =>
      obtain ⟨us, hpast, -⟩ := h.of_read hc hnext hr
      exact ⟨us, { hpast with kinds := nofun }⟩
  | failed f c' =>
      obtain ⟨-, us, hpast⟩ := h.of_failed hc hnext hr
      exact ⟨us, { hpast with kinds := nofun }⟩

theorem bind (hr : Passes next r) (hf : ∀ a, Passes anyToken (f a)) :
    Passes next (r >>= f) := by
  intro c hc hnext
  obtain ⟨us, hfirst⟩ := hr hc hnext
  cases hrc : r c with
  | failed why c₁ =>
      rw [hrc] at hfirst
      rw [bind_of_failed hrc]
      exact ⟨us, hfirst⟩
  | read a c₁ =>
      rw [hrc] at hfirst
      rw [bind_of_read hrc]
      obtain ⟨vs, hrest⟩ := hf a (hfirst.closed hc) trivial
      exact ⟨us ++ vs, hfirst.trans hrest⟩

theorem closed (h : Passes next r) (hc : c.Closed) (hnext : next c.current)
    (ho : r c = o) :
    o.cursor.Closed := by
  obtain ⟨us, hpast⟩ := h hc hnext
  exact ho ▸ hpast.closed hc

theorem sound {ts : List Token} (h : Passes next r) (hc : c.Closed)
    (hnext : next c.current) (ho : r c = o) (hs : Sound ts o.cursor.faults) :
    Sound ts c.faults := by
  obtain ⟨us, hpast⟩ := h hc hnext
  exact hs.earlier (ho ▸ hpast.faults)

end Passes

/-- From a place with the braces of `base` open, the reader comes to another
such place, through tokens that stand in the same namespaces; if it `moved`,
there is one. A fault is found where it stops. For a reader with the allowance
`n`, this is said of places with so few tokens ahead that it is not spent. -/
structure Stays (ts : List Token) (base : List (Option String)) (n k : Nat)
    (moved : Bool) (next : Token → Prop) (r : Reading α) : Prop where
  passes : Passes next r
  read : ∀ ⦃x c v c'⦄, c.Inside ts base x → 4 * c.ahead.length + k ≤ n →
    next c.current → r c = .read v c' → Sound ts c'.faults →
      ∃ us, c'.Inside ts base (x ++ us) ∧ Around (namesOf base) x us
        ∧ (moved = true → us ≠ [])
  failed : ∀ ⦃x c f c'⦄, c.Inside ts base x → 4 * c.ahead.length + k ≤ n →
    next c.current → r c = .failed f c' → Sound ts c'.faults →
      f.span = c'.current.span
        ∧ ∃ us, c'.Inside ts base (x ++ us) ∧ Around (namesOf base) x us

namespace Stays

variable {ts : List Token} {base : List (Option String)} {n k : Nat}
  {moved : Bool} {next : Token → Prop} {r : Reading α}

/-- What takes calm tokens only stays where it is. -/
theorem of_takes {G : α → List Token → Prop} (h : Takes true .any [] next r G)
    (hmoved : moved = true → ∀ v, ¬G v []) :
    Stays ts base n k moved next r where
  passes := .of_takes h
  read x c v c' hc _ hnext hr _ := by
    obtain ⟨us, hpast, hG⟩ := h.of_read hc.closed hnext hr
    obtain ⟨hc', haround⟩ := hc.past hpast
    exact ⟨us, hc', haround, fun hm hnil => hmoved hm v (hnil ▸ hG trivial)⟩
  failed x c f c' hc _ hnext hr _ := by
    obtain ⟨hspan, us, hpast⟩ := h.of_failed hc.closed hnext hr
    exact ⟨hspan, us, hc.past hpast⟩

theorem of_any (h : Stays ts base n k moved anyToken r) :
    Stays ts base n k moved next r :=
  ⟨fun _ hc _ => h.passes hc trivial, fun _ _ _ _ hc hm _ =>
    h.read hc hm trivial,
    fun _ _ _ _ hc hm _ => h.failed hc hm trivial⟩

theorem forget (h : Stays ts base n k true next r) :
    Stays ts base n k false next r := by
  refine ⟨h.passes, fun x c v c' hc hm hnext hr hs => ?_, h.failed⟩
  obtain ⟨us, hc', haround, -⟩ := h.read hc hm hnext hr hs
  exact ⟨us, hc', haround, nofun⟩

theorem pure {v : α} : Stays ts base n k false next (pure v) :=
  .of_takes (G := fun _ _ => True) (.pure trivial) nofun

theorem fault {why : Cause} :
    Stays ts base n k moved next (fault why : Reading α) :=
  .of_takes (G := fun _ _ => False) .fault fun _ _ => id

theorem expected {what : Expected} :
    Stays ts base n k moved next (expected what : Reading α) :=
  .of_takes (G := fun _ _ => False) .expected fun _ _ => id

/-- One after the other. What the first has moved, the second need not: it
then has fewer tokens ahead. -/
theorem bind_of {f : α → Reading β} {moved₁ moved₂ : Bool} {k' : Nat}
    (hr : Stays ts base n k moved₁ next r)
    (hf : ∀ a, Stays ts base n k' moved₂ anyToken (f a))
    (hk' : k' = k + if moved₁ = true then 4 else 0)
    (hmoved : moved = true → moved₁ = true ∨ moved₂ = true) :
    Stays ts base n k moved next (r >>= f) := by
  -- where the first reader stops, the allowance still does for the second
  have hfirst : ∀ {x : List Token} {c c₁ : Cursor} {a : α}, c.Inside ts base x →
      4 * c.ahead.length + k ≤ n → next c.current → r c = .read a c₁ →
        Sound ts (f a c₁).cursor.faults →
        ∃ us, c₁.Inside ts base (x ++ us) ∧ Around (namesOf base) x us
          ∧ (moved₁ = true → us ≠ []) ∧ 4 * c₁.ahead.length + k' ≤ n := by
    intro x c c₁ a hc hlength hnext ha hs
    have hs₁ := (hf a).passes.sound (hr.passes.closed hc.closed hnext ha)
      trivial rfl hs
    obtain ⟨us, hc₁, haround, hne⟩ := hr.read hc hlength hnext ha hs₁
    refine ⟨us, hc₁, haround, hne, ?_⟩
    have hcut := congrArg List.length (hc.ahead_eq hc₁.toBehind)
    rw [List.length_append] at hcut
    cases moved₁ with
    | true =>
        have hpos := List.length_pos_iff.mpr (hne rfl)
        rw [if_pos rfl] at hk'
        omega
    | false =>
        rw [if_neg nofun] at hk'
        omega
  refine ⟨hr.passes.bind fun a => (hf a).passes, ?_, ?_⟩
  · intro x c v c' hc hlength hnext hv hs
    obtain ⟨a, c₁, ha, hv⟩ := bind_eq_read.mp hv
    obtain ⟨us, hc₁, haround, hne, hlength₁⟩ :=
      hfirst hc hlength hnext ha (hv ▸ hs)
    obtain ⟨vs, hc', haround', hne'⟩ := (hf a).read hc₁ hlength₁ trivial hv hs
    refine ⟨us ++ vs, by rwa [← List.append_assoc], haround.append haround',
      fun htrue => ?_⟩
    rcases hmoved htrue with h | h
    · exact List.append_ne_nil_of_left_ne_nil (hne h) _
    · exact List.append_ne_nil_of_right_ne_nil _ (hne' h)
  · intro x c why c' hc hlength hnext hv hs
    rcases bind_eq_failed.mp hv with hv | ⟨a, c₁, ha, hv⟩
    · exact hr.failed hc hlength hnext hv hs
    · obtain ⟨us, hc₁, haround, -, hlength₁⟩ :=
        hfirst hc hlength hnext ha (hv ▸ hs)
      obtain ⟨hspan, vs, hc', haround'⟩ :=
        (hf a).failed hc₁ hlength₁ trivial hv hs
      exact ⟨hspan, us ++ vs, by rwa [← List.append_assoc],
        haround.append haround'⟩

theorem bind {f : α → Reading β} (hr : Stays ts base n k false next r)
    (hf : ∀ a, Stays ts base n k moved anyToken (f a)) :
    Stays ts base n k moved next (r >>= f) :=
  bind_of hr hf rfl Or.inr

theorem bind_moved {f : α → Reading β} (hr : Stays ts base n k true next r)
    (hf : ∀ a, Stays ts base n (k + 4) false anyToken (f a)) :
    Stays ts base n k moved next (r >>= f) :=
  bind_of hr hf rfl fun _ => Or.inl rfl

/-- An allowance that is taken from what is ahead. -/
theorem of_length {r : Nat → Reading α}
    (h : ∀ l, Stays ts base (4 * l + 4) 4 moved next (r l)) :
    Stays ts base n k moved next (fun c => r c.ahead.length c) :=
  ⟨fun _ hc hnext => (h _).passes hc hnext,
    fun _ _ _ _ hc _ hnext hr => (h _).read hc (Nat.le_refl _) hnext hr,
    fun _ _ _ _ hc _ hnext hr => (h _).failed hc (Nat.le_refl _) hnext hr⟩

/-- A smaller allowance does where fewer tokens are ahead. -/
theorem within {n' k' : Nat} (h : Stays ts base n k moved next r)
    (hle : n' + k ≤ n + k') :
    Stays ts base n' k' moved next r :=
  ⟨h.passes, fun _ _ _ _ hc hn => h.read hc (by omega),
    fun _ _ _ _ hc hn => h.failed hc (by omega)⟩

theorem peek_bind {f : Kind → Reading β}
    (h : ∀ kind, Stays ts base n k moved (fun t => t.kind = kind) (f kind)) :
    Stays ts base n k moved next (peek >>= f) :=
  ⟨fun c hc _ => (h c.current.kind).passes hc rfl,
    fun _ _ _ _ hc hm _ hr => (h _).read hc hm rfl hr,
    fun _ _ _ _ hc hm _ hr => (h _).failed hc hm rfl hr⟩

theorem offset_bind {f : Nat → Reading β}
    (h : ∀ start, Stays ts base n k moved next (f start)) :
    Stays ts base n k moved next (offset >>= f) :=
  ⟨fun _ hc hnext => (h _).passes hc hnext,
    fun _ _ _ _ hc hm hnext hr => (h _).read hc hm hnext hr,
    fun _ _ _ _ hc hm hnext hr => (h _).failed hc hm hnext hr⟩

theorem spanFrom_bind {start : Nat} {f : Span → Reading β}
    (h : ∀ s, Stays ts base n k moved next (f s)) :
    Stays ts base n k moved next (spanFrom start >>= f) :=
  ⟨fun _ hc hnext => (h _).passes hc hnext,
    fun _ _ _ _ hc hm hnext hr => (h _).read hc hm hnext hr,
    fun _ _ _ _ hc hm hnext hr => (h _).failed hc hm hnext hr⟩

theorem advance_bind {kind : Kind} {f : Unit → Reading β}
    (hkind : kind.passes true = true)
    (h : Stays ts base n (k + 4) false anyToken (f ())) :
    Stays ts base n k moved (fun t => t.kind = kind)
      (Reading.advance >>= f) := by
  have hadvance : Takes true .any [] (fun t => t.kind = kind)
      (Reading.advance >>= Pure.pure) fun _ us => us ≠ [] :=
    .of_next (.advance_bind hkind fun _ _ _ => .pure (by simp)) fun _ ht =>
      ⟨trivial, ht⟩
  exact .bind_moved (.of_takes hadvance fun _ _ h => h rfl) fun _ => h

theorem eat_bind {kind : Kind} {f : Bool → Reading β}
    (hkind : kind.passes true = true)
    (htrue : Stays ts base n (k + 4) false anyToken (f true))
    (hfalse : Stays ts base n k moved next (f false)) :
    Stays ts base n k moved next (eat kind >>= f) := by
  have htrue : Stays ts base n k moved (fun t => t.kind = kind)
      (Reading.advance >>= fun _ => f true) := .advance_bind hkind htrue
  refine ⟨fun c hc hnext => ?_, fun x c v c' hc hm hnext hr => ?_,
    fun x c why c' hc hm hnext hr => ?_⟩
  all_goals by_cases hcurrent : c.current.kind = kind
  · rw [eat_bind_of_eq hcurrent]
    exact htrue.passes hc hcurrent
  · rw [eat_bind_of_ne hcurrent]
    exact hfalse.passes hc hnext
  · rw [eat_bind_of_eq hcurrent] at hr
    exact htrue.read hc hm hcurrent hr
  · rw [eat_bind_of_ne hcurrent] at hr
    exact hfalse.read hc hm hnext hr
  · rw [eat_bind_of_eq hcurrent] at hr
    exact htrue.failed hc hm hcurrent hr
  · rw [eat_bind_of_ne hcurrent] at hr
    exact hfalse.failed hc hm hnext hr

theorem mark_bind {sign : Mark} {f : Unit → Reading β}
    (hsign : (Kind.mark sign).passes true = true)
    (h : Stays ts base n (k + 4) false anyToken (f ())) :
    Stays ts base n k moved next (mark sign >>= f) :=
  .bind_moved (.eat_bind hsign .pure .expected) fun _ => h

theorem keyword_bind {word : Keyword} {f : Unit → Reading β}
    (hword : (Kind.keyword word).passes true = true)
    (h : Stays ts base n (k + 4) false anyToken (f ())) :
    Stays ts base n k moved next (keyword word >>= f) :=
  .bind_moved (.eat_bind hword .pure .expected) fun _ => h

theorem name_bind {f : String → Reading β}
    (h : ∀ text, Stays ts base n (k + 4) false anyToken (f text)) :
    Stays ts base n k moved next (name >>= f) := by
  refine .bind_moved (.peek_bind fun kind => ?_) h
  split
  · exact .advance_bind rfl .pure
  · exact .expected

end Stays

end Reading

end Exemplar
