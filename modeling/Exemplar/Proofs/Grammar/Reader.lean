import Exemplar.Grammar.Reading

/-!
# Readers and the kinds ahead

What a reader does depends on its cursor only through the *kinds* of the
tokens ahead, apart from spans. This file says so for the smallest readers:
`Reads` goes from the kinds ahead to the value read and the kinds left, and
`Reads.bind` chains such facts along a reader, so that proofs about larger
readers never mention a cursor.

Throughout, the list is closed by `eof` (`Cursor.Closed`), as is every list
that `Cursor.ofTokens` makes.
-/

namespace Exemplar

namespace Cursor

/-- The kinds of the tokens ahead, the closing one left out. -/
def kinds (c : Cursor) : List Kind := c.ahead.map Token.kind

/-- The token that closes the list is an `eof`. -/
def Closed (c : Cursor) : Prop := c.last.kind = .eof

/-- Tokens of the given kinds are ahead, and then `eof`. -/
structure At (c : Cursor) (ks : List Kind) : Prop where
  kinds : c.kinds = ks
  closed : c.Closed

theorem length_kinds (c : Cursor) : c.kinds.length = c.ahead.length := by
  simp [kinds]

theorem At.length {c : Cursor} {ks : List Kind} (h : c.At ks) :
    c.ahead.length = ks.length := by
  rw [← length_kinds, h.kinds]

theorem kind_current {c : Cursor} (h : c.Closed) :
    c.current.kind = c.kinds.headD .eof := by
  unfold current kinds
  cases c.ahead with
  | nil => exact h
  | cons t rest => rfl

theorem At.kind_current_cons {c : Cursor} {k : Kind} {ks : List Kind}
    (h : c.At (k :: ks)) :
    c.current.kind = k := by
  rw [kind_current h.closed, h.kinds]
  rfl

theorem At.kind_current_nil {c : Cursor} (h : c.At []) :
    c.current.kind = .eof := by
  rw [kind_current h.closed, h.kinds]
  rfl

/-- At an `eof` nothing is ahead, if no token ahead is one. -/
theorem ahead_eq_nil_of_eof {c : Cursor} (hend : c.current.kind = .eof)
    (hno : ∀ t ∈ c.ahead, t.kind ≠ .eof) : c.ahead = [] := by
  unfold current at hend
  cases hahead : c.ahead with
  | nil => rfl
  | cons t rest =>
      rw [hahead] at hend hno
      exact absurd hend (hno t List.mem_cons_self)

@[simp] theorem last_advance (c : Cursor) : c.advance.last = c.last := by
  unfold advance
  split <;> rfl

@[simp] theorem faults_advance (c : Cursor) : c.advance.faults = c.faults := by
  unfold advance
  split <;> rfl

theorem At.advance {c : Cursor} {k : Kind} {ks : List Kind}
    (h : c.At (k :: ks)) :
    c.advance.At ks := by
  obtain ⟨hkinds, hclosed⟩ := h
  refine ⟨?_, by rw [Closed, last_advance]; exact hclosed⟩
  unfold Cursor.kinds Cursor.advance at *
  cases hahead : c.ahead with
  | nil => rw [hahead] at hkinds; cases hkinds
  | cons t rest =>
      rw [hahead] at hkinds
      exact (List.cons.inj hkinds).2

/-- Tokens of the given kinds, all nowhere, and the `eof` that closes them. -/
def tokensNowhere (ks : List Kind) : List Token :=
  (ks ++ [Kind.eof]).map fun k => ⟨k, .nowhere⟩

theorem map_kind_tokensNowhere (ks : List Kind) :
    (tokensNowhere ks).map Token.kind = ks ++ [.eof] := by
  rw [tokensNowhere, List.map_map]
  exact List.map_id _

/-- A list of tokens that `eof` closes is read from its first token. -/
theorem at_ofTokens {tokens : List Token} {ks : List Kind}
    (h : tokens.map Token.kind = ks ++ [.eof]) :
    (ofTokens tokens).At ks ∧ (ofTokens tokens).faults = [] := by
  rcases List.eq_nil_or_concat tokens with rfl | ⟨front, t, rfl⟩
  · simp at h
  · rw [List.concat_eq_append, List.map_append] at h
    obtain ⟨hfront, hlast⟩ := List.append_inj' h rfl
    obtain ⟨kind, span⟩ := t
    obtain rfl : kind = .eof := (List.cons.inj hlast).1
    have hstart : ofTokens (front.concat ⟨.eof, span⟩)
        = ⟨front, ⟨.eof, span⟩, 0, 0, []⟩ := by
      simp [ofTokens]
    rw [hstart]
    exact ⟨⟨hfront, rfl⟩, rfl⟩

end Cursor

namespace Reading

variable {α β : Type}

/-! ## Taking readers apart -/

theorem bind_eq_read {r : Reading α} {f : α → Reading β}
    {c c' : Cursor} {v : β} :
    (r >>= f) c = .read v c' ↔ ∃ a c₁, r c = .read a c₁
      ∧ f a c₁ = .read v c' := by
  change Reading.bind r f c = _ ↔ _
  unfold Reading.bind
  cases r c with
  | read a c₁ =>
      refine ⟨fun h => ⟨a, c₁, rfl, h⟩, ?_⟩
      rintro ⟨a', c₁', h, h'⟩
      obtain ⟨rfl, rfl⟩ := Outcome.read.inj h
      exact h'
  | failed fault c₁ =>
      constructor
      · intro h
        cases h
      · rintro ⟨a', c₁', h, -⟩
        cases h

theorem bind_eq_failed {r : Reading α} {f : α → Reading β} {c c' : Cursor}
    {why : Fault} :
    (r >>= f) c = .failed why c'
      ↔ r c = .failed why c' ∨ ∃ a c₁, r c = .read a c₁
        ∧ f a c₁ = .failed why c' := by
  change Reading.bind r f c = _ ↔ _
  unfold Reading.bind
  cases r c with
  | read a c₁ =>
      refine ⟨fun h => Or.inr ⟨a, c₁, rfl, h⟩, ?_⟩
      rintro (h | ⟨a', c₁', h, h'⟩)
      · cases h
      · obtain ⟨rfl, rfl⟩ := Outcome.read.inj h
        exact h'
  | failed fault c₁ =>
      constructor
      · intro h
        obtain ⟨rfl, rfl⟩ := Outcome.failed.inj h
        exact Or.inl rfl
      · rintro (h | ⟨a', c₁', h, -⟩)
        · obtain ⟨rfl, rfl⟩ := Outcome.failed.inj h
          rfl
        · cases h

theorem bind_of_read {r : Reading α} {f : α → Reading β} {c c₁ : Cursor} {a : α}
    (h : r c = .read a c₁) : (r >>= f) c = f a c₁ := by
  change Reading.bind r f c = _
  rw [Reading.bind, h]

theorem bind_of_failed {r : Reading α} {f : α → Reading β} {c c₁ : Cursor}
    {why : Fault} (h : r c = .failed why c₁) : (r >>= f) c = .failed why c₁ :=
  bind_eq_failed.mpr (Or.inl h)

theorem pure_eq_read {v w : α} {c c' : Cursor} :
    (pure v : Reading α) c = .read w c' ↔ v = w ∧ c = c' := by
  change Outcome.read v c = _ ↔ _
  rw [Outcome.read.injEq]

theorem peek_bind (f : Kind → Reading β) (c : Cursor) :
    (peek >>= f) c = f c.current.kind c := rfl

theorem offset_bind (f : Nat → Reading β) (c : Cursor) :
    (offset >>= f) c = f c.current.span.start c := rfl

theorem spanFrom_bind (start : Nat) (f : Span → Reading β) (c : Cursor) :
    (spanFrom start >>= f) c = f ⟨start, c.lastStop⟩ c := rfl

theorem taken_bind (f : Nat → Reading β) (c : Cursor) :
    (taken >>= f) c = f c.taken c := rfl

theorem advance_bind (f : Unit → Reading β) (c : Cursor) :
    (advance >>= f) c = f () c.advance := rfl

theorem eat_apply (k : Kind) (c : Cursor) :
    eat k c = if c.current.kind = k then .read true c.advance
      else .read false c := by
  unfold eat
  rw [peek_bind]
  split <;> rfl

theorem eat_bind_of_eq {k : Kind} {c : Cursor} (h : c.current.kind = k)
    (f : Bool → Reading β) : (eat k >>= f) c = f true c.advance :=
  bind_of_read (by rw [eat_apply, if_pos h])

theorem eat_bind_of_ne {k : Kind} {c : Cursor} (h : c.current.kind ≠ k)
    (f : Bool → Reading β) : (eat k >>= f) c = f false c :=
  bind_of_read (by rw [eat_apply, if_neg h])

/-! ## Reading forwards -/

/-- With `ks` ahead, the reader reads a value with the property, leaves `rest`
ahead and records nothing. -/
def Reads (r : Reading α) (ks rest : List Kind) (P : α → Prop) : Prop :=
  ∀ ⦃c : Cursor⦄, c.At ks →
    ∃ v c', r c = .read v c' ∧ c'.At rest ∧ c'.faults = c.faults ∧ P v

namespace Reads

variable {r : Reading α} {ks mid rest : List Kind} {P : α → Prop} {Q : β → Prop}

theorem pure {v : α} (h : P v) : Reads (pure v) ks ks P :=
  fun c hc => ⟨v, c, rfl, hc, rfl, h⟩

theorem bind {f : α → Reading β} (hr : Reads r ks mid P)
    (hf : ∀ v, P v → Reads (f v) mid rest Q) : Reads (r >>= f) ks rest Q := by
  intro c hc
  obtain ⟨v, c₁, hv, hc₁, hfaults₁, hP⟩ := hr hc
  obtain ⟨w, c₂, hw, hc₂, hfaults₂, hQ⟩ := hf v hP hc₁
  exact ⟨w, c₂, (bind_of_read hv).trans hw, hc₂, hfaults₂.trans hfaults₁, hQ⟩

theorem mono {P' : α → Prop} (h : Reads r ks rest P) (himp : ∀ v, P v → P' v) :
    Reads r ks rest P' := by
  intro c hc
  obtain ⟨v, c₁, hv, hc₁, hfaults, hP⟩ := h hc
  exact ⟨v, c₁, hv, hc₁, hfaults, himp v hP⟩

/-- An allowance that is taken from what is ahead. -/
theorem of_length {r : Nat → Reading α} (h : Reads (r ks.length) ks rest P) :
    Reads (fun c => r c.ahead.length c) ks rest P := by
  intro c hc
  have hlength := hc.length
  obtain ⟨v, c₁, hv, hrest⟩ := h hc
  refine ⟨v, c₁, ?_, hrest⟩
  dsimp only
  rw [hlength, hv]

theorem attempt (h : Reads r ks rest P) :
    Reads (attempt r) ks rest fun e => ∃ v, e = .ok v ∧ P v := by
  intro c hc
  obtain ⟨v, c₁, hv, hc₁, hfaults, hP⟩ := h hc
  refine ⟨.ok v, c₁, ?_, hc₁, hfaults, v, rfl, hP⟩
  rw [Reading.attempt, hv]

theorem peek_bind {k : Kind} {f : Kind → Reading β}
    (h : Reads (f k) (k :: ks) rest Q) :
    Reads (peek >>= f) (k :: ks) rest Q := by
  intro c hc
  rw [Reading.peek_bind, hc.kind_current_cons]
  exact h hc

theorem peek_bind_nil {f : Kind → Reading β} (h : Reads (f .eof) [] rest Q) :
    Reads (peek >>= f) [] rest Q := by
  intro c hc
  rw [Reading.peek_bind, hc.kind_current_nil]
  exact h hc

theorem offset_bind {f : Nat → Reading β} (h : ∀ n, Reads (f n) ks rest Q) :
    Reads (offset >>= f) ks rest Q := fun _ hc => h _ hc

theorem spanFrom_bind {start : Nat} {f : Span → Reading β}
    (h : ∀ s, Reads (f s) ks rest Q) :
    Reads (spanFrom start >>= f) ks rest Q := fun _ hc => h _ hc

theorem taken_bind {f : Nat → Reading β} (h : ∀ n, Reads (f n) ks rest Q) :
    Reads (taken >>= f) ks rest Q := fun _ hc => h _ hc

theorem advance_bind {k : Kind} {f : Unit → Reading β}
    (h : Reads (f ()) ks rest Q) :
    Reads (advance >>= f) (k :: ks) rest Q := by
  intro c hc
  obtain ⟨v, c₁, hv, hc₁, hfaults, hQ⟩ := h hc.advance
  exact ⟨v, c₁, hv, hc₁, hfaults.trans (Cursor.faults_advance c), hQ⟩

theorem eat_bind {k : Kind} {f : Bool → Reading β}
    (h : Reads (f true) ks rest Q) :
    Reads (eat k >>= f) (k :: ks) rest Q := by
  intro c hc
  rw [eat_bind_of_eq hc.kind_current_cons]
  obtain ⟨v, c₁, hv, hc₁, hfaults, hQ⟩ := h hc.advance
  exact ⟨v, c₁, hv, hc₁, hfaults.trans (Cursor.faults_advance c), hQ⟩

theorem eat_bind_of_ne {k : Kind} {f : Bool → Reading β}
    (hk : ks.headD .eof ≠ k) (h : Reads (f false) ks rest Q) :
    Reads (eat k >>= f) ks rest Q := by
  intro c hc
  have hne : c.current.kind ≠ k := by
    rw [Cursor.kind_current hc.closed, hc.kinds]
    exact hk
  rw [Reading.eat_bind_of_ne hne]
  exact h hc

theorem mark_bind {sign : Mark} {f : Unit → Reading β}
    (h : Reads (f ()) ks rest Q) :
    Reads (mark sign >>= f) (.mark sign :: ks) rest Q :=
  .bind (P := fun _ => True) (.eat_bind (.pure trivial)) fun _ _ => h

theorem keyword_bind {word : Keyword} {f : Unit → Reading β}
    (h : Reads (f ()) ks rest Q) :
    Reads (keyword word >>= f) (.keyword word :: ks) rest Q :=
  .bind (P := fun _ => True) (.eat_bind (.pure trivial)) fun _ _ => h

theorem name_bind {text : String} {f : String → Reading β}
    (h : Reads (f text) ks rest Q) :
    Reads (name >>= f) (.ident text :: ks) rest Q :=
  .bind (P := fun v => v = text) (.peek_bind (.advance_bind (.pure rfl)))
    fun v hv => by rw [hv]; exact h

end Reads

/-! ## Paths and documentation -/

def dottedKinds (parts : List String) : List Kind :=
  parts.flatMap fun part => [.mark .dot, .ident part]

/-- The path that continues `path` with parts. -/
def joinPath (path : String) (parts : List String) : String :=
  parts.foldl (fun path part => path ++ "." ++ part) path

theorem reads_pathRest {rest : List Kind}
    (hrest : rest.headD .eof ≠ .mark .dot) :
    ∀ (parts : List String) (n : Nat) (path : String),
      (dottedKinds parts ++ rest).length ≤ n →
        Reads (pathRest n path) (dottedKinds parts ++ rest) rest
          fun v => v = joinPath path parts
  | [], n, path, _ => by
      cases n with
      | zero => exact .pure rfl
      | succ n => exact .eat_bind_of_ne hrest (.pure rfl)
  | part :: parts, n, path, hn => by
      cases n with
      | zero => simp [dottedKinds] at hn
      | succ n =>
          refine .eat_bind (.name_bind (reads_pathRest hrest parts n _ ?_))
          simp only [dottedKinds, List.flatMap_cons, List.cons_append,
            List.nil_append, List.length_cons] at hn ⊢
          omega

theorem reads_path {rest : List Kind} (hrest : rest.headD .eof ≠ .mark .dot)
    (first : String) (parts : List String) :
    Reads path (.ident first :: dottedKinds parts ++ rest) rest
      fun v => v = joinPath first parts :=
  .name_bind (.of_length (r := fun n => pathRest n first)
    (reads_pathRest hrest parts _ first (Nat.le_refl _)))

def docKinds (lines : List String) : List Kind := lines.map Kind.doc

def NoDocAhead (rest : List Kind) : Prop := ∀ line, rest.headD .eof ≠ .doc line

theorem reads_docsUpTo {rest : List Kind} (hrest : NoDocAhead rest) :
    ∀ (lines : List String) (n : Nat), (docKinds lines ++ rest).length ≤ n →
      Reads (docsUpTo n) (docKinds lines ++ rest) rest fun v => v = lines
  | [], 0, _ => .pure rfl
  | [], n + 1, _ => by
      cases rest with
      | nil => exact .peek_bind_nil (.pure rfl)
      | cons k rest =>
          refine .peek_bind ?_
          cases k with
          | doc line => exact absurd rfl (hrest line)
          | _ => exact .pure rfl
  | line :: lines, n + 1, hn =>
      .peek_bind (.advance_bind (.bind
        (reads_docsUpTo hrest lines n (by simpa [docKinds] using hn))
        fun v hv => .pure (by rw [hv])))

theorem reads_docs {rest : List Kind} (hrest : NoDocAhead rest)
    (lines : List String) :
    Reads docs (docKinds lines ++ rest) rest fun v => v = lines :=
  .of_length (r := docsUpTo) (reads_docsUpTo hrest lines _ (Nat.le_refl _))

end Reading

end Exemplar
