import Exemplar.Grammar.Blocks
import Exemplar.Proofs.Grammar.Reader
import Exemplar.Proofs.Tree.Layout

/-!
# Readers and the tokens they take

One statement about each reader says what it does with the tokens ahead
(`Takes`). Whether it fails or not, it takes some of them, adds faults at most,
and after a failure stands at the token the fault is about. And what it reads is
in a relation to the tokens that were taken: those in `done`, since some place
before, and then its own. The place is one whose offset was noted, so a span
from there to the token read last encloses what was taken since
(`Takes.spanFrom_bind`).

How much the relation says depends on the faults in the end, of which a
`Proviso` is known. A fault leaves tokens that belong to nothing, and where
there is no room for another, bodies and blocks end without their braces. As
faults are only added, what is known of the end was known before as well.
-/

namespace Exemplar

/-- The token neither is a brace nor starts a block, and it can be passed. -/
def Kind.isCalm (k : Kind) : Bool :=
  k != .mark .lBrace && k != .mark .rBrace && k != .keyword .namespace
    && k != .eof

/-- A token of the kind can be passed, and it is calm if only such are. -/
def Kind.passes (calm : Bool) (k : Kind) : Bool :=
  k.isCalm || !calm && k != .eof

theorem Kind.ne_eof_of_passes {calm : Bool} {k : Kind}
    (h : k.passes calm = true) : k ≠ .eof := by
  rintro rfl
  cases calm <;> cases h

theorem Kind.isCalm_of_passes {k : Kind} (h : k.passes true = true) :
    k.isCalm = true := by
  simpa [passes] using h

theorem Kind.passes_keyword (word : Keyword) :
    (Kind.keyword word).passes false = true := by
  cases word <;> rfl

/-- What is known of the faults in the end: that there are none, that there is
room for another, or nothing. -/
inductive Proviso where
  | clean
  | roomy
  | any

namespace Proviso

def Met : Proviso → List Fault → Prop
  | clean, faults => faults = []
  | roomy, faults => faults.length < Reading.faultLimit
  | any, _ => True

theorem Met.earlier {p : Proviso} {faults faults' : List Fault}
    (h : p.Met faults') (hgrows : faults <+: faults') : p.Met faults := by
  cases p with
  | clean =>
      obtain rfl : faults' = [] := h
      exact List.prefix_nil.mp hgrows
  | roomy => exact Nat.lt_of_le_of_lt hgrows.length_le h
  | any => trivial

end Proviso

namespace Cursor

/-! ## Moving on -/

/-- `c'` is where steps from `c` lead. -/
inductive Onward (c : Cursor) : Cursor → Prop
  | refl : Onward c c
  | step {c' : Cursor} (h : Onward c c') : Onward c c'.advance

theorem Onward.trans {c c₁ c₂ : Cursor} (h₁ : c.Onward c₁) (h₂ : c₁.Onward c₂) :
    c.Onward c₂ := by
  induction h₂ with
  | refl => exact h₁
  | step _ ih => exact ih.step

theorem Onward.faults {c c' : Cursor} (h : c.Onward c') :
    c'.faults = c.faults := by
  induction h with
  | refl => rfl
  | step _ ih => rw [faults_advance, ih]

theorem onward_advance (c : Cursor) : c.Onward c.advance := Onward.refl.step

theorem onward_toLast (c : Cursor) : c.Onward c.toLast := by
  obtain ⟨ahead, last, lastStop, taken, faults⟩ := c
  induction ahead generalizing lastStop taken with
  | nil => exact .refl
  | cons t rest ih =>
      have hrest := ih t.span.stop (taken + 1)
      have hsame : toLast ⟨rest, last, t.span.stop, taken + 1, faults⟩
          = toLast ⟨t :: rest, last, lastStop, taken, faults⟩ := by
        simp only [toLast, List.getLast?_cons, List.length_cons,
          Option.map_some, Option.getD_some, Cursor.mk.injEq,
          true_and, and_true]
        exact ⟨by cases rest.getLast? <;> rfl, by omega⟩
      rw [hsame] at hrest
      exact (onward_advance _).trans hrest

theorem onward_skipWhile (keep : Kind → Nat → Bool) (c : Cursor) :
    c.Onward (c.skipWhile keep) := by
  suffices h : ∀ (ts : List Token) (c : Cursor),
    c.Onward (skipWhile.go keep ts c) from h _ c
  intro ts
  induction ts with
  | nil => exact fun c => .refl
  | cons t ts ih =>
      intro c
      rw [skipWhile.go]
      split
      · exact (onward_advance c).trans (ih c.advance)
      · exact .refl

theorem onward_skipItemFrom (start : Nat) :
    ∀ (ts : List Token) (depth : Nat) (c : Cursor),
      c.Onward (Reading.skipItemFrom start depth ts c) := by
  intro ts
  induction ts with
  | nil => exact fun depth c => .refl
  | cons t ts ih =>
      intro depth c
      have hstep : ∀ depth,
          c.Onward (Reading.skipItemFrom start depth ts c.advance) :=
        fun depth => (onward_advance c).trans (ih depth c.advance)
      unfold Reading.skipItemFrom
      split
      · exact .refl
      · exact hstep _
      · exact .refl
      · exact onward_advance c
      · exact hstep _
      · split
        · exact .refl
        · exact hstep _

/-! ## Passing tokens -/

/-- `c'` lies behind `c`, past the given tokens, and no fault was lost. -/
structure Past (calm : Bool) (c : Cursor) (ts : List Token) (c' : Cursor) :
    Prop where
  ahead : c.ahead = ts ++ c'.ahead
  last : c'.last = c.last
  stop : c'.lastStop = (ts.getLast?.map fun t => t.span.stop).getD c.lastStop
  taken : c'.taken = c.taken + ts.length
  faults : c.faults <+: c'.faults
  kinds : calm = true → ∀ t ∈ ts, t.kind.isCalm = true

/-- The last one of the tokens, if there are any, is the one read last. -/
def ReadLast (done : List Token) (c : Cursor) : Prop :=
  ∀ t ∈ done.getLast?, c.lastStop = t.span.stop

theorem readLast_nil (c : Cursor) : ReadLast [] c := by
  intro t ht
  cases ht

namespace Past

variable {calm : Bool} {c c₁ c₂ : Cursor} {ts us : List Token}

theorem refl (c : Cursor) : c.Past calm [] c :=
  ⟨rfl, rfl, rfl, rfl, List.prefix_rfl, fun _ => nofun⟩

theorem trans (h₁ : c.Past calm ts c₁) (h₂ : c₁.Past calm us c₂) :
    c.Past calm (ts ++ us) c₂ := by
  refine ⟨by rw [h₁.ahead, h₂.ahead, List.append_assoc],
    h₂.last.trans h₁.last, ?_, ?_, h₁.faults.trans h₂.faults, fun hcalm =>
      List.forall_mem_append.mpr ⟨h₁.kinds hcalm, h₂.kinds hcalm⟩⟩
  · rw [h₂.stop, h₁.stop, List.getLast?_append]
    cases us.getLast? <;> rfl
  · rw [h₂.taken, h₁.taken, List.length_append, Nat.add_assoc]

theorem closed (h : c.Past calm ts c₁) (hc : c.Closed) : c₁.Closed := by
  rw [Closed, h.last]
  exact hc

theorem readLast {done : List Token} (h : c.Past calm ts c₁)
    (hc : c.ReadLast done) :
    c₁.ReadLast (done ++ ts) := by
  intro t ht
  rw [List.getLast?_append] at ht
  rw [h.stop]
  cases hend : ts.getLast? with
  | none =>
      rw [hend, Option.none_or] at ht
      exact hc t ht
  | some t' =>
      rw [hend, Option.some_or] at ht
      rw [Option.mem_some_iff.mp ht]
      rfl

/-- The first token that is taken is the next one. -/
theorem eq_current (h : c.Past calm ts c₁) {t : Token} (ht : t ∈ ts.head?) :
    c.current = t := by
  cases ts with
  | nil => cases ht
  | cons t' ts =>
      obtain rfl := Option.some.inj ht
      rw [current, h.ahead]
      rfl

end Past

theorem past_advance {calm : Bool} {c : Cursor} (hc : c.Closed)
    (hkind : c.current.kind.passes calm = true) :
    c.Past calm [c.current] c.advance := by
  obtain ⟨ahead, last, lastStop, taken, faults⟩ := c
  cases ahead with
  | nil => exact absurd hc (Kind.ne_eof_of_passes hkind)
  | cons t rest =>
      refine ⟨rfl, rfl, rfl, rfl, List.prefix_rfl, ?_⟩
      rintro rfl t' ht'
      rw [List.mem_singleton.mp ht']
      exact Kind.isCalm_of_passes hkind

theorem Onward.past {c c' : Cursor} (h : c.Onward c') :
    ∃ ts, c.Past false ts c' := by
  induction h with
  | refl => exact ⟨[], .refl c⟩
  | @step c' _ ih =>
      obtain ⟨ts, hpast⟩ := ih
      obtain ⟨ahead, last, lastStop, taken, faults⟩ := c'
      cases ahead with
      | nil => exact ⟨ts, hpast⟩
      | cons t rest =>
          exact ⟨ts ++ [t],
            hpast.trans ⟨rfl, rfl, rfl, rfl, List.prefix_rfl, nofun⟩⟩

end Cursor

namespace Reading

variable {α β : Type}

/-- Where skipping a statement leads. -/
theorem exists_skipStatement (start : Nat) :
    ∃ g : Cursor → Cursor, (∀ c : Cursor, c.Onward (g c))
      ∧ skipStatement start = fun c => .read () (g c) := by
  refine ⟨_, fun c => ?_, rfl⟩
  split
  · exact (Cursor.onward_skipWhile _ c).trans (Cursor.onward_advance _)
  · exact Cursor.onward_skipWhile _ c

/-- Where skipping an item leads. -/
theorem exists_skipItem (start : Nat) :
    ∃ g : Cursor → Cursor, (∀ c : Cursor, c.Onward (g c))
      ∧ skipItem start = fun c => .read () (g c) := by
  refine ⟨_, fun c => ?_, rfl⟩
  split
  · exact (Cursor.onward_skipItemFrom start c.ahead 0 c).trans
      (Cursor.onward_advance _)
  · exact Cursor.onward_skipItemFrom start c.ahead 0 c

/-! ## What readers take -/

/-- The reader takes tokens, calm ones if it is said so, and a fault is one of
the token ahead. If the proviso is met in the end, then what was read is in the
relation to the tokens in `done` and those that were taken; `next` is what is
known of the token ahead. -/
def Takes (calm : Bool) (p : Proviso) (done : List Token) (next : Token → Prop)
    (r : Reading α) (G : α → List Token → Prop) : Prop :=
  ∀ ⦃c : Cursor⦄, c.Closed → c.ReadLast done → next c.current →
    match r c with
    | .read v c' =>
        ∃ us, c.Past calm us c' ∧ (p.Met c'.faults → G v (done ++ us))
    | .failed f c' => f.span = c'.current.span ∧ ∃ us, c.Past calm us c'

/-- Nothing is known of the token ahead. -/
def anyToken : Token → Prop := fun _ => True

namespace Takes

variable {calm : Bool} {p : Proviso} {done : List Token} {next : Token → Prop}
  {r : Reading α} {G : α → List Token → Prop} {F : α → List Token → Prop}
    {H : β → List Token → Prop}

theorem of_read (h : Takes calm p [] next r G) {c c' : Cursor} {v : α}
    (hc : c.Closed) (hnext : next c.current) (hr : r c = .read v c') :
    ∃ us, c.Past calm us c' ∧ (p.Met c'.faults → G v us) := by
  have hread := h hc (Cursor.readLast_nil c) hnext
  rw [hr] at hread
  exact hread

theorem of_failed (h : Takes calm p [] next r G) {c c' : Cursor} {f : Fault}
    (hc : c.Closed) (hnext : next c.current) (hr : r c = .failed f c') :
    f.span = c'.current.span ∧ ∃ us, c.Past calm us c' := by
  have hfailed := h hc (Cursor.readLast_nil c) hnext
  rw [hr] at hfailed
  exact hfailed

theorem of_any (h : Takes calm p done anyToken r G) :
    Takes calm p done next r G :=
  fun _ hc hlast _ => h hc hlast trivial

theorem mono (h : Takes calm p done next r F) (himp : ∀ v ts, F v ts → G v ts) :
    Takes calm p done next r G := by
  intro c hc hlast hnext
  have hr := h hc hlast hnext
  cases hrc : r c with
  | read v c' =>
      rw [hrc] at hr
      obtain ⟨us, hpast, hF⟩ := hr
      exact ⟨us, hpast, fun hmet => himp _ _ (hF hmet)⟩
  | failed f c' =>
      rw [hrc] at hr
      exact hr

theorem of_next {next' : Token → Prop} (h : Takes calm p done next r G)
    (himp : ∀ t, next' t → next t) : Takes calm p done next' r G :=
  fun _ hc hlast hnext => h hc hlast (himp _ hnext)

/-- What is known of the token ahead is known when nothing is taken. -/
theorem pure_next {v : α} (h : ∀ t, next t → G v done) :
    Takes calm p done next (pure v) G := by
  intro c _ _ hnext
  refine ⟨[], .refl c, fun _ => ?_⟩
  rw [List.append_nil]
  exact h _ hnext

theorem pure {v : α} (h : G v done) : Takes calm p done next (pure v) G :=
  pure_next fun _ _ => h

theorem expected {what : Expected} :
    Takes calm p done next (expected what : Reading α) G :=
  fun c _ _ _ => ⟨rfl, [], .refl c⟩

theorem fault {why : Cause} :
    Takes calm p done next (fault why : Reading α) G :=
  fun c _ _ _ => ⟨rfl, [], .refl c⟩

/-- The rule for a reader whose run splits after the tokens `us`. -/
theorem rest {f : α → Reading β} {c c₁ : Cursor} {a : α} {us : List Token}
    {P : Prop} (hc : c.Closed) (hlast : c.ReadLast done)
    (hpast : c.Past calm us c₁) (hP : p.Met c₁.faults → P)
    (hf : Takes calm p (done ++ us) anyToken (f a) fun v ts => P → H v ts) :
    match f a c₁ with
    | .read v c' => ∃ us, c.Past calm us c'
      ∧ (p.Met c'.faults → H v (done ++ us))
    | .failed f c' => f.span = c'.current.span ∧ ∃ us, c.Past calm us c' := by
  have hrest := hf (hpast.closed hc) (hpast.readLast hlast) trivial
  cases hfc : f a c₁ with
  | read v c₂ =>
      rw [hfc] at hrest
      obtain ⟨us', hpast', hH⟩ := hrest
      refine ⟨us ++ us', hpast.trans hpast', fun hmet => ?_⟩
      exact List.append_assoc done us us'
        ▸ hH hmet (hP (hmet.earlier hpast'.faults))
  | failed why c₂ =>
      rw [hfc] at hrest
      obtain ⟨hspan, us', hpast'⟩ := hrest
      exact ⟨hspan, us ++ us', hpast.trans hpast'⟩

/-- The first reader takes tokens of its own, of which the first one is the
token that was ahead. -/
theorem bind {f : α → Reading β} (hr : Takes calm p [] next r F)
    (hf : ∀ a us, (∀ t ∈ us.head?, next t) →
      Takes calm p (done ++ us) anyToken (f a) fun v ts => F a us → H v ts) :
    Takes calm p done next (r >>= f) H := by
  intro c hc hlast hnext
  have hfirst := hr hc (Cursor.readLast_nil c) hnext
  cases hrc : r c with
  | failed why c₁ =>
      rw [hrc] at hfirst
      rw [bind_of_failed hrc]
      exact hfirst
  | read a c₁ =>
      rw [hrc] at hfirst
      obtain ⟨us, hpast, hF⟩ := hfirst
      rw [bind_of_read hrc]
      exact rest hc hlast hpast hF (hf a us fun t ht =>
        hpast.eq_current ht ▸ hnext)

theorem pure_bind {a : α} {f : α → Reading β}
    (h : Takes calm p done next (f a) H) :
    Takes calm p done next (Pure.pure a >>= f) H := h

theorem expected_bind {what : Expected} {f : α → Reading β} :
    Takes calm p done next (Reading.expected what >>= f) H :=
  fun c _ _ _ => ⟨rfl, [], .refl c⟩

/-- What takes tokens of its own does so behind others. -/
theorem tail (h : Takes calm p [] next r F)
    (himp : ∀ v us, F v us → G v (done ++ us)) :
    Takes calm p done next r G := by
  intro c hc _ hnext
  have hr := h hc (Cursor.readLast_nil c) hnext
  cases hrc : r c with
  | read v c' =>
      rw [hrc] at hr
      obtain ⟨us, hpast, hF⟩ := hr
      exact ⟨us, hpast, fun hmet => himp _ _ (hF hmet)⟩
  | failed f c' =>
      rw [hrc] at hr
      exact hr

/-- An allowance that is taken from what is ahead. -/
theorem of_length {r : Nat → Reading α}
    (h : ∀ n, Takes calm p done next (r n) G) :
    Takes calm p done next (fun c => r c.ahead.length c) G :=
  fun c hc hlast hnext => h c.ahead.length hc hlast hnext

theorem attempt (h : Takes calm p done next r G) :
    Takes calm p done next (attempt r) fun e ts => ∀ v, e = .ok v → G v ts := by
  intro c hc hlast hnext
  have hr := h hc hlast hnext
  unfold Reading.attempt
  cases hrc : r c with
  | read v c₁ =>
      rw [hrc] at hr
      obtain ⟨us, hpast, hG⟩ := hr
      exact ⟨us, hpast, fun hmet w hw => Except.ok.inj hw ▸ hG hmet⟩
  | failed f c₁ =>
      rw [hrc] at hr
      obtain ⟨-, us, hpast⟩ := hr
      exact ⟨us, hpast, fun _ => nofun⟩

/-- Where a fault is recorded, there was one. While there is room for another,
recording one says so. -/
theorem record {why : Fault} : Takes calm p [] next (record why) fun room _ =>
    p ≠ .clean ∧ (room = true ∨ p = .any) := by
  intro c _ _ _
  unfold Reading.record
  by_cases hlimit : c.faults.length < faultLimit
  · rw [if_pos hlimit]
    refine ⟨[], ⟨rfl, rfl, rfl, rfl, List.prefix_append .., fun _ => nofun⟩,
      fun hmet => ?_⟩
    cases p with
    | clean => exact absurd hmet (by simp [Proviso.Met])
    | roomy =>
        exact ⟨nofun, .inl (decide_eq_true (by simpa [Proviso.Met] using hmet))⟩
    | any => exact ⟨nofun, .inr rfl⟩
  · rw [if_neg hlimit]
    refine ⟨[], .refl c, fun hmet => ?_⟩
    cases p with
    | clean =>
        have hnil : c.faults = [] := hmet
        exact absurd (by rw [hnil]; decide) hlimit
    | roomy => exact absurd hmet hlimit
    | any => exact ⟨nofun, .inr rfl⟩

/-- Moving on without a look. -/
theorem of_onward {g : Cursor → Cursor} (h : ∀ c : Cursor, c.Onward (g c)) :
    Takes false p done next (fun c => .read () (g c)) fun _ _ => True := by
  intro c _ _ _
  obtain ⟨us, hpast⟩ := (h c).past
  exact ⟨us, hpast, fun _ => trivial⟩

/-! ### Offsets and spans -/

theorem offset_bind {f : Nat → Reading β}
    (h : ∀ start, Takes calm p done (fun t => next t ∧ t.span.start = start)
      (f start) H) :
    Takes calm p done next (offset >>= f) H :=
  fun c hc hlast hnext => h c.current.span.start hc hlast ⟨hnext, rfl⟩

/-- A span from where the first of the tokens starts encloses them. -/
theorem spanFrom_bind {start : Nat} {f : Span → Reading β}
    (h : ∀ stop, (OpensAt start done → (⟨start, stop⟩ : Span).Encloses done) →
      Takes calm p done next (f ⟨start, stop⟩) H) :
    Takes calm p done next (spanFrom start >>= f) H := by
  intro c hc hlast hnext
  refine h c.lastStop (fun hstart => ⟨hstart, ?_⟩) hc hlast hnext
  unfold ClosesAt
  cases hend : done.getLast? with
  | none =>
      rw [List.getLast?_eq_none_iff.mp hend] at hstart
      cases hstart
  | some t => exact congrArg some (hlast t hend).symm

theorem taken_bind {f : Nat → Reading β}
    (h : ∀ n, Takes calm p done next (f n) H) :
    Takes calm p done next (taken >>= f) H :=
  fun c hc hlast hnext => h c.taken hc hlast hnext

/-! ### Single tokens -/

theorem peek_bind {f : Kind → Reading β}
    (h : ∀ k, Takes calm p done (fun t => next t ∧ t.kind = k) (f k) H) :
    Takes calm p done next (peek >>= f) H :=
  fun c hc hlast hnext => h c.current.kind hc hlast ⟨hnext, rfl⟩

/-- A reader that takes the next token or fails, and then the rest. -/
theorem step_bind {f : α → Reading β} {P : α → Token → Prop}
    (hr : ∀ c : Cursor, next c.current →
      (∃ a, r c = .read a c.advance ∧ c.current.kind.passes calm = true
      ∧ P a c.current)
        ∨ ∃ f, r c = .failed f c ∧ f.span = c.current.span)
    (h : ∀ a t, next t → P a t → Takes calm p (done ++ [t]) anyToken (f a) H) :
    Takes calm p done next (r >>= f) H := by
  intro c hc hlast hnext
  rcases hr c hnext with ⟨a, hread, hkind, hP⟩ | ⟨why, hfailed, hspan⟩
  · rw [bind_of_read hread]
    exact rest (P := True) hc hlast (Cursor.past_advance hc hkind)
      (fun _ => trivial) ((h a _ hnext hP).mono fun _ _ hH _ => hH)
  · rw [bind_of_failed hfailed]
    exact ⟨hspan, [], .refl c⟩

theorem advance_bind {k : Kind} {f : Unit → Reading β}
    (hk : k.passes calm = true)
    (h : ∀ t, next t → t.kind = k →
      Takes calm p (done ++ [t]) anyToken (f ()) H) :
    Takes calm p done (fun t => next t ∧ t.kind = k)
      (Reading.advance >>= f) H :=
  step_bind (P := fun _ t => t.kind = k)
    (fun _ hnext => .inl ⟨(), rfl, hnext.2 ▸ hk, hnext.2⟩) fun _ t hnext _ =>
    h t hnext.1 hnext.2

theorem eat_bind {k : Kind} {f : Bool → Reading β} (hk : k.passes calm = true)
    (htrue : ∀ t, next t → t.kind = k →
      Takes calm p (done ++ [t]) anyToken (f true) H)
    (hfalse : Takes calm p done (fun t => next t ∧ t.kind ≠ k) (f false) H) :
    Takes calm p done next (eat k >>= f) H := by
  intro c hc hlast hnext
  by_cases hkind : c.current.kind = k
  · rw [eat_bind_of_eq hkind]
    exact (advance_bind hk htrue : Takes _ _ _ _ (Reading.advance >>= fun _ =>
      f true) H) hc hlast ⟨hnext, hkind⟩
  · rw [eat_bind_of_ne hkind]
    exact hfalse hc hlast ⟨hnext, hkind⟩

theorem eatOr_bind {k : Kind} {what : Expected} {f : Unit → Reading β}
    (hk : k.passes calm = true)
    (h : ∀ t, next t → t.kind = k →
      Takes calm p (done ++ [t]) anyToken (f ()) H) :
    Takes calm p done next ((do
      if ← eat k then return ()
      Reading.expected what) >>= f) H := by
  refine step_bind (P := fun _ t => t.kind = k) (fun c _ => ?_)
    fun _ t hnext hkind => h t hnext hkind
  by_cases hkind : c.current.kind = k
  · exact .inl ⟨(), eat_bind_of_eq hkind _, hkind ▸ hk, hkind⟩
  · exact .inr ⟨_, eat_bind_of_ne hkind _, rfl⟩

theorem mark_bind {sign : Mark} {f : Unit → Reading β}
    (hk : (Kind.mark sign).passes calm = true)
    (h : ∀ t, next t → t.kind = .mark sign →
      Takes calm p (done ++ [t]) anyToken (f ()) H) :
    Takes calm p done next (mark sign >>= f) H := eatOr_bind hk h

theorem keyword_bind {word : Keyword} {f : Unit → Reading β}
    (hk : (Kind.keyword word).passes calm = true)
    (h : ∀ t, next t → t.kind = .keyword word →
      Takes calm p (done ++ [t]) anyToken (f ()) H) :
    Takes calm p done next (keyword word >>= f) H := eatOr_bind hk h

theorem name_bind {f : String → Reading β}
    (h : ∀ text t, next t → t.kind = .ident text →
      Takes calm p (done ++ [t]) anyToken (f text) H) :
    Takes calm p done next (name >>= f) H := by
  refine step_bind (P := fun text t => t.kind = .ident text) (fun c _ => ?_) h
  unfold name
  rw [Reading.peek_bind]
  cases hkind : c.current.kind with
  | ident text => exact .inl ⟨text, rfl, rfl, rfl⟩
  | _ => exact .inr ⟨_, rfl, rfl⟩

end Takes

end Reading

end Exemplar
