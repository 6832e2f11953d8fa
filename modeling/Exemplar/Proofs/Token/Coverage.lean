import Exemplar.Proofs.Token.Locality
import Exemplar.Proofs.Token.Spans

/-!
# What scanning keeps

The tokens of a text are some of its lexemes, each at its own place
(`mem_tokens_collect`), so a token's characters can be cut out of the text,
and cut out they are the same token (`Lexeme.classify_take`). The lexemes that
are no tokens are errors, blanks or comments (`Lexeme.classify_skipped`):
without errors, what stands outside of all tokens is blank or a comment.

`Faithful` puts this together for a scan as a whole.
-/

namespace Exemplar

open Lexeme

/-! ## Lexemes and their places -/

/-- The lexeme at a place is read from there. -/
theorem exists_classify_of_lexemes :
    ∀ {a : List Lexeme} {cs : List Char} {l : Lexeme}
    {b : List Lexeme}, lexemes cs = a ++ l :: b →
      ∃ c rest, cs = (a.map Lexeme.chars).flatten ++ c :: rest
        ∧ l = ⟨(classify c rest).1, c :: rest.take (classify c rest).2⟩
  | _, [], _, _, h => by
      rw [lexemes] at h
      exact absurd h.symm (by simp)
  | [], c :: cs, l, b, h => by
      rw [lexemes] at h
      exact ⟨c, cs, rfl, (List.cons.inj h).1.symm⟩
  | x :: a, c :: cs, l, b, h => by
      rw [lexemes] at h
      obtain ⟨rfl, hrest⟩ := List.cons.inj h
      obtain ⟨d, rest, hcut, hl⟩ := exists_classify_of_lexemes hrest
      refine ⟨d, rest, ?_, hl⟩
      rw [List.map_cons, List.flatten_cons, List.append_assoc, ← hcut,
        List.cons_append, List.take_append_drop]

/-- A lexeme that is no token and no error is blank, or a comment. -/
theorem Lexeme.classify_skipped {c : Char} {cs : List Char} {n : Nat}
    (h : classify c cs = (.skipped, n)) :
    (∀ x ∈ c :: cs.take n, isGap x = true)
    ∨ ∃ line r, c :: cs = '/' :: '/' :: (line ++ r) ∧ c :: cs.take n
      = '/' :: '/' :: line
      ∧ '\n' ∉ line ∧ line.head? ≠ some '/' ∧ ∀ d ∈ r.head?, d = '\n' := by
  unfold classify at h
  split at h
  · next hgap =>
      obtain rfl := (Prod.mk.inj h).2
      refine Or.inl fun x hx => ?_
      rcases List.mem_cons.mp hx with rfl | hx
      · exact hgap
      · have htake : cs.take (cs.takeWhile isGap).length = cs.takeWhile isGap :=
          (List.prefix_iff_eq_take.mp (List.takeWhile_prefix _)).symm
        rw [htake] at hx
        exact List.mem_takeWhile_imp hx
  split at h
  · next hslash =>
      obtain ⟨hc, hhead⟩ := Bool.and_eq_true_iff.mp hslash
      obtain rfl := eq_of_beq hc
      obtain ⟨ds, rfl⟩ : ∃ ds, cs = '/' :: ds :=
        List.head?_eq_some_iff.mp (eq_of_beq hhead)
      have hsplit :=
        List.takeWhile_append_dropWhile (p := (· != '\n')) (l := ds)
      unfold comment at h
      dsimp only [List.tail_cons] at h
      split at h
      · cases h
      · next hdoc =>
          obtain rfl := (Prod.mk.inj h).2
          have htake : ds.take (ds.takeWhile (· != '\n')).length
              = ds.takeWhile (· != '\n') :=
            (List.prefix_iff_eq_take.mp (List.takeWhile_prefix _)).symm
          refine Or.inr ⟨ds.takeWhile (· != '\n'), ds.dropWhile (· != '\n'), ?_,
            ?_, ?_, ?_, ?_⟩
          · rw [hsplit]
          · rw [List.take_succ_cons, htake]
          · intro hmem
            exact absurd (List.mem_takeWhile_imp (p := fun x => x != '\n') hmem)
              (by decide)
          · intro hhead
            obtain ⟨doc, hline⟩ := List.head?_eq_some_iff.mp hhead
            exact hdoc doc hline
          · intro d hd
            have hne := List.head?_dropWhile_not (· != '\n') ds
            rw [Option.mem_def.mp hd] at hne
            simpa using hne
  split at h
  · unfold number at h
    dsimp only at h
    split at h
    · cases h
    · split at h <;> cases h
  split at h
  · unfold string at h
    split at h
    · cases h
    · split at h <;> cases h
  split at h
  · cases h
  · unfold mark at h
    split at h <;> cases h

namespace Scan

theorem byteLengthOf_append (a b : List Lexeme) :
    byteLengthOf (a ++ b) = byteLengthOf a + byteLengthOf b := by
  rw [byteLengthOf, List.map_append, List.flatten_append,
    Chars.byteLength_append]
  rfl

/-- Every byte belongs to a lexeme. -/
theorem exists_lexeme_at : ∀ {ls : List Lexeme} {i : Nat}, i < byteLengthOf ls →
    ∃ a l b, ls = a ++ l :: b ∧ byteLengthOf a ≤ i
      ∧ i < byteLengthOf a + Chars.byteLength l.chars
  | [], i, h => absurd h (Nat.not_lt_zero i)
  | l :: ls, i, h => by
      rw [byteLengthOf_cons] at h
      by_cases hi : i < Chars.byteLength l.chars
      · exact ⟨[], l, ls, rfl, Nat.zero_le i, by simpa [byteLengthOf] using hi⟩
      · have hrest : i - Chars.byteLength l.chars < byteLengthOf ls := by omega
        obtain ⟨a, l', b, rfl, hlow, hhigh⟩ := exists_lexeme_at hrest
        refine ⟨l :: a, l', b, rfl, ?_, ?_⟩
        · rw [byteLengthOf_cons]
          omega
        · rw [byteLengthOf_cons]
          omega

/-- Two lexemes are the same, or one stands before the other. -/
theorem apart_of_split {a a' b b' : List Lexeme} {l l' : Lexeme}
    (h : a ++ l :: b = a' ++ l' :: b') :
    l = l' ∨ byteLengthOf a + Chars.byteLength l.chars ≤ byteLengthOf a'
      ∨ byteLengthOf a' + Chars.byteLength l'.chars ≤ byteLengthOf a := by
  rcases List.append_eq_append_iff.mp h with ⟨m, rfl, hm⟩ | ⟨m, rfl, hm⟩
  · cases m with
    | nil => exact Or.inl (List.cons.inj hm).1
    | cons x m =>
        obtain ⟨rfl, -⟩ := List.cons.inj hm
        refine Or.inr (Or.inl ?_)
        rw [byteLengthOf_append, byteLengthOf_cons]
        omega
  · cases m with
    | nil => exact Or.inl (List.cons.inj hm).1.symm
    | cons x m =>
        obtain ⟨rfl, -⟩ := List.cons.inj hm
        refine Or.inr (Or.inr ?_)
        rw [byteLengthOf_append, byteLengthOf_cons]
        omega

/-- Every token is a lexeme, and shown where that stands. -/
theorem mem_tokens_collect :
    ∀ {ls : List Lexeme} {budget offset : Nat} {t : Token},
    t ∈ (collect budget offset ls).tokens →
      ∃ a l b, ls = a ++ l :: b ∧ l.shape = .token t.kind
        ∧ t.span = ⟨offset + byteLengthOf a,
            offset + byteLengthOf a + Chars.byteLength l.chars⟩
  | [], budget, offset, t, h => by cases budget <;> cases h
  | l :: ls, 0, offset, t, h => by cases h
  | l :: ls, budget + 1, offset, t, h => by
      -- a token of the rest stands behind one more lexeme
      have hbehind : ∀ budget,
        t ∈ (collect budget (offset + Chars.byteLength l.chars) ls).tokens →
          ∃ a l' b, l :: ls = a ++ l' :: b ∧ l'.shape = .token t.kind
            ∧ t.span = ⟨offset + byteLengthOf a,
                offset + byteLengthOf a + Chars.byteLength l'.chars⟩ := by
        intro budget h
        obtain ⟨a, l', b, rfl, hshape, hspan⟩ := mem_tokens_collect h
        exact ⟨l :: a, l', b, rfl, hshape,
          by rw [hspan, byteLengthOf_cons, Nat.add_assoc offset]⟩
      rw [collect] at h
      dsimp only at h
      split at h
      · exact hbehind _ h
      · next kind hshape =>
          rcases List.mem_cons.mp h with rfl | h
          · exact ⟨[], l, ls, rfl, hshape, rfl⟩
          · exact hbehind _ h
      · exact hbehind _ h

/-- Without errors, every lexeme that is a token is kept. -/
theorem token_mem_collect (budget : Nat) :
    ∀ {a : List Lexeme} {l : Lexeme} {b : List Lexeme}
    {offset : Nat}, (collect (budget + 1) offset (a ++ l :: b)).errors = [] →
      l.shape = .skipped ∨ ∃ kind, l.shape = .token kind
        ∧ ⟨kind,
          ⟨offset + byteLengthOf a,
            offset + byteLengthOf a + Chars.byteLength l.chars⟩⟩
          ∈ (collect (budget + 1) offset (a ++ l :: b)).tokens
  | [], ⟨shape, chars⟩, b, offset, h => by
      cases shape with
      | skipped => exact Or.inl rfl
      | token kind => exact Or.inr ⟨kind, rfl, List.mem_cons_self ..⟩
      | fault why => cases h
  | ⟨shape, chars⟩ :: a, l, b, offset, h => by
      cases shape with
      | skipped =>
          rcases token_mem_collect budget (a := a) h with
              hskip | ⟨kind, hshape, hmem⟩
          · exact Or.inl hskip
          · refine Or.inr ⟨kind, hshape, ?_⟩
            rwa [byteLengthOf_cons, ← Nat.add_assoc]
      | token kind' =>
          rcases token_mem_collect budget (a := a) h with
              hskip | ⟨kind, hshape, hmem⟩
          · exact Or.inl hskip
          · refine Or.inr ⟨kind, hshape, List.mem_cons_of_mem _ ?_⟩
            rwa [byteLengthOf_cons, ← Nat.add_assoc]
      | fault why => cases h

end Scan

/-! ## Cutting tokens out -/

/-- The characters that a span of the text covers. The span starts and stops
between two characters. -/
def Slice (text : String) (span : Span) (cs : List Char) : Prop :=
  ∃ before after, text.toList = before ++ cs ++ after
    ∧ span = ⟨Chars.byteLength before, Chars.byteLength (before ++ cs)⟩

/-- A comment that is no documentation, up to the end of its line. -/
def CommentAt (text : String) (span : Span) : Prop :=
  ∃ line after, '\n' ∉ line ∧ line.head? ≠ some '/'
    ∧ (∀ d ∈ after.head?, d = '\n')
    ∧ ∃ before, text.toList = before ++ '/' :: '/' :: line ++ after
      ∧ span = ⟨Chars.byteLength before,
        Chars.byteLength (before ++ '/' :: '/' :: line)⟩

/-- Two beginnings of a text of the same length in bytes are the same. -/
theorem Chars.append_inj_of_byteLength : ∀ {a a' b b' : List Char},
    a ++ b = a' ++ b' → Chars.byteLength a = Chars.byteLength a' →
    a = a' ∧ b = b'
  | [], [], _, _, h, _ => ⟨rfl, h⟩
  | [], c :: _, _, _, _, hlength => by
      have hpos := c.utf8Size_pos
      rw [Chars.byteLength_nil, Chars.byteLength_cons] at hlength
      omega
  | c :: _, [], _, _, _, hlength => by
      have hpos := c.utf8Size_pos
      rw [Chars.byteLength_nil, Chars.byteLength_cons] at hlength
      omega
  | c :: a, c' :: a', _, _, h, hlength => by
      obtain ⟨rfl, hrest⟩ := List.cons.inj h
      rw [Chars.byteLength_cons, Chars.byteLength_cons,
        Nat.add_left_cancel_iff] at hlength
      obtain ⟨rfl, hb⟩ := append_inj_of_byteLength hrest hlength
      exact ⟨rfl, hb⟩

theorem Slice.unique {text : String} {span : Span} {cs cs' : List Char}
    (h : Slice text span cs) (h' : Slice text span cs') : cs = cs' := by
  obtain ⟨before, after, htext, rfl⟩ := h
  obtain ⟨before', after', htext', hspan⟩ := h'
  obtain ⟨hstart, hstop⟩ := Span.mk.inj hspan
  rw [htext] at htext'
  obtain ⟨hfront, -⟩ := Chars.append_inj_of_byteLength htext' hstop
  exact (Chars.append_inj_of_byteLength hfront hstart).2

theorem slice_of_split {text : String} {a b : List Lexeme} {l : Lexeme}
    (h : lexemes text.toList = a ++ l :: b) :
    Slice text ⟨Scan.byteLengthOf a,
      Scan.byteLengthOf a + Chars.byteLength l.chars⟩ l.chars := by
  refine ⟨(a.map Lexeme.chars).flatten, (b.map Lexeme.chars).flatten, ?_, ?_⟩
  · have hflat := flatten_lexemes text.toList
    rw [h] at hflat
    rw [← hflat]
    simp
  · rw [Chars.byteLength_append]
    rfl

/-- The lexeme of a token, cut out, is that token. -/
theorem outline_of_token {cs : List Char} {a b : List Lexeme} {l : Lexeme}
    {k : Kind} (h : lexemes cs = a ++ l :: b) (hshape : l.shape = .token k) :
    outline l.chars = [.token k] := by
  obtain ⟨c, rest, -, rfl⟩ := exists_classify_of_lexemes h
  have halone := classify_take (n := (classify c rest).2) (Prod.ext hshape rfl)
  show outline (c :: rest.take (classify c rest).2) = _
  rw [outline_of_classify halone, List.drop_length]
  simp [outline, lexemes]

theorem kind_ne_eof_of_split {cs : List Char} {a b : List Lexeme} {l : Lexeme}
    {k : Kind} (h : lexemes cs = a ++ l :: b) (hshape : l.shape = .token k) :
    k ≠ .eof := by
  rintro rfl
  obtain ⟨c, rest, -, rfl⟩ := exists_classify_of_lexemes h
  exact classify_ne_eof c rest hshape

/-- Blanks and comments are what is left out between tokens. -/
theorem blank_or_comment_of_skipped {text : String} {a b : List Lexeme}
    {l : Lexeme} (h : lexemes text.toList = a ++ l :: b)
    (hshape : l.shape = .skipped) :
    (∀ c ∈ l.chars, isGap c = true)
    ∨ CommentAt text
      ⟨Scan.byteLengthOf a,
        Scan.byteLengthOf a + Chars.byteLength l.chars⟩ := by
  obtain ⟨c, rest, hcut, rfl⟩ := exists_classify_of_lexemes h
  rcases classify_skipped (n := (classify c rest).2) (Prod.ext hshape rfl) with
      hgap
    | ⟨line, r, hcs, htaken, hline, hdoc, hends⟩
  · exact Or.inl hgap
  · refine Or.inr ⟨line, r, hline, hdoc, hends, (a.map Lexeme.chars).flatten,
      ?_, ?_⟩
    · rw [hcut, hcs]
      simp
    · rw [Chars.byteLength_append, ← htaken]
      rfl

/-- A byte of characters that are all blank is one of a blank. -/
theorem exists_char_at : ∀ {cs : List Char} {i : Nat}, i < Chars.byteLength cs →
    ∃ x c y, cs = x ++ c :: y ∧ Chars.byteLength x ≤ i
      ∧ i < Chars.byteLength (x ++ [c])
  | [], i, h => absurd h (Nat.not_lt_zero i)
  | d :: cs, i, h => by
      rw [Chars.byteLength_cons] at h
      by_cases hi : i < d.utf8Size
      · exact ⟨[], d, cs, rfl, Nat.zero_le i, by simpa using hi⟩
      · have hrest : i - d.utf8Size < Chars.byteLength cs := by omega
        obtain ⟨x, c, y, rfl, hlow, hhigh⟩ := exists_char_at hrest
        refine ⟨d :: x, c, y, rfl, ?_, ?_⟩
        · rw [Chars.byteLength_cons]
          omega
        · rw [List.cons_append, Chars.byteLength_cons]
          omega

theorem Slice.char {text : String} {span : Span} {x y : List Char} {c : Char}
    (h : Slice text span (x ++ c :: y)) :
    Slice text ⟨span.start + Chars.byteLength x,
      span.start + Chars.byteLength (x ++ [c])⟩ [c] := by
  obtain ⟨before, after, htext, rfl⟩ := h
  refine ⟨before ++ x, y ++ after, ?_, ?_⟩
  · rw [htext]
    simp
  · simp

/-! ## Whole scans -/

theorem Ordered.pairwise {high : Nat} :
    ∀ {ts : List Token} {low : Nat}, Ordered high low ts →
    ts.Pairwise fun t t' => t.span.stop ≤ t'.span.start
  | [], _, _ => List.Pairwise.nil
  | _ :: _, _, ⟨_, _, hrest⟩ =>
    List.pairwise_cons.mpr ⟨fun t' ht' => (hrest.between t' ht').low,
      hrest.pairwise⟩

def Span.Covers (span : Span) (i : Nat) : Prop := span.start ≤ i ∧ i < span.stop

def Span.Apart (a b : Span) : Prop := a.stop ≤ b.start ∨ b.stop ≤ a.start

/-- Nothing of the text is dropped silently. -/
structure Faithful (text : String) (scan : Scan) : Prop where
  ends : ∃ ts, scan.tokens
    = ts ++ [⟨.eof, ⟨text.utf8ByteSize, text.utf8ByteSize⟩⟩]
    ∧ ∀ t ∈ ts, t.kind ≠ .eof
  nonempty : ∀ t ∈ scan.tokens, t.kind ≠ .eof → t.span.start < t.span.stop
  ordered : scan.tokens.Pairwise fun t t' =>
    t.span.start < t'.span.start ∧ t.span.stop ≤ t'.span.start
  few : scan.errors.length ≤ 20
  alone : ∀ t ∈ scan.tokens, ∃ cs, Slice text t.span cs
    ∧ (Scan.ofText (String.ofList cs)).errors = []
    ∧ (Scan.ofText (String.ofList cs)).tokens.map Token.kind
      = if t.kind = .eof then [.eof] else [t.kind, .eof]
  covered : scan.errors = [] → ∀ i < text.utf8ByteSize,
    (∃ t ∈ scan.tokens, t.span.Covers i)
    ∨ (∃ span c, isGap c = true ∧ Slice text span [c] ∧ span.Covers i)
    ∨ ∃ span, CommentAt text span ∧ span.Covers i ∧ ∀ t ∈ scan.tokens,
      t.span.Apart span

namespace Scan

/-- A token other than the last is a lexeme of the text. -/
theorem exists_split_of_mem {text : String} {t : Token}
    (h : t ∈ (collect errorLimit 0 (lexemes text.toList)).tokens) :
    ∃ a l b, lexemes text.toList = a ++ l :: b ∧ l.shape = .token t.kind
      ∧ t.span = ⟨byteLengthOf a,
        byteLengthOf a + Chars.byteLength l.chars⟩ := by
  obtain ⟨a, l, b, hsplit, hshape, hspan⟩ := mem_tokens_collect h
  rw [Nat.zero_add] at hspan
  exact ⟨a, l, b, hsplit, hshape, hspan⟩

theorem start_lt_stop_of_mem {text : String} {t : Token}
    (h : t ∈ (collect errorLimit 0 (lexemes text.toList)).tokens) :
    t.span.start < t.span.stop := by
  obtain ⟨a, l, b, hsplit, -, hspan⟩ := exists_split_of_mem h
  obtain ⟨c, rest, -, rfl⟩ := exists_classify_of_lexemes hsplit
  have hpos := c.utf8Size_pos
  rw [hspan, Chars.byteLength_cons]
  dsimp only
  omega

/-- Without errors, what is in no token is blank or in a comment. -/
theorem covered_of_clean {text : String} (hclean : (ofText text).errors = [])
    {i : Nat} (hi : i < text.utf8ByteSize) :
    (∃ t ∈ (ofText text).tokens, t.span.Covers i)
    ∨ (∃ span c, isGap c = true ∧ Slice text span [c] ∧ span.Covers i)
    ∨ ∃ span, CommentAt text span ∧ span.Covers i
      ∧ ∀ t ∈ (ofText text).tokens, t.span.Apart span := by
  rw [← byteLengthOf_lexemes] at hi
  obtain ⟨a, l, b, hsplit, hlow, hhigh⟩ := exists_lexeme_at hi
  have hfound : (collect (19 + 1) 0 (a ++ l :: b)).errors = [] := by
    rw [← hsplit]
    exact hclean
  rcases token_mem_collect 19 hfound with hskip | ⟨kind, -, hmem⟩
  · rcases blank_or_comment_of_skipped hsplit hskip with hgap | hcomment
    · have hinside : i - byteLengthOf a < Chars.byteLength l.chars := by omega
      obtain ⟨x, c, y, hchars, hx, hc⟩ := exists_char_at hinside
      have hslice := slice_of_split hsplit
      have hc' : isGap c = true := hgap c (by simp [hchars])
      rw [hchars] at hslice
      refine Or.inr (Or.inl ⟨_, c, hc', hslice.char, ?_, ?_⟩)
      · show byteLengthOf a + Chars.byteLength x ≤ i
        omega
      · show i < byteLengthOf a + Chars.byteLength (x ++ [c])
        omega
    · refine Or.inr (Or.inr ⟨_, hcomment, ⟨hlow, hhigh⟩, fun t ht => ?_⟩)
      rcases List.mem_append.mp ht with ht | ht
      · obtain ⟨a', l', b', hsplit', hshape, hspan⟩ := exists_split_of_mem ht
        rw [hspan]
        rcases apart_of_split (hsplit'.symm.trans hsplit) with
            rfl | hbefore | hbehind
        · exact absurd (hshape.symm.trans hskip) nofun
        · exact Or.inl hbefore
        · exact Or.inr hbehind
      · obtain rfl := List.mem_singleton.mp ht
        refine Or.inr ?_
        show byteLengthOf a + Chars.byteLength l.chars ≤ text.utf8ByteSize
        rw [← byteLengthOf_lexemes, hsplit, byteLengthOf_append,
          byteLengthOf_cons]
        omega
  · rw [Nat.zero_add, ← hsplit] at hmem
    exact Or.inl ⟨_, List.mem_append_left _ hmem, hlow, hhigh⟩

/-- The tokens of a text stand one behind the other, and all but the `eof` have
characters. -/
theorem pairwise_ofText (text : String) :
    (ofText text).tokens.Pairwise fun t t' =>
    t.span.start < t'.span.start ∧ t.span.stop ≤ t'.span.start := by
  have hstart : ∀ t ∈ (collect errorLimit 0 (lexemes text.toList)).tokens,
      t.span.start < t.span.stop := fun t ht => start_lt_stop_of_mem ht
  have horder := (ordered_ofText text).pairwise
  rw [ofText, List.pairwise_append] at horder ⊢
  obtain ⟨hfound, hlast, hbefore⟩ := horder
  refine ⟨hfound.imp_of_mem fun ht _ h =>
    ⟨Nat.lt_of_lt_of_le (hstart _ ht) h, h⟩, List.pairwise_singleton ..,
      fun t ht t' ht' => ?_⟩
  have h := hbefore t ht t' ht'
  exact ⟨Nat.lt_of_lt_of_le (hstart t ht) h, h⟩

/-- **Scanning drops nothing silently.** -/
theorem faithful_ofText (text : String) : Faithful text (ofText text) where
  ends := by
    refine ⟨_, rfl, fun t ht => ?_⟩
    obtain ⟨a, l, b, hsplit, hshape, -⟩ := exists_split_of_mem ht
    exact kind_ne_eof_of_split hsplit hshape
  nonempty := by
    intro t ht hne
    rcases List.mem_append.mp ht with ht | ht
    · exact start_lt_stop_of_mem ht
    · obtain rfl := List.mem_singleton.mp ht
      exact absurd rfl hne
  ordered := pairwise_ofText text
  few := length_errors_collect_le errorLimit 0 _
  alone := by
    intro t ht
    rcases List.mem_append.mp ht with ht | ht
    · obtain ⟨a, l, b, hsplit, hshape, hspan⟩ := exists_split_of_mem ht
      have houtline : outline l.chars = [t.kind].map .token :=
        outline_of_token hsplit hshape
      obtain ⟨herrors, hkinds⟩ := kinds_of_outline houtline
      refine ⟨l.chars, hspan ▸ slice_of_split hsplit, herrors, ?_⟩
      rw [hkinds, if_neg (kind_ne_eof_of_split hsplit hshape)]
      rfl
    · obtain rfl := List.mem_singleton.mp ht
      have houtline : outline [] = ([] : List Kind).map .token := by
        simp [outline, lexemes]
      obtain ⟨herrors, hkinds⟩ := kinds_of_outline houtline
      refine ⟨[], ⟨text.toList, [], by simp, ?_⟩, herrors, hkinds⟩
      rw [List.append_nil, Chars.byteLength_toList]
  covered := fun hclean _ hi => covered_of_clean hclean hi

end Scan

end Exemplar
