import Exemplar.Token.Scan

/-!
# Where tokens stand

The lexemes of a text follow each other without gaps, so the tokens among them
stand one behind the other, from the start of the text to its end
(`ordered_ofText`), and what is wrong with a lexeme is shown inside it
(`between_of_mem_errors`).

Only the second fact depends on what lexemes look like: a character that no
token starts with is the first one of its lexeme.
-/

namespace Exemplar

/-! ## Spans between two offsets -/

/-- The span lies between two offsets, and does not stop before it starts. -/
structure Span.Between (low high : Nat) (s : Span) : Prop where
  low : low ≤ s.start
  le : s.start ≤ s.stop
  high : s.stop ≤ high

theorem Span.Between.mono {low low' high : Nat} {s : Span}
    (h : s.Between low high) (hlow : low' ≤ low) : s.Between low' high :=
  ⟨Nat.le_trans hlow h.low, h.le, h.high⟩

theorem Span.Between.mono_high {low high high' : Nat} {s : Span}
    (h : s.Between low high) (hhigh : high ≤ high') : s.Between low high' :=
  ⟨h.low, h.le, Nat.le_trans h.high hhigh⟩

/-- The tokens stand one behind the other, between two offsets. -/
def Ordered (high : Nat) : Nat → List Token → Prop
  | low, [] => low ≤ high
  | low, t :: ts =>
    low ≤ t.span.start ∧ t.span.start ≤ t.span.stop
      ∧ Ordered high t.span.stop ts

namespace Ordered

variable {high : Nat}

theorem le : ∀ {ts : List Token} {low : Nat}, Ordered high low ts → low ≤ high
  | [], _, h => h
  | _ :: _, _, ⟨hlow, hspan, hrest⟩ =>
      Nat.le_trans hlow (Nat.le_trans hspan hrest.le)

theorem mono {ts : List Token} {low low' : Nat} (h : Ordered high low ts)
    (hlow : low' ≤ low) :
    Ordered high low' ts := by
  cases ts with
  | nil => exact Nat.le_trans hlow h
  | cons t ts => exact ⟨Nat.le_trans hlow h.1, h.2⟩

theorem mono_high {high' : Nat} (hhigh : high ≤ high') :
    ∀ {ts : List Token} {low : Nat},
    Ordered high low ts → Ordered high' low ts
  | [], _, h => Nat.le_trans h hhigh
  | _ :: _, _, ⟨hlow, hspan, hrest⟩ => ⟨hlow, hspan, hrest.mono_high hhigh⟩

theorem between : ∀ {ts : List Token} {low : Nat}, Ordered high low ts →
    ∀ t ∈ ts, t.span.Between low high
  | t :: ts, low, ⟨hlow, hspan, hrest⟩, t', ht' => by
      rcases List.mem_cons.mp ht' with rfl | ht'
      · exact ⟨hlow, hspan, hrest.le⟩
      · exact (hrest.between t' ht').mono (Nat.le_trans hlow hspan)

/-- What is put at the end stands there. -/
theorem concat (k : Kind) :
    ∀ {ts : List Token} {low : Nat}, Ordered high low ts →
    Ordered high low (ts ++ [⟨k, ⟨high, high⟩⟩])
  | [], _, h => ⟨h, Nat.le_refl _, Nat.le_refl _⟩
  | _ :: _, _, ⟨hlow, hspan, hrest⟩ => ⟨hlow, hspan, hrest.concat k⟩

end Ordered

/-! ## Bytes -/

theorem Chars.utf8ByteSize_ofList (cs : List Char) :
    (String.ofList cs).utf8ByteSize = byteLength cs := by
  induction cs with
  | nil => exact String.utf8ByteSize_empty
  | cons c cs ih =>
      rw [String.ofList_cons, String.utf8ByteSize_append,
        String.utf8ByteSize_singleton, ih, byteLength_cons]

theorem Chars.byteLength_toList (text : String) :
    byteLength text.toList = text.utf8ByteSize := by
  rw [← utf8ByteSize_ofList, String.ofList_toList]

/-! ## Lexemes -/

theorem exists_classify_of_mem_lexemes {cs : List Char} {l : Lexeme}
    (h : l ∈ lexemes cs) :
    ∃ c rest, l = ⟨(Lexeme.classify c rest).1,
      c :: rest.take (Lexeme.classify c rest).2⟩ := by
  induction hn : cs.length using Nat.strongRecOn generalizing cs with
  | _ n ih =>
    subst hn
    cases cs with
    | nil => simp [lexemes] at h
    | cons c cs =>
      rw [lexemes] at h
      rcases List.mem_cons.mp h with rfl | h
      · exact ⟨c, cs, rfl⟩
      · exact ih _ (by simp only [List.length_drop, List.length_cons]; omega) h
          rfl

namespace Lexeme

/-- What a lexeme that starts with the character can be. -/
inductive Starts (c : Char) : Shape → Prop where
  | skipped : Starts c .skipped
  | doc (text : String) : Starts c (.token (.doc text))
  | literal (value : Literal) : Starts c (.token (.literal value))
  | word {rest : List Char} (hc : isNameStart c = true)
      (hrest : rest.all isNameRest = true) :
      Starts c (.token (word (String.ofList (c :: rest))))
  | mark (m : Mark) : Starts c (.token (.mark m))
  | badNumber : Starts c (.fault .badNumber)
  | badEscape : Starts c (.fault .badEscape)
  | unexpected : Starts c (.fault (.unexpected c))

theorem starts_comment (c : Char) (cs : List Char) :
    Starts c (comment cs).1 := by
  unfold comment
  dsimp only
  split
  · exact .doc _
  · exact .skipped

theorem starts_number (c : Char) (cs : List Char) :
    Starts c (number c cs).1 := by
  unfold number
  dsimp only
  split
  · exact .literal _
  · dsimp only
    split
    · exact .literal _
    · exact .badNumber

theorem starts_string (cs : List Char) : Starts '"' (string cs).1 := by
  unfold string
  split
  · exact .unexpected
  · dsimp only
    split
    · exact .literal _
    · exact .badEscape

theorem starts_mark (c : Char) (cs : List Char) :
    Starts c (Lexeme.mark c cs).1 := by
  unfold Lexeme.mark
  split
  · exact .mark _
  · exact .mark _
  · exact .unexpected

theorem starts_classify (c : Char) (cs : List Char) :
    Starts c (classify c cs).1 := by
  unfold classify
  split
  · exact .skipped
  split
  · exact starts_comment c _
  split
  · exact starts_number c cs
  split
  · next hquote =>
      rw [eq_of_beq hquote]
      exact starts_string cs
  split
  · next hname => exact .word hname List.all_takeWhile
  · exact starts_mark c cs

/-- An unexpected character is the one the lexeme starts with. -/
theorem eq_of_classify_unexpected {c c' : Char} {cs : List Char}
    (h : (classify c cs).1 = .fault (.unexpected c')) : c' = c := by
  have hstarts := starts_classify c cs
  generalize (classify c cs).1 = shape at h hstarts
  cases hstarts with
  | unexpected => exact (ScanFault.unexpected.inj (Shape.fault.inj h)).symm
  | _ => cases h

end Lexeme

/-- What is wrong with a lexeme is shown inside it. -/
theorem between_spanIn {cs : List Char} {l : Lexeme} (hl : l ∈ lexemes cs)
    {why : ScanFault} (hshape : l.shape = .fault why) (start : Nat) :
    (why.spanIn start l.chars).Between start
      (start + Chars.byteLength l.chars) := by
  obtain ⟨c, rest, rfl⟩ := exists_classify_of_mem_lexemes hl
  have hpos := c.utf8Size_pos
  dsimp only at hshape ⊢
  rw [Chars.byteLength_cons]
  cases why with
  | unexpected c' =>
      obtain rfl := Lexeme.eq_of_classify_unexpected hshape
      exact ⟨Nat.le_refl _, Nat.le_add_right ..,
        Nat.add_le_add_left (Nat.le_add_right ..) _⟩
  | badEscape =>
      exact ⟨Nat.le_refl _, Nat.le_add_right ..,
        Nat.add_le_add_left (by omega) _⟩
  | badNumber => exact ⟨Nat.le_refl _, Nat.le_add_right .., Nat.le_refl _⟩

/-! ## Scans -/

namespace Scan

def byteLengthOf (ls : List Lexeme) : Nat :=
  Chars.byteLength (ls.map Lexeme.chars).flatten

theorem byteLengthOf_cons (l : Lexeme) (ls : List Lexeme) :
    byteLengthOf (l :: ls) = Chars.byteLength l.chars + byteLengthOf ls := by
  rw [byteLengthOf, List.map_cons, List.flatten_cons, Chars.byteLength_append]
  rfl

theorem ordered_collect : ∀ (ls : List Lexeme) (budget offset : Nat),
    Ordered (offset + byteLengthOf ls) offset (collect budget offset ls).tokens
  | [], budget, offset => by cases budget <;> exact Nat.le_add_right ..
  | l :: ls, 0, offset => Nat.le_add_right ..
  | l :: ls, budget + 1, offset => by
      have hnext := Nat.le_add_right offset (Chars.byteLength l.chars)
      rw [byteLengthOf_cons, ← Nat.add_assoc, collect]
      dsimp only
      split
      · exact (ordered_collect ls (budget + 1) _).mono hnext
      · exact ⟨Nat.le_refl _, hnext, ordered_collect ls (budget + 1) _⟩
      · exact (ordered_collect ls budget _).mono hnext

theorem between_errors_collect {cs : List Char} :
    ∀ (ls : List Lexeme) (budget offset : Nat),
    (∀ l ∈ ls, l ∈ lexemes cs) → ∀ e ∈ (collect budget offset ls).errors,
      e.span.Between offset (offset + byteLengthOf ls)
  | [], budget, offset, _, e, he => by cases budget <;> cases he
  | l :: ls, 0, offset, _, e, he => by cases he
  | l :: ls, budget + 1, offset, hls, e, he => by
      have hnext := Nat.le_add_right offset (Chars.byteLength l.chars)
      have hrest : ∀ l' ∈ ls, l' ∈ lexemes cs := fun l' hl' =>
        hls l' (List.mem_cons_of_mem _ hl')
      rw [collect] at he
      rw [byteLengthOf_cons, ← Nat.add_assoc]
      dsimp only at he
      split at he
      · exact (between_errors_collect ls _ _ hrest e he).mono hnext
      · exact (between_errors_collect ls _ _ hrest e he).mono hnext
      · next why hshape =>
          rcases List.mem_cons.mp he with rfl | he
          · have hspan :=
              between_spanIn (hls l (List.mem_cons_self ..)) hshape offset
            exact ⟨hspan.low, hspan.le,
              Nat.le_trans hspan.high (Nat.le_add_right ..)⟩
          · exact (between_errors_collect ls _ _ hrest e he).mono hnext

theorem byteLengthOf_lexemes (text : String) :
    byteLengthOf (lexemes text.toList) = text.utf8ByteSize := by
  rw [byteLengthOf, flatten_lexemes, Chars.byteLength_toList]

/-- The tokens of a text stand one behind the other, inside it. -/
theorem ordered_ofText (text : String) :
    Ordered text.utf8ByteSize 0 (ofText text).tokens := by
  have hfound := ordered_collect (lexemes text.toList) errorLimit 0
  rw [Nat.zero_add, byteLengthOf_lexemes] at hfound
  exact hfound.concat .eof

/-- So do the errors. -/
theorem between_of_mem_errors {text : String} {e : ScanError}
    (he : e ∈ (ofText text).errors) :
    e.span.Between 0 text.utf8ByteSize := by
  have hspan := between_errors_collect (lexemes text.toList) errorLimit 0
    (fun _ h => h) e he
  rwa [Nat.zero_add, byteLengthOf_lexemes] at hspan

end Scan

end Exemplar
