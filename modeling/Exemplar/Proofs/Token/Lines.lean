import Exemplar.Proofs.Token.Locality

/-!
# Scanning starts anew at each line

A lexeme that is neither a blank nor a string ends with its line at the
latest, and it is found without a look at the next one (`classify_append_line`).
A string that is closed ends at its quote, on whatever line that stands, and
blanks say nothing. So a text without faults and another text on the next line
are scanned each by itself (`outline_append_line`).

What is in front of a newline may be without faults only because of what is
behind it: a quote there closes a string. If there is no quote behind the
newline, neither text makes up for faults in the other
(`FaultFree.of_append_line`).
-/

namespace Exemplar

open Lexeme

/-! ## Stretches that stop at a character -/

section Stops

variable {α : Type} {p : α → Bool} {d : α}

theorem takeWhile_append_stop (hd : p d = false) (r : List α) :
    ∀ xs : List α, (xs ++ d :: r).takeWhile p = xs.takeWhile p
  | [] => List.takeWhile_cons_of_neg (by simp [hd])
  | x :: xs => by
      rw [List.cons_append, List.takeWhile_cons, List.takeWhile_cons,
        takeWhile_append_stop hd r xs]

theorem dropWhile_append_stop (hd : p d = false) (r : List α) :
    ∀ xs : List α, (xs ++ d :: r).dropWhile p = xs.dropWhile p ++ d :: r
  | [] => List.dropWhile_cons_of_neg (by simp [hd])
  | x :: xs => by
      rw [List.cons_append, List.dropWhile_cons, List.dropWhile_cons,
        dropWhile_append_stop hd r xs]
      split <;> rfl

end Stops

/-! ## Lexemes and the end of their line -/

namespace Lexeme

theorem exponentPart_append_line (r : List Char) :
    ∀ cs, exponentPart (cs ++ '\n' :: r) = exponentPart cs
  | [] => by
      cases r <;> simp [exponentPart]
  | [e] => by
      have hdigits : ('\n' :: r).takeWhile Char.isDigit = [] :=
        List.takeWhile_cons_of_neg (by decide)
      simp [exponentPart, hdigits]
  | e :: sign :: cs => by
      have hdigits := takeWhile_append_stop (p := Char.isDigit) (d := '\n')
        (by decide) r cs
      have hsigned :=
        takeWhile_append_stop (p := Char.isDigit) (d := '\n') (by decide) r
          (sign :: cs)
      rw [List.cons_append] at hsigned
      simp only [List.cons_append, exponentPart, hdigits, hsigned]

theorem fractionPart_append_line (r : List Char) :
    ∀ cs, fractionPart (cs ++ '\n' :: r) = fractionPart cs
  | [] => by simp [fractionPart]
  | [c] => by
      by_cases hc : c = '.'
      · have hdigit : '\n'.isDigit = false := by decide
        simp [fractionPart, hc, hdigit]
      · simp [fractionPart, hc]
  | c :: d :: cs => by
      by_cases hc : c = '.'
      · subst hc
        simp only [List.cons_append, fractionPart,
          takeWhile_append_stop (p := isDigitOrBar) (d := '\n')
            (by decide) r cs,
          dropWhile_append_stop (p := isDigitOrBar) (d := '\n')
            (by decide) r cs,
          exponentPart_append_line]
      · simp [fractionPart, hc]

theorem number_append_line (c : Char) (cs r : List Char) :
    number c (cs ++ '\n' :: r) = number c cs := by
  have hwhole := takeWhile_append_stop (p := isDigitOrBar) (d := '\n')
    (by decide) r cs
  have hle : (cs.takeWhile isDigitOrBar).length ≤ cs.length :=
    (List.takeWhile_sublist _).length_le
  simp only [number, hwhole, List.drop_append_of_le_length hle,
    fractionPart_append_line]

theorem comment_append_line (cs r : List Char) :
    comment (cs ++ '\n' :: r) = comment cs := by
  have hline := takeWhile_append_stop (p := (· != '\n')) (d := '\n')
    (by decide) r cs
  simp only [comment, hline]

theorem mark_append_line (c : Char) (cs r : List Char) :
    mark c (cs ++ '\n' :: r) = mark c cs := by
  cases cs with
  | nil =>
      -- nothing follows or a newline does, and neither is an equals sign
      cases hpair : Mark.ofCharEq? c <;> cases hone : Mark.ofChar? c
        <;> simp [mark, hpair, hone]
  | cons d cs => rfl

/-- What is found at the start of a string or of blanks may depend on the next
line; nothing else does. -/
theorem classify_append_line {c : Char} (hgap : isGap c = false)
    (hquote : c ≠ '"') (cs r : List Char) :
    classify c (cs ++ '\n' :: r) = classify c cs := by
  have hhead : ((cs ++ '\n' :: r).head? == some '/')
      = (cs.head? == some '/') := by
    cases cs <;> rfl
  have hword := takeWhile_append_stop (p := isNameRest) (d := '\n')
    (by decide) r cs
  have hquote : (c == '"') = false := beq_false_of_ne hquote
  simp only [classify, hgap, hhead, hquote, hword, number_append_line,
    mark_append_line, Bool.false_eq_true, if_false]
  by_cases hslash : (c == '/' && cs.head? == some '/') = true
  · rw [if_pos hslash, if_pos hslash]
    cases cs with
    | nil => simp at hslash
    | cons d cs => exact comment_append_line cs r
  · rw [if_neg hslash, if_neg hslash]

/-- A string that is closed on its own lines, or that nothing behind them
could close, is the same string in front of another line. -/
theorem string_append_line {cs r : List Char}
    (h : (∀ why, (string cs).1 ≠ .fault why)
      ∨ '"' ∉ r ∧ ∀ why, (string (cs ++ '\n' :: r)).1 ≠ .fault why) :
    string (cs ++ '\n' :: r) = string cs := by
  have hclosed : ∀ {cs : List Char}, (∀ why, (string cs).1 ≠ .fault why) →
      ∃ body, stringBody cs = (body, true) := by
    intro cs hfree
    cases hbody : stringBody cs with
    | mk body closed =>
        cases closed with
        | true => exact ⟨body, rfl⟩
        | false =>
            exact absurd (by rw [string, hbody]) (hfree (.unexpected '"'))
  obtain ⟨body, rest, hcut⟩ : ∃ body rest, cs = body ++ '"' :: rest
      ∧ ∀ r, stringBody (body ++ '"' :: r) = (body, true) := by
    rcases h with hfree | ⟨hr, hfree⟩
    · obtain ⟨body, hbody⟩ := hclosed hfree
      obtain ⟨⟨rest, hcut⟩, hagain⟩ := stringBody_closed hbody
      exact ⟨body, rest, hcut, hagain⟩
    · -- the closing quote is not behind the newline
      obtain ⟨body, hbody⟩ := hclosed hfree
      obtain ⟨⟨rest, hcut⟩, hagain⟩ := stringBody_closed hbody
      rcases List.append_eq_append_iff.mp hcut with
          ⟨more, rfl, hmore⟩ | ⟨more, rfl, hmore⟩
      · have hquote : '"' ∈ '\n' :: r := by
          rw [hmore]
          simp
        exact absurd (List.mem_of_ne_of_mem (by decide) hquote) hr
      · cases more with
        | nil => cases hmore
        | cons d more =>
            obtain ⟨rfl, -⟩ := List.cons.inj hmore
            exact ⟨body, more, rfl, hagain⟩
  obtain ⟨rfl, hagain⟩ := hcut
  rw [string, string, List.append_assoc, List.cons_append, hagain, hagain]

/-- Without a fault, the first lexeme is found without a look at what is behind
the newline, unless a string that starts with it is closed there. -/
theorem classify_line {c : Char} (hgap : isGap c = false) {cs r : List Char}
    (h : (∀ why, (classify c cs).1 ≠ .fault why)
      ∨ '"' ∉ r ∧ ∀ why, (classify c (cs ++ '\n' :: r)).1 ≠ .fault why) :
    classify c (cs ++ '\n' :: r) = classify c cs := by
  by_cases hquote : c = '"'
  · subst hquote
    exact string_append_line h
  · exact classify_append_line hgap hquote cs r

end Lexeme

/-! ## Texts without faults -/

/-- Every stretch of the text is a token or says nothing. -/
def FaultFree (cs : List Char) : Prop := ∀ why, .fault why ∉ outline cs

theorem faultFree_cons_iff {c : Char} {cs : List Char} {shape : Shape}
    {taken : Nat} (h : classify c cs = (shape, taken)) :
    FaultFree (c :: cs) ↔ (∀ why, shape ≠ .fault why)
      ∧ FaultFree (cs.drop taken) := by
  have hmem : ∀ why, .fault why ∈ [shape].filter (· != .skipped)
      ↔ shape = .fault why := by
    intro why
    cases shape with
    | skipped | token _ => simp
    | fault why' => simpa using eq_comm
  simp only [FaultFree, outline_of_classify h, List.mem_append, hmem, not_or,
    forall_and, ne_eq]

/-- The tokens of such a text are all there is to it. -/
theorem FaultFree.outline_eq {cs : List Char} (h : FaultFree cs) :
    outline cs = (kindsOf cs).map .token := by
  have hall : ∀ shapes : List Shape, (∀ why, .fault why ∉ shapes) →
    .skipped ∉ shapes →
      shapes = (shapes.filterMap Shape.kind?).map .token := by
    intro shapes
    induction shapes with
    | nil => exact fun _ _ => rfl
    | cons shape shapes ih =>
        intro hfault hskipped
        simp only [List.mem_cons, not_or, forall_and] at hfault hskipped
        have hrest := ih hfault.2 hskipped.2
        cases shape with
        | skipped => exact absurd rfl hskipped.1
        | token kind => exact congrArg (Shape.token kind :: ·) hrest
        | fault why => exact absurd rfl (hfault.1 why)
  rw [kindsOf_eq_outline]
  refine hall _ h ?_
  simp [outline]

theorem faultFree_of_outline {cs : List Char} {ks : List Kind}
    (h : outline cs = ks.map .token) :
    FaultFree cs := by
  intro why
  rw [h]
  simp

theorem FaultFree.of_append {cs before behind : List Char} (h : FaultFree cs)
    (hcs : outline cs = outline before ++ outline behind) :
    FaultFree before ∧ FaultFree behind := by
  simp only [FaultFree, hcs, List.mem_append, not_or, forall_and] at h
  exact h

theorem Scan.faultFree_of_collect (budget : Nat) (ls : List Lexeme) :
    ∀ offset, (collect (budget + 1) offset ls).errors = [] →
      ∀ l ∈ ls, ∀ why, l.shape ≠ .fault why := by
  induction ls with
  | nil => exact fun _ _ _ hl => nomatch hl
  | cons l ls ih =>
      obtain ⟨shape, chars⟩ := l
      intro offset hclean
      cases shape with
      | skipped => exact List.forall_mem_cons.mpr ⟨nofun, ih _ hclean⟩
      | token kind => exact List.forall_mem_cons.mpr ⟨nofun, ih _ hclean⟩
      | fault why => cases hclean

/-- A text is scanned without errors exactly if there is no fault in it. -/
theorem Scan.errors_eq_nil_iff {text : String} :
    (ofText text).errors = [] ↔ FaultFree text.toList := by
  constructor
  · intro hclean why hmem
    obtain ⟨hmem, -⟩ := List.mem_filter.mp hmem
    obtain ⟨l, hl, hshape⟩ := List.mem_map.mp hmem
    exact faultFree_of_collect 19 _ 0 hclean l hl why hshape
  · intro hfree
    have hscan := (kinds_of_outline hfree.outline_eq).1
    rwa [String.ofList_toList] at hscan

/-! ## Lines -/

/-- **Scanning starts anew at each line**, if what is in front has no faults,
or if the whole has none and there is no quote behind. -/
theorem outline_line {r : List Char} {line : List Char}
    (h : FaultFree line ∨ '"' ∉ r ∧ FaultFree (line ++ '\n' :: r)) :
    outline (line ++ '\n' :: r) = outline line ++ outline r := by
  induction hn : line.length using Nat.strongRecOn generalizing line with
  | _ n ih =>
      subst hn
      cases line with
      | nil =>
          rw [List.nil_append, outline_gap (by decide)]
          simp [outline, lexemes]
      | cons c cs =>
          rw [List.cons_append] at h ⊢
          by_cases hgap : isGap c = true
          · have hrest : FaultFree cs ∨ '"' ∉ r
                ∧ FaultFree (cs ++ '\n' :: r) := by
              simpa only [FaultFree, outline_gap hgap] using h
            rw [outline_gap hgap, outline_gap hgap]
            exact ih _ (Nat.lt_succ_self _) hrest rfl
          · have hsame : classify c (cs ++ '\n' :: r) = classify c cs := by
              refine classify_line (Bool.eq_false_iff.mpr hgap)
                (h.imp ?_ (And.imp_right ?_))
              · exact fun hfree => ((faultFree_cons_iff rfl).mp hfree).1
              · exact fun hfree => ((faultFree_cons_iff rfl).mp hfree).1
            cases hclassify : classify c cs with
            | mk shape taken =>
                have hle : taken ≤ cs.length := by
                  have hle := length_classify_le c cs
                  rwa [hclassify] at hle
                rw [hclassify] at hsame
                rw [faultFree_cons_iff hclassify, faultFree_cons_iff hsame,
                  List.drop_append_of_le_length hle] at h
                rw [outline_of_classify hsame, outline_of_classify hclassify,
                  List.drop_append_of_le_length hle, List.append_assoc]
                have hshorter : (cs.drop taken).length < (c :: cs).length := by
                  rw [List.length_drop, List.length_cons]
                  omega
                rw [ih _ hshorter (h.imp And.right fun h => ⟨h.1, h.2.2⟩) rfl]

/-- A text without faults, and another one on the next line. -/
theorem outline_append_line {line : List Char} (h : FaultFree line)
    (r : List Char) :
    outline (line ++ '\n' :: r) = outline line ++ outline r :=
  outline_line (Or.inl h)

/-- Where no quote is behind a newline, both sides are without faults if the
whole is. -/
theorem FaultFree.of_append_line {line r : List Char}
    (h : FaultFree (line ++ '\n' :: r)) (hr : '"' ∉ r) :
    FaultFree line ∧ FaultFree r :=
  h.of_append (outline_line (Or.inr ⟨hr, h⟩))

/-- Lines without faults are scanned one by one. -/
theorem outline_lines :
    ∀ {lines : List (List Char)}, (∀ line ∈ lines, FaultFree line) →
    outline (['\n'].intercalate lines) = lines.flatMap outline
  | [], _ => by simp [List.intercalate, outline, lexemes]
  | [line], _ => by simp [List.intercalate]
  | line :: line' :: lines, h => by
      obtain ⟨hline, hlines⟩ := List.forall_mem_cons.mp h
      have hcons : ['\n'].intercalate (line :: line' :: lines)
          = line ++ '\n' :: ['\n'].intercalate (line' :: lines) := by
        simp [List.intercalate]
      rw [hcons, outline_append_line hline, outline_lines hlines]
      rfl

end Exemplar
