import Mathlib.Data.List.TakeWhile
import Exemplar.Proofs.Token.Words

/-!
# Tokens do not look ahead

Which token starts at a place is decided by the longest lexeme, so in general
by what follows. `classify_congr` says how little of that matters: the token
that was found is found again when its own characters stay and what follows is
replaced by a blank, or by nothing. Only documentation needs a newline there,
because it runs to the end of its line.

Replacing by nothing, a token is what its own characters alone are
(`classify_take`); starting from nothing, characters that are a token stay one
in front of a blank.
-/

namespace Exemplar

/-! ## The first characters of a list -/

theorem takeWhile_append_of_ends {α : Type} {p : α → Bool} {xs r : List α}
    (hxs : ∀ x ∈ xs, p x = true) (hr : ∀ d ∈ r.head?, p d = false) :
    (xs ++ r).takeWhile p = xs := by
  have hnil : r.takeWhile p = [] := by
    cases r with
    | nil => rfl
    | cons d r => rw [List.takeWhile_cons, hr d rfl]; rfl
  rw [List.takeWhile_append_of_pos hxs, hnil, List.append_nil]

/-- What is taken is known by its length. -/
theorem takeWhile_eq_of_length {α : Type} {p : α → Bool} {xs r : List α}
    (h : ((xs ++ r).takeWhile p).length = xs.length) :
    (xs ++ r).takeWhile p = xs := by
  have hprefix : (xs ++ r).takeWhile p <+: xs :=
    List.prefix_of_prefix_length_le (List.takeWhile_prefix p)
      (List.prefix_append xs r) (Nat.le_of_eq h)
  exact hprefix.eq_of_length h

namespace Lexeme

/-! ## Blanks end everything -/

theorem isGap_cases {d : Char} (h : isGap d = true) :
    d = ' ' ∨ d = '\t' ∨ d = '\r' ∨ d = '\n' ∨ d = '\x0c' := by
  simpa [isGap, or_assoc] using h

theorem not_of_isGap {d : Char} (h : isGap d = true) :
    isDigitOrBar d = false ∧ d.isDigit = false ∧ isNameRest d = false
      ∧ d ≠ '.' ∧ d ≠ '='
      ∧ d ≠ '/' ∧ d ≠ 'e' ∧ d ≠ 'E' := by
  rcases isGap_cases h with rfl | rfl | rfl | rfl | rfl <;> decide

/-- Nothing follows, or a blank does. -/
def EndsBlank (r : List Char) : Prop := ∀ d ∈ r.head?, isGap d = true

/-- What may follow a token without changing it. -/
def StopsAt : Kind → List Char → Prop
  | .doc _, r => ∀ d ∈ r.head?, d = '\n'
  | _, r => EndsBlank r

theorem StopsAt.endsBlank {k : Kind} {r : List Char} (h : StopsAt k r) :
    EndsBlank r := by
  cases k with
  | doc line =>
      intro d hd
      rw [h d hd]
      rfl
  | literal _ | ident _ | keyword _ | mark _ | eof => exact h

theorem stopsAt_nil (k : Kind) : StopsAt k [] := by
  cases k <;> exact fun d hd => nomatch hd

/-! ## Numbers -/

theorem fractionPart_of_endsBlank {r : List Char} (hr : EndsBlank r) :
    fractionPart r = none := by
  unfold fractionPart
  split
  · next d cs =>
      exact absurd rfl (not_of_isGap (hr '.' rfl)).2.2.2.1
  · rfl

theorem exponentPart_of_endsBlank {r : List Char} (hr : EndsBlank r) :
    exponentPart r = [] := by
  unfold exponentPart
  split
  · next e sign cs =>
      obtain ⟨-, -, -, -, -, -, hlower, hupper⟩ := not_of_isGap (hr e rfl)
      rw [if_neg (by simp [hlower, hupper])]
  · rfl

theorem takeWhile_isDigit_of_endsBlank {ds r : List Char}
    (hds : ∀ d ∈ ds, d.isDigit = true) (hr : EndsBlank r) :
    (ds ++ r).takeWhile Char.isDigit = ds :=
  takeWhile_append_of_ends hds fun d hd => (not_of_isGap (hr d hd)).2.1

/-- An exponent is an exponent by itself. -/
theorem exponentPart_append {cs r : List Char} (hr : EndsBlank r) :
    exponentPart (exponentPart cs ++ r) = exponentPart cs := by
  rcases cs with _ | ⟨e, _ | ⟨sign, cs⟩⟩
  · exact exponentPart_of_endsBlank hr
  · exact exponentPart_of_endsBlank hr
  · rw [exponentPart]
    by_cases he : (e == 'e' || e == 'E') = true
    · rw [if_pos he]
      by_cases hsign : (sign == '+' || sign == '-') = true
      · rw [if_pos hsign]
        cases hds : cs.takeWhile Char.isDigit with
        | nil => exact exponentPart_of_endsBlank hr
        | cons d ds =>
            have hall : ∀ x ∈ d :: ds, x.isDigit = true := fun x hx =>
              List.mem_takeWhile_imp (hds ▸ hx)
            have hagain := takeWhile_isDigit_of_endsBlank hall hr
            simp only [List.cons_append, exponentPart, if_pos he,
              if_pos hsign] at hagain ⊢
            rw [hagain]
      · rw [if_neg hsign]
        cases hds : (sign :: cs).takeWhile Char.isDigit with
        | nil => exact exponentPart_of_endsBlank hr
        | cons d ds =>
            have hall : ∀ x ∈ d :: ds, x.isDigit = true := fun x hx =>
              List.mem_takeWhile_imp (hds ▸ hx)
            obtain ⟨rfl, -⟩ : d = sign ∧ True := by
              rw [List.takeWhile_cons] at hds
              split at hds
              · exact ⟨(List.cons.inj hds).1.symm, trivial⟩
              · cases hds
            have hagain := takeWhile_isDigit_of_endsBlank hall hr
            simp only [List.cons_append, exponentPart, if_pos he,
              if_neg hsign] at hagain ⊢
            rw [hagain]
    · rw [if_neg he]
      exact exponentPart_of_endsBlank hr

theorem exponentPart_prefix (cs : List Char) : exponentPart cs <+: cs := by
  unfold exponentPart
  split
  · split
    · split
      · split
        · exact List.nil_prefix
        · exact List.cons_prefix_cons.mpr ⟨rfl, List.cons_prefix_cons.mpr
            ⟨rfl, List.takeWhile_prefix _⟩⟩
      · split
        · exact List.nil_prefix
        · exact List.cons_prefix_cons.mpr ⟨rfl, List.takeWhile_prefix _⟩
    · exact List.nil_prefix
  · exact List.nil_prefix

theorem head_exponentPart {cs : List Char} {x : Char}
    (h : x ∈ (exponentPart cs).head?) :
    x = 'e' ∨ x = 'E' := by
  unfold exponentPart at h
  split at h
  · next e sign cs =>
      split at h
      · next he =>
          have hx : x = e := by
            split at h <;> split at h <;> cases h <;> rfl
          rw [hx]
          simpa using he
      · cases h
  · cases h

/-- A number without a fraction. -/
theorem number_whole {c : Char} {ws r : List Char}
    (hws : ∀ x ∈ ws, isDigitOrBar x = true)
    (hr : ∀ d ∈ r.head?, isDigitOrBar d = false)
    (hfraction : fractionPart r = none) :
    number c (ws ++ r) = (if decimalValue (c :: ws) ≤ greatestInt
      then .token (.literal (.int (decimalValue (c :: ws))))
        else .fault .badNumber,
      ws.length) := by
  unfold number
  simp only [takeWhile_append_of_ends hws hr, List.drop_left, hfraction]

/-- A number with one. -/
theorem number_fraction {c d : Char} {ws ds ex r : List Char}
    (hws : ∀ x ∈ ws, isDigitOrBar x = true) (hd : d.isDigit = true)
    (hds : ∀ x ∈ ds, isDigitOrBar x = true) (hex : exponentPart (ex ++ r) = ex)
    (hends : ∀ x ∈ (ex ++ r).head?, isDigitOrBar x = false) :
    number c (ws ++ '.' :: d :: (ds ++ (ex ++ r)))
      = (.token
        (.literal (.double (Double.ofDecimal (decimalValue (c :: ws ++ d :: ds))
          (exponentValue ex - ((d :: ds).filter Char.isDigit).length)))),
        ws.length + 1 + (d :: ds).length + ex.length) := by
  have hdigits : (ds ++ (ex ++ r)).takeWhile isDigitOrBar = ds :=
    takeWhile_append_of_ends hds hends
  have hrest : (ds ++ (ex ++ r)).dropWhile isDigitOrBar = ex ++ r := by
    have hsplit := List.takeWhile_append_dropWhile (p := isDigitOrBar) (l :=
      ds ++ (ex ++ r))
    rw [hdigits] at hsplit
    exact List.append_cancel_left hsplit
  have hfraction : fractionPart ('.' :: d :: (ds ++ (ex ++ r)))
      = some (d :: ds, ex) := by
    rw [fractionPart, if_pos hd, hdigits, hrest, hex]
  have hwhole : (ws ++ '.' :: d :: (ds ++ (ex ++ r))).takeWhile isDigitOrBar
      = ws :=
    takeWhile_append_of_ends hws (by rintro x ⟨⟩; decide)
  unfold number
  simp only [hwhole, List.drop_left, hfraction]

/-- What follows the first digit is cut in one of the two ways. -/
theorem exists_number_parts (cs : List Char) :
    (∃ ws r, cs = ws ++ r ∧ (∀ x ∈ ws, isDigitOrBar x = true)
      ∧ (∀ d ∈ r.head?, isDigitOrBar d = false) ∧ fractionPart r = none)
    ∨ ∃ ws d ds tl r, cs = ws ++ '.' :: d :: (ds ++ (exponentPart tl ++ r))
      ∧ (∀ x ∈ ws, isDigitOrBar x = true) ∧ d.isDigit = true
      ∧ (∀ x ∈ ds, isDigitOrBar x = true) ∧ exponentPart (exponentPart tl ++ r)
        = exponentPart tl
      ∧ ∀ x ∈ (exponentPart tl ++ r).head?, isDigitOrBar x = false := by
  have hall : ∀ cs : List Char, ∀ x ∈ cs.takeWhile isDigitOrBar,
      isDigitOrBar x = true :=
    fun cs x hx => List.mem_takeWhile_imp hx
  have hends : ∀ cs : List Char, ∀ x ∈ (cs.dropWhile isDigitOrBar).head?,
      isDigitOrBar x = false := by
    intro cs x hx
    have hne := List.head?_dropWhile_not isDigitOrBar cs
    rw [Option.mem_def.mp hx] at hne
    simpa using hne
  cases hfraction : fractionPart (cs.dropWhile isDigitOrBar) with
  | none =>
      exact Or.inl ⟨_, _, List.takeWhile_append_dropWhile.symm, hall cs,
        hends cs, hfraction⟩
  | some p =>
      obtain ⟨d, tl, hrest, hd⟩ : ∃ d tl,
        cs.dropWhile isDigitOrBar = '.' :: d :: tl
          ∧ d.isDigit = true := by
        unfold fractionPart at hfraction
        split at hfraction
        · next d tl heq =>
            split at hfraction
            · next hd => exact ⟨d, tl, heq, hd⟩
            · cases hfraction
        · cases hfraction
      obtain ⟨r, hr⟩ := exponentPart_prefix (tl.dropWhile isDigitOrBar)
      refine Or.inr ⟨cs.takeWhile isDigitOrBar, d, tl.takeWhile isDigitOrBar,
        tl.dropWhile isDigitOrBar, r, ?_, hall cs, hd, hall tl, ?_, ?_⟩
      · rw [hr, List.takeWhile_append_dropWhile, ← hrest,
          List.takeWhile_append_dropWhile]
      · rw [hr]
      · rw [hr]
        exact hends tl

theorem number_congr {c : Char} {xs r r' : List Char} {k : Kind}
    (h : number c (xs ++ r) = (.token k, xs.length)) (hr' : EndsBlank r') :
    number c (xs ++ r') = (.token k, xs.length) := by
  have hblank : ∀ d ∈ r'.head?, isDigitOrBar d = false :=
    fun d hd => (not_of_isGap (hr' d hd)).1
  rcases exists_number_parts (xs ++ r) with
      ⟨ws, rest, hcut, hws, hends, hfraction⟩
    | ⟨ws, d, ds, tl, rest, hcut, hws, hd, hds, hex, hends⟩
  · rw [hcut, number_whole hws hends hfraction, Prod.mk.injEq] at h
    obtain ⟨rfl, -⟩ := List.append_inj hcut h.2.symm
    rw [number_whole hws hblank (fractionPart_of_endsBlank hr'), h.1]
  · rw [hcut, number_fraction hws hd hds hex hends, Prod.mk.injEq] at h
    have hcut' : xs ++ r = (ws ++ '.' :: d :: (ds ++ exponentPart tl))
        ++ rest := by
      rw [hcut]
      simp
    obtain ⟨rfl, -⟩ := List.append_inj hcut' (by
      rw [← h.2]
      simp only [List.length_append, List.length_cons]
      omega)
    have hends' : ∀ x ∈ (exponentPart tl ++ r').head?,
        isDigitOrBar x = false := by
      intro x hx
      cases hcons : exponentPart tl with
      | nil => rw [hcons] at hx; exact hblank x hx
      | cons e ex =>
          have he : x ∈ (exponentPart tl).head? := by
            rw [hcons] at hx ⊢; exact hx
          rcases head_exponentPart he with rfl | rfl <;> decide
    have hagain :=
      number_fraction (c := c) hws hd hds (exponentPart_append hr') hends'
    rw [h.1, h.2] at hagain
    simpa using hagain

/-! ## Strings, comments and marks -/

/-- A string ends at the quote that closes it, whatever follows. -/
theorem stringBody_closed {cs body : List Char}
    (h : stringBody cs = (body, true)) :
    (∃ rest, cs = body ++ '"' :: rest) ∧ ∀ r,
      stringBody (body ++ '"' :: r) = (body, true) := by
  fun_induction stringBody cs generalizing body with
  | case1 | case3 | case4 => cases h
  | case2 rest =>
      obtain rfl := (Prod.mk.inj h).1
      exact ⟨⟨rest, rfl⟩, fun r => by simp [stringBody]⟩
  | case5 c cs hc body' closed hbody ih =>
      obtain ⟨rfl, rfl⟩ := Prod.mk.inj h
      obtain ⟨⟨rest, hrest⟩, hagain⟩ := ih hbody
      refine ⟨⟨rest, by rw [hrest]; rfl⟩, fun r => ?_⟩
      simp only [List.cons_append, stringBody, if_neg hc, hagain]
  | case6 c cs hquote hslash hpair body' closed hbody ih =>
      obtain ⟨rfl, rfl⟩ := Prod.mk.inj h
      obtain ⟨⟨rest, hrest⟩, hagain⟩ := ih hbody
      have hne : c ≠ '\\' := by
        rintro rfl
        cases cs with
        | nil => exact hslash rfl rfl
        | cons d cs => exact hpair d cs rfl rfl
      refine ⟨⟨rest, by rw [hrest]; rfl⟩, fun r => ?_⟩
      rw [List.cons_append, stringBody, hagain]
      · exact hquote
      · exact fun h _ => hne h
      · exact fun _ _ h _ => hne h

theorem string_congr {xs r r' : List Char} {k : Kind}
    (h : string (xs ++ r) = (.token k, xs.length)) :
    string (xs ++ r') = (.token k, xs.length) := by
  unfold string at h
  split at h
  · cases h
  · next body hbody =>
      obtain ⟨⟨rest, hcut⟩, hagain⟩ := stringBody_closed hbody
      have hcut' : xs ++ r = (body ++ ['"']) ++ rest := by rw [hcut]; simp
      obtain ⟨rfl, -⟩ := List.append_inj hcut' (by
        rw [← (Prod.mk.inj h).2]
        simp)
      have hagain := hagain r'
      rw [string, List.append_assoc, List.singleton_append, hagain]
      exact h

theorem comment_congr {ys r r' : List Char} {k : Kind}
    (h : comment (ys ++ r) = (.token k, ys.length + 1)) (hr' : StopsAt k r') :
    comment (ys ++ r') = (.token k, ys.length + 1) := by
  obtain ⟨⟨line, rfl⟩, hlength⟩ : (∃ line, k = .doc line)
      ∧ ((ys ++ r).takeWhile (· != '\n')).length = ys.length := by
    unfold comment at h
    dsimp only at h
    split at h
    · obtain ⟨hkind, hlength⟩ := Prod.mk.inj h
      exact ⟨⟨_, (Shape.token.inj hkind).symm⟩, Nat.add_right_cancel hlength⟩
    · cases h
  have hline := takeWhile_eq_of_length hlength
  have hall : ∀ x ∈ ys, (x != '\n') = true := fun x hx => by
    rw [← hline] at hx
    exact List.mem_takeWhile_imp (p := fun x => x != '\n') hx
  have hagain : (ys ++ r').takeWhile (· != '\n') = ys :=
    takeWhile_append_of_ends hall fun d hd => by rw [hr' d hd]; rfl
  unfold comment at h ⊢
  rw [hline] at h
  rw [hagain]
  exact h

theorem mark_congr {c : Char} {xs r r' : List Char} {k : Kind}
    (h : mark c (xs ++ r) = (.token k, xs.length)) (hblank : EndsBlank r') :
    mark c (xs ++ r') = (.token k, xs.length) := by
  cases xs with
  | cons x xs => exact h
  | nil =>
      -- the mark is the one of a single character, for nothing else was taken
      obtain ⟨m, hm, rfl⟩ : ∃ m, Mark.ofChar? c = some m ∧ k = .mark m := by
        unfold mark at h
        split at h
        · cases h
        · next m hm _ => exact ⟨m, hm, (Shape.token.inj (Prod.mk.inj h).1).symm⟩
        · cases h
      have hne : r'.head? ≠ some '=' := fun heq =>
        absurd rfl (not_of_isGap (hblank '=' heq)).2.2.2.2.1
      unfold mark
      rw [List.nil_append, hm]
      split
      · next heq _ => exact absurd heq hne
      · next heq _ => rw [Option.some.inj heq]; rfl
      · next heq _ => cases heq

/-! ## All of them -/

/-- **Tokens do not look ahead.** -/
theorem classify_congr {c : Char} {xs r r' : List Char} {k : Kind}
    (h : classify c (xs ++ r) = (.token k, xs.length)) (hr' : StopsAt k r') :
    classify c (xs ++ r') = (.token k, xs.length) := by
  have hblank := hr'.endsBlank
  by_cases hgap : isGap c = true
  · rw [classify, if_pos hgap] at h
    cases h
  by_cases hslash : (c == '/' && (xs ++ r).head? == some '/') = true
  · -- a comment: the token is its line, and the second slash belongs to it
    rw [classify, if_neg hgap, if_pos hslash] at h
    cases xs with
    | nil =>
        unfold comment at h
        dsimp only at h
        split at h <;> cases h
    | cons x ys =>
        have hslash' : (c == '/' && (x :: ys ++ r').head? == some '/') = true :=
          hslash
        rw [classify, if_neg hgap, if_pos hslash']
        exact comment_congr h hr'
  have hslash' : ¬(c == '/' && (xs ++ r').head? == some '/') = true := by
    cases xs with
    | cons x ys => exact hslash
    | nil =>
        intro hboth
        obtain ⟨-, hhead⟩ := Bool.and_eq_true_iff.mp hboth
        exact absurd rfl
          (not_of_isGap (hblank '/' (eq_of_beq hhead))).2.2.2.2.2.1
  rw [classify, if_neg hgap, if_neg hslash] at h
  rw [classify, if_neg hgap, if_neg hslash']
  by_cases hdigit : c.isDigit = true
  · rw [if_pos hdigit] at h ⊢
    exact number_congr h hblank
  rw [if_neg hdigit] at h ⊢
  by_cases hquote : (c == '"') = true
  · rw [if_pos hquote] at h ⊢
    exact string_congr h
  rw [if_neg hquote] at h ⊢
  by_cases hname : isNameStart c = true
  · rw [if_pos hname] at h ⊢
    have hrest := takeWhile_eq_of_length (Prod.mk.inj h).2
    have hagain : (xs ++ r').takeWhile isNameRest = xs :=
      takeWhile_append_of_ends
        (fun x hx => List.mem_takeWhile_imp (p := isNameRest) (hrest.symm ▸ hx))
        fun d hd => (not_of_isGap (hblank d hd)).2.2.1
    dsimp only at h ⊢
    rw [hrest] at h
    rw [hagain]
    exact h
  · rw [if_neg hname] at h ⊢
    exact mark_congr h hblank

theorem length_stringBody_le (cs : List Char) :
    (stringBody cs).1.length ≤ cs.length := by
  fun_induction stringBody cs with
  | case1 | case2 | case3 | case4 => exact Nat.zero_le _
  | case5 c cs hc body closed hbody ih =>
      rw [hbody] at ih
      exact Nat.succ_le_succ (Nat.succ_le_succ ih)
  | case6 c cs hquote hslash hpair body closed hbody ih =>
      rw [hbody] at ih
      exact Nat.succ_le_succ ih

theorem length_string_le (cs : List Char) : (string cs).2 ≤ cs.length := by
  have hbody := length_stringBody_le cs
  unfold string
  split
  · next body heq =>
      rw [heq] at hbody
      exact hbody
  · next body heq =>
      obtain ⟨rest, rfl⟩ := (stringBody_closed heq).1
      rw [List.length_append, List.length_cons]
      omega

theorem length_number_le (c : Char) (cs : List Char) :
    (number c cs).2 ≤ cs.length := by
  rcases exists_number_parts cs with ⟨ws, r, rfl, hws, hends, hfraction⟩
    | ⟨ws, d, ds, tl, r, rfl, hws, hd, hds, hex, hends⟩
  · rw [number_whole hws hends hfraction, List.length_append]
    omega
  · rw [number_fraction hws hd hds hex hends]
    simp only [List.length_append, List.length_cons]
    omega

theorem length_comment_le (cs : List Char) :
    (comment cs).2 ≤ cs.length + 1 := by
  have hline := (List.takeWhile_sublist (l := cs) (· != '\n')).length_le
  unfold comment
  dsimp only
  split <;> exact Nat.succ_le_succ hline

theorem length_mark_le (c : Char) (cs : List Char) :
    (mark c cs).2 ≤ cs.length := by
  unfold mark
  split
  · next hhead _ =>
      obtain ⟨ds, rfl⟩ := List.head?_eq_some_iff.mp hhead
      exact Nat.succ_le_succ (Nat.zero_le _)
  · exact Nat.zero_le _
  · exact Nat.zero_le _

/-- A lexeme takes no more characters than there are. -/
theorem length_classify_le (c : Char) (cs : List Char) :
    (classify c cs).2 ≤ cs.length := by
  unfold classify
  split
  · exact (List.takeWhile_sublist _).length_le
  split
  · next hslash =>
      have hhead := eq_of_beq (Bool.and_eq_true_iff.mp hslash).2
      obtain ⟨ds, rfl⟩ : ∃ ds, cs = '/' :: ds := List.head?_eq_some_iff.mp hhead
      exact length_comment_le ds
  split
  · exact length_number_le c cs
  split
  · exact length_string_le cs
  split
  · exact (List.takeWhile_sublist _).length_le
  · exact length_mark_le c cs

/-- A token is what its own characters are. -/
theorem classify_take {c : Char} {cs : List Char} {k : Kind} {n : Nat}
    (h : classify c cs = (.token k, n)) :
    classify c (cs.take n) = (.token k, (cs.take n).length) := by
  have hlength : (cs.take n).length = n := by
    have hle := length_classify_le c cs
    rw [h] at hle
    rw [List.length_take, Nat.min_eq_left hle]
  have hcut : classify c (cs.take n ++ cs.drop n)
      = (.token k, (cs.take n).length) := by
    rw [List.take_append_drop, hlength]
    exact h
  have halone := classify_congr hcut (stopsAt_nil k)
  rwa [List.append_nil] at halone

end Lexeme

end Exemplar
