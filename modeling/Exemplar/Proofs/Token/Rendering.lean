import Exemplar.Proofs.Token.Locality

/-!
# Writing tokens

`Kind.spelling` writes a token and `render` writes a sequence of them with
anything between that starts with a blank: blanks, and comments that are no
documentation. Scanning finds the tokens again, whatever stands between them
(`kinds_ofText_render`).

The argument has two halves. A token that is spelled alone is one lexeme
(`Kind.spelling_spec`, one case for each kind of token); in front of a blank
it stays one because tokens do not look ahead (`Lexeme.classify_congr`).
-/

namespace Exemplar

open Lexeme

/-! ## Spellings -/

/-- A string between its quotes. -/
def escape (value : List Char) : List Char :=
  value.flatMap fun c => if c == '\\' || c == '"' then ['\\', c] else [c]

/-- The characters that a token is written with. -/
def Kind.spelling : Kind → List Char
  | .literal (.int n) => Nat.toDigits 10 n
  | .literal (.double x) => x.text.toList
  | .literal (.string value) => '"' :: (escape value.toList ++ ['"'])
  | .literal (.bool true) => "true".toList
  | .literal (.bool false) => "false".toList
  | .ident name => name.toList
  | .doc line => '/' :: '/' :: '/' :: ' ' :: line.toList
  | .keyword word => word.text.toList
  | .mark sign => sign.text.toList
  | .eof => []

/-- What is asked of a token to be written. Fractional numbers are left out,
and so is the end of the text. -/
def Kind.Writable : Kind → Prop
  | .literal (.int n) => n ≤ greatestInt
  | .literal (.double _) => False
  | .literal (.string _) | .literal (.bool _) => True
  | .ident name => isNamePart name.toList = true ∧ name ≠ "true"
      ∧ name ≠ "false"
      ∧ ∀ word : Keyword, name ≠ word.text
  | .doc line => '\n' ∉ line.toList ∧ line.toList.getLast? ≠ some '\r'
  | .keyword _ | .mark _ => True
  | .eof => False

theorem Keyword.ofText?_eq_none {name : String}
    (h : ∀ word : Keyword, name ≠ word.text) :
    ofText? name = none := by
  rw [ofText?, List.find?_eq_none]
  intro word _ heq
  exact h word (eq_of_beq heq).symm

theorem word_of_writable {name : String} (h : (Kind.ident name).Writable) :
    word name = .ident name := by
  obtain ⟨-, htrue, hfalse, hwords⟩ := h
  rw [word, if_neg htrue, if_neg hfalse, Keyword.ofText?_eq_none hwords]

theorem decimalValue_toDigits (n : Nat) :
    decimalValue (Nat.toDigits 10 n) = n := by
  have hdigits : (Nat.toDigits 10 n).filter Char.isDigit = Nat.toDigits 10 n :=
    List.filter_eq_self.mpr fun c hc =>
      Nat.isDigit_of_mem_toDigits (by omega) (by omega) hc
  rw [decimalValue, hdigits]
  have hback := Nat.ofDigitChars_toDigits (b := 10) (n := n) (by omega)
    (by omega)
  rwa [Nat.ofDigitChars_eq_foldl] at hback

theorem classify_digit {c : Char} (hc : c.isDigit = true) (cs : List Char) :
    classify c cs = number c cs := by
  have hgap : isGap c = false := isGap_eq_false hc rfl
  have hslash : (c == '/') = false :=
    beq_false_of_ne (ne_of_apply_eq_true hc rfl)
  unfold classify
  simp only [hgap, hslash, hc, Bool.false_and, Bool.false_eq_true,
    if_false, if_true]

theorem escape_cons (c : Char) (value : List Char) :
    escape (c :: value)
      = (if c == '\\' || c == '"' then ['\\', c] else [c]) ++ escape value :=
  rfl

theorem stringBody_escape (value r : List Char) :
    stringBody (escape value ++ '"' :: r) = (escape value, true) := by
  induction value with
  | nil => simp [escape, stringBody]
  | cons c value ih =>
      rw [escape_cons]
      by_cases hc : (c == '\\' || c == '"') = true
      · have hne : c ≠ '\n' := by
          rintro rfl
          exact absurd hc (by decide)
        rw [if_pos hc, List.append_assoc]
        show stringBody ('\\' :: c :: (escape value ++ '"' :: r)) = _
        rw [stringBody, if_neg hne, ih]
        rfl
      · rw [if_neg hc, List.append_assoc]
        simp only [Bool.or_eq_true, beq_iff_eq, not_or] at hc
        show stringBody (c :: (escape value ++ '"' :: r)) = _
        rw [stringBody, ih]
        · rfl
        · exact hc.2
        · exact fun h _ => hc.1 h
        · exact fun _ _ h _ => hc.1 h

theorem unescape?_escape (value : List Char) :
    unescape? (escape value) = some value := by
  induction value with
  | nil => rfl
  | cons c value ih =>
      rw [escape_cons]
      by_cases hc : (c == '\\' || c == '"') = true
      · have hself : escaped? c = some c := by
          rcases Bool.or_eq_true_iff.mp hc with
              h | h <;> rw [eq_of_beq h] <;> rfl
        rw [if_pos hc]
        show unescape? ('\\' :: c :: escape value) = _
        rw [unescape?, ih, hself]
        rfl
      · rw [if_neg hc]
        simp only [Bool.or_eq_true, beq_iff_eq, not_or] at hc
        show unescape? (c :: escape value) = _
        rw [unescape?, ih]
        · rfl
        · exact fun h _ => hc.1 h
        · exact fun _ _ h _ => hc.1 h

theorem docText_space {line : List Char} (h : line.getLast? ≠ some '\r') :
    docText (' ' :: line) = String.ofList line := by
  have hkept : Chars.dropTrailing (· == '\r') (' ' :: line) = ' ' :: line := by
    have hback : (' ' :: line).reverse.dropWhile (· == '\r')
        = (' ' :: line).reverse := by
      cases hrev : (' ' :: line).reverse with
      | nil => rfl
      | cons d ds =>
          have hlast : (' ' :: line).getLast? = some d := by
            rw [← List.head?_reverse, hrev]
            rfl
          have hne : (d == '\r') = false := by
            refine beq_false_of_ne ?_
            rintro rfl
            rw [List.getLast?_cons] at hlast
            cases hline : line.getLast? with
            | none => rw [hline] at hlast; exact absurd hlast (by decide)
            | some d => rw [hline] at hlast h; exact h hlast
          rw [List.dropWhile_cons_of_neg (by simp [hne])]
    rw [Chars.dropTrailing, hback, List.reverse_reverse]
  rw [docText, hkept]
  rfl

/-- A token that is spelled alone is one lexeme. -/
theorem Kind.spelling_spec {k : Kind} (h : k.Writable) :
    ∃ c cs, k.spelling = c :: cs ∧ classify c cs = (.token k, cs.length) := by
  cases k with
  | literal value =>
      cases value with
      | int n =>
          obtain ⟨c, cs, hdigits⟩ :=
            List.exists_cons_of_ne_nil (Nat.toDigits_ne_nil (b := 10) (n := n))
          have hall : ∀ x ∈ c :: cs, x.isDigit = true := fun x hx =>
            Nat.isDigit_of_mem_toDigits (b := 10) (n := n) (by omega) (by omega)
              (hdigits ▸ hx)
          have hvalue : decimalValue (c :: cs) = n := by
            rw [← hdigits, decimalValue_toDigits]
          have hint : n ≤ greatestInt := h
          refine ⟨c, cs, hdigits, ?_⟩
          have hbars : ∀ x ∈ cs, isDigitOrBar x = true := fun x hx => by
            simp [isDigitOrBar, hall x (List.mem_cons_of_mem c hx)]
          have hnumber := number_whole (c := c) (r := []) hbars (fun d hd =>
            nomatch hd) rfl
          rw [List.append_nil, hvalue, if_pos hint] at hnumber
          rw [classify_digit (hall c (List.mem_cons_self ..)), hnumber]
      | double x => exact absurd h id
      | string value =>
          refine ⟨'"', _, rfl, ?_⟩
          show Lexeme.string _ = _
          rw [Lexeme.string, stringBody_escape]
          dsimp only
          rw [unescape?_escape, List.length_append]
          dsimp only
          rw [String.ofList_toList]
          rfl
      | bool value => cases value <;> exact ⟨_, _, rfl, rfl⟩
  | ident name =>
      have hword := word_of_writable h
      cases hname : name.toList with
      | nil => exact absurd h.1 (by simp [hname, isNamePart])
      | cons c cs =>
          have hpart := h.1
          rw [hname] at hpart
          obtain ⟨hc, hrest⟩ := Bool.and_eq_true_iff.mp hpart
          have htake : cs.takeWhile isNameRest = cs :=
            List.takeWhile_eq_self_iff.mpr (List.all_eq_true.mp hrest)
          refine ⟨c, cs, hname, ?_⟩
          rw [classify_nameStart hc, htake, ← hname,
            String.ofList_toList, hword]
  | doc line =>
      refine ⟨'/', _, rfl, ?_⟩
      show comment ('/' :: ' ' :: line.toList) = _
      have hline : ('/' :: ' ' :: line.toList).takeWhile (· != '\n')
          = '/' :: ' ' :: line.toList := by
        refine List.takeWhile_eq_self_iff.mpr fun x hx => ?_
        simp only [bne_iff_ne, ne_eq]
        rintro rfl
        exact h.1 (by simpa using hx)
      rw [comment, hline]
      show (Shape.token (.doc (docText (' ' :: line.toList))), _) = _
      rw [docText_space h.2, String.ofList_toList]
      rfl
  | keyword word => cases word <;> exact ⟨_, _, rfl, rfl⟩
  | mark sign => cases sign <;> exact ⟨_, _, rfl, rfl⟩
  | eof => exact absurd h id

/-! ## Outlines -/

theorem outline_comment {line r : List Char} (hline : '\n' ∉ line)
    (hdoc : line.head? ≠ some '/') (hr : ∀ d ∈ r.head?, d = '\n') :
    outline ('/' :: '/' :: (line ++ r)) = outline r := by
  have htake : (line ++ r).takeWhile (· != '\n') = line := by
    refine takeWhile_append_of_ends (fun x hx => ?_) fun d hd => by
      rw [hr d hd]; rfl
    exact bne_iff_ne.mpr fun heq => hline (heq ▸ hx)
  have hclassify : classify '/' ('/' :: (line ++ r))
      = (.skipped, line.length + 1) := by
    show comment (line ++ r) = _
    rw [comment, htake]
    split
    · exact absurd rfl hdoc
    · rfl
  rw [outline_of_classify hclassify, List.drop_succ_cons, List.drop_left]
  rfl

theorem outline_spelling {k : Kind} (hk : k.Writable) {r : List Char}
    (hr : StopsAt k r) :
    outline (k.spelling ++ r) = .token k :: outline r := by
  obtain ⟨c, cs, hspell, halone⟩ := Kind.spelling_spec hk
  have hclassify : classify c (cs ++ r) = (.token k, cs.length) :=
    classify_congr (r := []) (by rwa [List.append_nil]) hr
  rw [hspell, List.cons_append, outline_of_classify hclassify, List.drop_left]
  rfl

/-! ## Layouts -/

/-- What may stand between tokens: a blank, or a line of comment. -/
inductive Filler where
  | blank (c : Char) (isGap : isGap c = true)
  | comment (line : List Char) (oneLine : '\n' ∉ line)
      (noDoc : line.head? ≠ some '/')

def Filler.chars : Filler → List Char
  | .blank c _ => [c]
  | .comment line _ _ => '/' :: '/' :: (line ++ ['\n'])

/-- A token and what separates it from the next one. The separator starts with
a blank, and with a newline behind documentation. -/
structure Written where
  kind : Kind
  writable : kind.Writable
  first : Char
  isGap_first : isGap first = true
  newline : ∀ line, kind = .doc line → first = '\n'
  more : List Filler

def Written.chars (w : Written) : List Char :=
  w.kind.spelling ++ w.first :: w.more.flatMap Filler.chars

/-- How a text may end: behind a separator, with a comment that no newline
closes, or with a token that nothing follows. -/
inductive Ending where
  | none
  | comment (line : List Char) (oneLine : '\n' ∉ line)
      (noDoc : line.head? ≠ some '/')
  | token (kind : Kind) (writable : kind.Writable)

def Ending.chars : Ending → List Char
  | .none => []
  | .comment line _ _ => '/' :: '/' :: line
  | .token kind _ => kind.spelling

def Ending.kinds : Ending → List Kind
  | .none | .comment .. => []
  | .token kind _ => [kind]

/-- The text that tokens and separators form. -/
def render (lead : List Filler) (ws : List Written) (ending : Ending) :
    List Char :=
  lead.flatMap Filler.chars ++ (ws.flatMap Written.chars ++ ending.chars)

theorem outline_fillers (r : List Char) : ∀ fs : List Filler,
    outline (fs.flatMap Filler.chars ++ r) = outline r
  | [] => rfl
  | .blank c hc :: fs => by
      rw [List.flatMap_cons, List.append_assoc]
      show outline (c :: (fs.flatMap Filler.chars ++ r)) = _
      rw [outline_gap hc, outline_fillers r fs]
  | .comment line hline hdoc :: fs => by
      have hchars : (Filler.comment line hline hdoc :: fs).flatMap Filler.chars
        ++ r
          = '/' :: '/' :: (line ++ '\n' :: (fs.flatMap Filler.chars ++ r)) := by
        simp [Filler.chars]
      rw [hchars, outline_comment hline hdoc (by rintro d ⟨⟩; rfl),
        outline_gap (by decide), outline_fillers r fs]

theorem Written.stopsAt (w : Written) (cs : List Char) :
    StopsAt w.kind (w.first :: cs) := by
  cases hkind : w.kind with
  | doc line =>
      rintro d ⟨⟩
      exact w.newline line hkind
  | literal _ | ident _ | keyword _ | mark _ | eof =>
      rintro d ⟨⟩
      exact w.isGap_first

theorem outline_written (w : Written) (r : List Char) :
    outline (w.chars ++ r) = .token w.kind :: outline r := by
  have hchars : w.chars ++ r
      = w.kind.spelling ++ w.first :: (w.more.flatMap Filler.chars ++ r) := by
    simp [Written.chars]
  rw [hchars, outline_spelling w.writable (w.stopsAt _),
    outline_gap w.isGap_first, outline_fillers]

theorem outline_ending (ending : Ending) :
    outline ending.chars = ending.kinds.map .token := by
  cases ending with
  | none => simp [Ending.chars, Ending.kinds, outline, lexemes]
  | comment line hline hdoc =>
      have hcomment := outline_comment (r := []) hline hdoc (by simp)
      rw [List.append_nil] at hcomment
      show outline ('/' :: '/' :: line) = _
      rw [hcomment]
      simp [outline, lexemes, Ending.kinds]
  | token kind hkind =>
      have htoken := outline_spelling hkind (stopsAt_nil kind)
      rw [List.append_nil] at htoken
      show outline kind.spelling = _
      rw [htoken]
      simp [outline, lexemes, Ending.kinds]

theorem outline_render (lead : List Filler) (ws : List Written)
    (ending : Ending) :
    outline (render lead ws ending) = (ws.map Written.kind ++ ending.kinds).map
      .token := by
  rw [render, outline_fillers]
  induction ws with
  | nil => exact outline_ending ending
  | cons w ws ih =>
      rw [List.flatMap_cons, List.append_assoc, outline_written, ih]
      rfl

/-- **Scanning undoes writing.** However tokens are laid out, the text has no
errors and is scanned as these tokens. -/
theorem kinds_ofText_render (lead : List Filler) (ws : List Written)
    (ending : Ending) :
    (Scan.ofText (String.ofList (render lead ws ending))).errors = []
      ∧ (Scan.ofText (String.ofList (render lead ws ending))).tokens.map
        Token.kind
        = ws.map Written.kind ++ ending.kinds ++ [.eof] :=
  Scan.kinds_of_outline (outline_render lead ws ending)

end Exemplar
