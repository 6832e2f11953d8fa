import Exemplar.Example.Settings
import Exemplar.Proofs.Grammar.Printer
import Exemplar.Proofs.Token.Spans

/-!
# Words in a text

A text without errors is scanned as `kindsOf` its characters, with `eof`
behind them (`Scan.kinds_ofText`). That list is computed from the front: a
word ends at the first character that cannot belong to it, and the text goes
on there as if nothing had stood before.

So a text that starts with `namespace`, with names that have dots between them
and with an opening brace is scanned as just these tokens, whatever follows
(`kindsOf_namespace`). And the other way round: a name among the tokens of a
text looks like one and is not a reserved word (`isName_of_mem_kindsOf`).
-/

namespace Exemplar

open Reading

/-! ## Kinds of tokens -/

/-- The kind of token that a stretch of text is, if it is one. -/
def Shape.kind? : Shape → Option Kind
  | .token kind => some kind
  | .skipped | .fault _ => none

/-- What a text consists of, blanks and comments left out. -/
def outline (cs : List Char) : List Shape :=
  ((lexemes cs).map Lexeme.shape).filter (· != .skipped)

def kindsOf (cs : List Char) : List Kind :=
  (lexemes cs).filterMap fun l => l.shape.kind?

/-- Without errors, every token is kept. -/
theorem Scan.kinds_collect (budget : Nat) (ls : List Lexeme) :
    ∀ offset, (collect (budget + 1) offset ls).errors = [] →
      (collect (budget + 1) offset ls).tokens.map Token.kind
        = ls.filterMap fun l => l.shape.kind? := by
  induction ls with
  | nil => exact fun _ _ => rfl
  | cons l ls ih =>
      obtain ⟨shape, chars⟩ := l
      intro offset hclean
      cases shape with
      | skipped => exact ih _ hclean
      | token kind => exact congrArg (kind :: ·) (ih _ hclean)
      | fault why => cases hclean

theorem Scan.kinds_ofText {text : String} (h : (ofText text).errors = []) :
    (ofText text).tokens.map Token.kind = kindsOf text.toList ++ [.eof] := by
  rw [ofText, List.map_append]
  exact congrArg (· ++ [Kind.eof]) (kinds_collect 19 (lexemes text.toList) 0 h)

theorem Scan.collect_of_tokens (budget : Nat) :
    ∀ (ls : List Lexeme) (ks : List Kind) (offset : Nat),
      (ls.map Lexeme.shape).filter (· != .skipped) = ks.map .token →
        (collect (budget + 1) offset ls).errors = []
          ∧ (collect (budget + 1) offset ls).tokens.map Token.kind = ks
  | [], ks, offset, h => by
      obtain rfl := List.map_eq_nil_iff.mp h.symm
      exact ⟨rfl, rfl⟩
  | ⟨shape, chars⟩ :: ls, ks, offset, h => by
      cases shape with
      | skipped => exact collect_of_tokens budget ls ks _ h
      | fault why => cases ks <;> cases h
      | token kind =>
          cases ks with
          | nil => cases h
          | cons k ks =>
              obtain ⟨hkind, hrest⟩ := List.cons.inj h
              obtain ⟨herrors, htokens⟩ := collect_of_tokens budget ls ks
                (offset + Chars.byteLength chars) hrest
              obtain rfl := Shape.token.inj hkind
              exact ⟨herrors, congrArg (kind :: ·) htokens⟩

/-- A text that consists of tokens is scanned as these. -/
theorem Scan.kinds_of_outline {cs : List Char} {ks : List Kind}
    (h : outline cs = ks.map .token) :
    (ofText (String.ofList cs)).errors = []
      ∧ (ofText (String.ofList cs)).tokens.map Token.kind = ks ++ [.eof] := by
  obtain ⟨herrors, hkinds⟩ := collect_of_tokens 19 _ _ 0 h
  rw [ofText, String.toList_ofList]
  refine ⟨herrors, ?_⟩
  rw [List.map_append]
  exact congrArg (· ++ [Kind.eof]) hkinds

theorem kindsOf_of_classify {c : Char} {cs : List Char} {shape : Shape}
    {taken : Nat} (h : Lexeme.classify c cs = (shape, taken)) :
    kindsOf (c :: cs) = shape.kind?.toList ++ kindsOf (cs.drop taken) := by
  rw [kindsOf, lexemes, h, List.filterMap_cons]
  cases shape <;> rfl

theorem kindsOf_eq_outline (cs : List Char) :
    kindsOf cs = (outline cs).filterMap Shape.kind? := by
  rw [kindsOf, outline]
  induction lexemes cs with
  | nil => rfl
  | cons l ls ih =>
      obtain ⟨shape, chars⟩ := l
      cases shape with
      | skipped => exact ih
      | token kind => exact congrArg (kind :: ·) ih
      | fault why => exact ih

theorem filterMap_token (ks : List Kind) :
    (ks.map Shape.token).filterMap Shape.kind? = ks := by
  rw [List.filterMap_map]
  exact List.filterMap_some

theorem outline_of_classify {c : Char} {cs : List Char} {shape : Shape}
    {taken : Nat} (h : Lexeme.classify c cs = (shape, taken)) :
    outline (c :: cs) = [shape].filter (· != .skipped)
      ++ outline (cs.drop taken) := by
  rw [outline, lexemes, h, List.map_cons, ← List.singleton_append,
    List.filter_append]
  rfl

theorem Lexeme.word_ne_eof (name : String) : word name ≠ .eof := by
  unfold word
  repeat' split
  all_goals simp

/-- No stretch of text is the end of it. -/
theorem Lexeme.classify_ne_eof (c : Char) (cs : List Char) :
    (classify c cs).1 ≠ .token .eof := by
  intro h
  have hstarts := starts_classify c cs
  generalize (classify c cs).1 = shape at h hstarts
  cases hstarts with
  | word => exact word_ne_eof _ (Shape.token.inj h)
  | _ => cases h

theorem eof_not_mem_kindsOf (cs : List Char) : .eof ∉ kindsOf cs := by
  induction hn : cs.length using Nat.strongRecOn generalizing cs with
  | _ n ih =>
      subst hn
      cases cs with
      | nil => simp [kindsOf, lexemes]
      | cons c cs =>
          have hne := Lexeme.classify_ne_eof c cs
          cases hclassify : Lexeme.classify c cs with
          | mk shape taken =>
              rw [hclassify] at hne
              rw [kindsOf_of_classify hclassify, List.mem_append, not_or]
              refine ⟨?_,
                ih _ (by simp only [List.length_drop,
                  List.length_cons]; omega) _ rfl⟩
              cases shape with
              | skipped | fault _ => exact List.not_mem_nil
              | token kind =>
                  intro heq
                  obtain rfl := List.mem_singleton.mp heq
                  exact hne rfl

/-! ## Words, marks and blanks -/

theorem ne_of_apply_eq_true {p : Char → Bool} {c d : Char} (hc : p c = true)
    (hd : p d = false) : c ≠ d := by
  rintro rfl
  exact absurd (hc.symm.trans hd) (by decide)

theorem Lexeme.isGap_eq_false {p : Char → Bool} {c : Char} (hc : p c = true)
    (h : [' ', '\t', '\r', '\n', '\x0c'].any p = false) : isGap c = false := by
  have hne : ∀ d ∈ [' ', '\t', '\r', '\n', '\x0c'], c ≠ d := fun d hd =>
    ne_of_apply_eq_true hc (Bool.eq_false_iff.mpr (List.any_eq_false.mp h d hd))
  simpa [isGap, and_assoc] using hne

theorem Lexeme.classify_nameStart {c : Char} (hc : isNameStart c = true)
    (cs : List Char) :
    classify c cs
      = (.token (word (String.ofList (c :: cs.takeWhile isNameRest))),
      (cs.takeWhile isNameRest).length) := by
  have hgap : isGap c = false := isGap_eq_false hc rfl
  have hslash : (c == '/') = false :=
    beq_false_of_ne (ne_of_apply_eq_true hc rfl)
  have hquote : (c == '"') = false :=
    beq_false_of_ne (ne_of_apply_eq_true hc rfl)
  have hdigit : c.isDigit = false := by
    rw [Bool.eq_false_iff]
    intro hdigit
    have hhigh : c.val ≤ 57 :=
      of_decide_eq_true (Bool.and_eq_true_iff.mp hdigit).2
    rcases Bool.or_eq_true_iff.mp hc with halpha | hbar
    · rcases Bool.or_eq_true_iff.mp halpha with hupper | hlower
      · have hupper : c.val ≥ 65 := (of_decide_eq_true hupper).1
        exact absurd hupper (by grind)
      · have hlower : c.val ≥ 97 :=
          of_decide_eq_true (Bool.and_eq_true_iff.mp hlower).1
        exact absurd hlower (by grind)
    · rw [beq_iff_eq.mp hbar] at hhigh
      exact absurd hhigh (by decide)
  unfold classify
  simp only [hgap, hslash, hquote, hdigit, hc, Bool.false_and,
    Bool.false_eq_true, if_false, if_true]

/-- A word ends where the next character cannot belong to it. -/
theorem outline_word {piece tail : List Char} (hpiece : isNamePart piece = true)
    (htail : ∀ c ∈ tail.head?, Lexeme.isNameRest c = false) :
    outline (piece ++ tail)
      = .token (Lexeme.word (String.ofList piece)) :: outline tail := by
  cases piece with
  | nil => cases hpiece
  | cons c rest =>
      obtain ⟨hc, hrest⟩ := Bool.and_eq_true_iff.mp hpiece
      have htake : (rest ++ tail).takeWhile Lexeme.isNameRest = rest := by
        have hnil : tail.takeWhile Lexeme.isNameRest = [] := by
          cases tail with
          | nil => rfl
          | cons d tail => rw [List.takeWhile_cons, htail d rfl]; rfl
        rw [List.takeWhile_append_of_pos (List.all_eq_true.mp hrest), hnil,
          List.append_nil]
      have hclassify := Lexeme.classify_nameStart hc (rest ++ tail)
      rw [htake] at hclassify
      rw [List.cons_append, outline_of_classify hclassify, List.drop_left]
      rfl

theorem Lexeme.classify_mark {c : Char} {m : Mark}
    (hm : Mark.ofChar? c = some m) (hc : c ≠ '/') (cs : List Char) :
    classify c cs = mark c cs := by
  unfold Mark.ofChar? at hm
  split at hm
  all_goals first | rfl | exact absurd rfl hc | cases hm

/-- A mark to which no equals sign can be added is a token, whatever follows
it; only two slashes are something else. -/
theorem outline_mark {c : Char} {m : Mark} (hm : Mark.ofChar? c = some m)
    (halone : Mark.ofCharEq? c = none) (hc : c ≠ '/') (cs : List Char) :
    outline (c :: cs) = .token (.mark m) :: outline cs := by
  have hclassify : Lexeme.classify c cs = (.token (.mark m), 0) := by
    rw [Lexeme.classify_mark hm hc, Lexeme.mark, hm, halone]
    split
    · next heq => cases heq
    · next heq _ => rw [Option.some.inj heq]
    · next heq _ => cases heq
  exact outline_of_classify hclassify

/-- Blanks between tokens say nothing. -/
theorem outline_gap {c : Char} (hc : Lexeme.isGap c = true) (cs : List Char) :
    outline (c :: cs) = outline cs := by
  -- a run of blanks is one lexeme, so both sides skip to the end of the run
  have hskip : ∀ {c : Char}, Lexeme.isGap c = true → ∀ cs,
      outline (c :: cs) = outline (cs.dropWhile Lexeme.isGap) := by
    intro c hc cs
    have hclassify : Lexeme.classify c cs
        = (.skipped, (cs.takeWhile Lexeme.isGap).length) :=
      if_pos hc
    have hdrop : (cs.takeWhile Lexeme.isGap ++ cs.dropWhile Lexeme.isGap).drop
        (cs.takeWhile Lexeme.isGap).length = cs.dropWhile Lexeme.isGap :=
        List.drop_left
    rw [List.takeWhile_append_dropWhile] at hdrop
    rw [outline_of_classify hclassify, hdrop]
    rfl
  rw [hskip hc]
  cases cs with
  | nil => rfl
  | cons d cs =>
      by_cases hd : Lexeme.isGap d = true
      · rw [List.dropWhile_cons_of_pos hd, hskip hd]
      · rw [List.dropWhile_cons_of_neg hd]

/-! ## Paths -/

def dottedWords (pieces : List (List Char)) : List Kind :=
  pieces.flatMap fun piece => [.mark .dot, Lexeme.word (String.ofList piece)]

/-- The tokens of a path. A part that is a reserved word is no name. -/
def pathWords (path : String) : List Kind :=
  match Chars.splitOn '.' path.toList with
  | [] => []
  | first :: pieces => Lexeme.word (String.ofList first) :: dottedWords pieces

theorem Lexeme.word_ne_mark (text : String) (m : Mark) :
    word text ≠ .mark m := by
  unfold word
  repeat' split
  all_goals nofun

/-- There are dots in a path, and no other marks. -/
theorem mark_of_mem_pathWords {path : String} {m : Mark}
    (h : .mark m ∈ pathWords path) :
    m = .dot := by
  unfold pathWords dottedWords at h
  split at h
  · cases h
  · rcases List.mem_cons.mp h with heq | h
    · exact absurd heq.symm (Lexeme.word_ne_mark _ m)
    · obtain ⟨piece, -, hpiece⟩ := List.mem_flatMap.mp h
      rcases List.mem_cons.mp hpiece with heq | hpiece
      · exact Kind.mark.inj heq
      · exact absurd (List.mem_singleton.mp hpiece).symm
          (Lexeme.word_ne_mark _ m)

theorem outline_dotted {tail : List Char}
    (htail : ∀ c ∈ tail.head?, Lexeme.isNameRest c = false) :
    ∀ {first : List Char} {pieces : List (List Char)}, isNamePart first = true →
      pieces.all isNamePart = true →
        outline (first ++ (pieces.flatMap (fun p => '.' :: p) ++ tail))
          = .token (Lexeme.word (String.ofList first))
            :: ((dottedWords pieces).map .token ++ outline tail)
  | first, [], hfirst, _ => outline_word hfirst htail
  | first, piece :: pieces, hfirst, hpieces => by
      obtain ⟨hpiece, hpieces⟩ := Bool.and_eq_true_iff.mp hpieces
      have hdot :
          ∀ c ∈ ('.' :: (piece
            ++ (pieces.flatMap (fun p => '.' :: p) ++ tail))).head?,
            Lexeme.isNameRest c = false := by
        rintro c ⟨⟩
        decide
      rw [List.flatMap_cons, List.append_assoc, List.cons_append,
        outline_word hfirst hdot,
        outline_mark (m := .dot) (by decide) (by decide) (by decide),
        outline_dotted htail hpiece hpieces]
      rfl

theorem outline_path {path : String} (hpath : isNamePath path = true)
    {tail : List Char} (htail : ∀ c ∈ tail.head?, Lexeme.isNameRest c = false) :
    outline (path.toList ++ tail) = (pathWords path).map .token
      ++ outline tail := by
  obtain ⟨first, pieces, hsplit⟩ :=
    List.exists_cons_of_ne_nil (Chars.splitOn_ne_nil '.' path.toList)
  have hback := Chars.intercalate_splitOn '.' path.toList
  rw [hsplit, intercalate_cons] at hback
  rw [isNamePath, hsplit, List.all_cons, Bool.and_eq_true] at hpath
  rw [pathWords, hsplit, ← hback, List.append_assoc,
    outline_dotted htail hpath.1 hpath.2]
  rfl

/-! ## Reserved words -/

/-- The word is a keyword or a truth value, and so it is no name. -/
def isReserved (name : String) : Bool :=
  name == "true" || name == "false" || (Keyword.ofText? name).isSome

/-- The text is names with dots between them, and none of them is reserved. -/
def isDottedName (path : String) : Bool :=
  isNamePath path
    && (Chars.splitOn '.' path.toList).all fun part =>
    !isReserved (String.ofList part)

theorem isDottedName_iff {path : String} :
    isDottedName path = true
      ↔ isNamePath path = true
        ∧ ∀ part ∈ Chars.splitOn '.' path.toList,
          isReserved (String.ofList part) = false := by
  simp only [isDottedName, Bool.and_eq_true, List.all_eq_true,
    Bool.not_eq_true']

theorem Lexeme.word_eq_ident {text name : String}
    (h : word text = .ident name) : text = name := by
  unfold word at h
  repeat' split at h
  all_goals cases h
  rfl

theorem Lexeme.word_eq_ident_iff {name : String} :
    word name = .ident name ↔ isReserved name = false := by
  unfold word isReserved
  by_cases htrue : name = "true"
  · simp [htrue]
  by_cases hfalse : name = "false"
  · simp [hfalse]
  rw [if_neg htrue, if_neg hfalse, beq_false_of_ne htrue,
    beq_false_of_ne hfalse]
  cases Keyword.ofText? name <;> simp

theorem dottedWords_eq_iff :
    ∀ {pieces : List (List Char)} {parts : List String},
    dottedWords pieces = dottedKinds parts
      ↔ parts = pieces.map String.ofList
        ∧ ∀ piece ∈ pieces, isReserved (String.ofList piece) = false
  | [], [] => ⟨fun _ => ⟨rfl, nofun⟩, fun _ => rfl⟩
  | [], _ :: _ => ⟨nofun, fun h => nomatch h.1⟩
  | _ :: _, [] => ⟨nofun, fun h => nomatch h.1⟩
  | piece :: pieces, part :: parts => by
      have hcons : dottedWords (piece :: pieces) = dottedKinds (part :: parts)
          ↔ Lexeme.word (String.ofList piece) = .ident part
            ∧ dottedWords pieces = dottedKinds parts := by
        simp [dottedWords, dottedKinds]
      rw [hcons, dottedWords_eq_iff, List.map_cons, List.cons.injEq,
        List.forall_mem_cons]
      constructor
      · rintro ⟨hword, hparts, hpieces⟩
        obtain rfl := Lexeme.word_eq_ident hword
        exact ⟨⟨rfl, hparts⟩, Lexeme.word_eq_ident_iff.mp hword, hpieces⟩
      · rintro ⟨⟨rfl, hparts⟩, hword, hpieces⟩
        exact ⟨Lexeme.word_eq_ident_iff.mpr hword, hparts, hpieces⟩

/-- Where the words of a path are names, they are the names of its parts. -/
theorem joinPath_of_pathWords {path first : String} {parts : List String}
    (h : pathWords path = .ident first :: dottedKinds parts) :
    joinPath first parts = path := by
  obtain ⟨piece, pieces, hsplit⟩ :=
    List.exists_cons_of_ne_nil (Chars.splitOn_ne_nil '.' path.toList)
  have hback := Chars.intercalate_splitOn '.' path.toList
  rw [hsplit, intercalate_cons] at hback
  rw [pathWords, hsplit] at h
  obtain ⟨hfirst, hparts⟩ := List.cons.inj h
  obtain rfl := Lexeme.word_eq_ident hfirst
  obtain rfl := (dottedWords_eq_iff.mp hparts).1
  apply String.toList_inj.mp
  rw [toList_joinPath, ← hback, List.flatMap_map]
  simp

/-- Where the words of a path are names, none of them is reserved. -/
theorem isDottedName_of_pathWords {path first : String} {parts : List String}
    (hpath : isNamePath path = true)
    (h : pathWords path = .ident first :: dottedKinds parts) :
    isDottedName path = true := by
  obtain ⟨piece, pieces, hsplit⟩ :=
    List.exists_cons_of_ne_nil (Chars.splitOn_ne_nil '.' path.toList)
  rw [pathWords, hsplit] at h
  obtain ⟨hfirst, hparts⟩ := List.cons.inj h
  obtain rfl := Lexeme.word_eq_ident hfirst
  rw [isDottedName_iff, hsplit, List.forall_mem_cons]
  exact ⟨hpath, Lexeme.word_eq_ident_iff.mp hfirst,
    (dottedWords_eq_iff.mp hparts).2⟩

/-- Where no part of a path is reserved, its words are its names. -/
theorem pathWords_of_isDottedName {path : String}
    (h : isDottedName path = true) :
    pathWords path = pathKinds path := by
  obtain ⟨piece, pieces, hsplit⟩ :=
    List.exists_cons_of_ne_nil (Chars.splitOn_ne_nil '.' path.toList)
  have hparts := (isDottedName_iff.mp h).2
  rw [hsplit, List.forall_mem_cons] at hparts
  have hpieces : dottedWords pieces = dottedKinds (pieces.map String.ofList) :=
    dottedWords_eq_iff.mpr ⟨rfl, hparts.2⟩
  simp only [pathWords, pathKinds, hsplit, hpieces,
    Lexeme.word_eq_ident_iff.mpr hparts.1]

/-! ## Names in a text -/

theorem Chars.splitOn_of_not_mem {sep : Char} {cs : List Char} (h : sep ∉ cs) :
    splitOn sep cs = [cs] := by
  induction cs with
  | nil => rfl
  | cons c cs ih =>
      rw [List.mem_cons, not_or] at h
      rw [splitOn, if_neg (Ne.symm h.1), ih h.2]

theorem Chars.splitOn_append {sep : Char} {piece : List Char} (h : sep ∉ piece)
    (cs : List Char) : splitOn sep (piece ++ sep :: cs)
      = piece :: splitOn sep cs := by
  induction piece with
  | nil => exact if_pos rfl
  | cons c piece ih =>
      rw [List.mem_cons, not_or] at h
      rw [List.cons_append, splitOn, if_neg (Ne.symm h.1), ih h.2]

/-- A name as it stands in a text: it looks like one and is not reserved. -/
structure IsName (name : String) : Prop where
  part : isNamePart name.toList = true
  free : isReserved name = false

theorem IsName.not_mem_dot {name : String} (h : IsName name) :
    '.' ∉ name.toList := by
  have hpart := h.part
  intro hmem
  cases hname : name.toList with
  | nil =>
      rw [hname] at hmem
      cases hmem
  | cons c cs =>
      rw [hname] at hpart hmem
      obtain ⟨hstart, hrest⟩ := Bool.and_eq_true_iff.mp hpart
      rcases List.mem_cons.mp hmem with rfl | hmem
      · exact absurd hstart (by decide)
      · exact absurd (List.all_eq_true.mp hrest _ hmem) (by decide)

/-- Names are not joined to other names than they are parts of. -/
theorem splitOn_joinPath : ∀ {first : String} {parts : List String},
      IsName first →
    (∀ part ∈ parts, IsName part) →
      Chars.splitOn '.' (joinPath first parts).toList
        = (first :: parts).map String.toList
  | first, [], hfirst, _ => Chars.splitOn_of_not_mem hfirst.not_mem_dot
  | first, part :: parts, hfirst, hparts => by
      obtain ⟨hpart, hparts⟩ := List.forall_mem_cons.mp hparts
      have hrest := splitOn_joinPath hpart hparts
      rw [toList_joinPath] at hrest
      rw [toList_joinPath, List.flatMap_cons, List.cons_append,
        Chars.splitOn_append hfirst.not_mem_dot, hrest]
      rfl

theorem isDottedName_joinPath {first : String} {parts : List String}
    (hfirst : IsName first) (hparts : ∀ part ∈ parts, IsName part) :
    isDottedName (joinPath first parts) = true := by
  have hall : ∀ part ∈ first :: parts, IsName part :=
    List.forall_mem_cons.mpr ⟨hfirst, hparts⟩
  have hsplit := splitOn_joinPath hfirst hparts
  rw [isDottedName_iff, isNamePath, hsplit, List.all_map, List.all_eq_true]
  refine ⟨fun part hpart => (hall part hpart).part, fun piece hpiece => ?_⟩
  obtain ⟨part, hpart, rfl⟩ := List.mem_map.mp hpiece
  rw [String.ofList_toList]
  exact (hall part hpart).free

theorem Lexeme.isName_of_classify {c : Char} {cs : List Char} {name : String}
    (h : (classify c cs).1 = .token (.ident name)) : IsName name := by
  have hstarts := starts_classify c cs
  generalize (classify c cs).1 = shape at h hstarts
  cases hstarts with
  | word hc hrest =>
      have hword := Shape.token.inj h
      obtain rfl := word_eq_ident hword
      refine ⟨?_, word_eq_ident_iff.mp hword⟩
      rw [String.toList_ofList, isNamePart, hc, hrest, Bool.true_and]
  | _ => cases h

/-- Names among the tokens of a text look like names and are not reserved. -/
theorem isName_of_mem_kindsOf {cs : List Char} {name : String}
    (h : .ident name ∈ kindsOf cs) :
    IsName name := by
  obtain ⟨l, hl, hkind⟩ := List.mem_filterMap.mp h
  obtain ⟨c, rest, rfl⟩ := exists_classify_of_mem_lexemes hl
  have hclassify : (Lexeme.classify c rest).1 = .token (.ident name) := by
    dsimp only at hkind
    cases hshape : (Lexeme.classify c rest).1 with
    | skipped | fault _ =>
        rw [hshape] at hkind
        cases hkind
    | token kind =>
        rw [hshape] at hkind
        exact congrArg Shape.token (Option.some.inj hkind)
  exact Lexeme.isName_of_classify hclassify

/-! ## Heads of blocks -/

theorem isNameRest_blank (cs : List Char) :
    ∀ c ∈ (' ' :: cs).head?, Lexeme.isNameRest c = false := by
  rintro c ⟨⟩
  decide

theorem outline_namespace {space : String} (hspace : isNamePath space = true)
    (cs : List Char) :
    outline (("namespace " ++ space ++ " \x7b").toList ++ cs)
      = (.keyword .namespace :: (pathWords space ++ [.mark .lBrace])).map .token
        ++ outline cs := by
  have hchars : ("namespace " ++ space ++ " \x7b").toList ++ cs
      = "namespace".toList ++ ' ' :: (space.toList ++ ' ' :: '{' :: cs) := by
    rw [String.toList_append, String.toList_append]
    simp
  have hkeyword : Lexeme.word (String.ofList "namespace".toList)
      = .keyword .namespace := by
    decide
  rw [hchars, outline_word (by decide) (isNameRest_blank _),
    outline_gap (by decide), outline_path hspace (isNameRest_blank _),
    outline_gap (by decide),
    outline_mark (m := .lBrace) (by decide) (by decide) (by decide), hkeyword]
  simp

/-- **The head of a block.** Whatever follows it, the first line of a block is
scanned as the keyword, the words of its path and the brace. -/
theorem kindsOf_namespace {space : String} (hspace : isNamePath space = true)
    (cs : List Char) :
    kindsOf (("namespace " ++ space ++ " \x7b").toList ++ cs)
      = .keyword .namespace :: (pathWords space
        ++ .mark .lBrace :: kindsOf cs) := by
  rw [kindsOf_eq_outline, outline_namespace hspace, List.filterMap_append,
    filterMap_token, ← kindsOf_eq_outline]
  simp

end Exemplar
