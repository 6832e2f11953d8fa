import Mathlib.Algebra.Ring.Nat
import Mathlib.Data.List.TakeWhile
import Exemplar.Docs.Sections

/-!
# What counts as fenced

Two readers follow the fences of documentation. The split into sections counts
them line by line, and a heading behind an odd number is text. The search for
snippets goes from fence to fence, and behind each it passes over the rest of
the word: behind an opening fence that is a language tag, behind a closing one
whatever is attached to it. A fence inside such a word is counted by the first
reader and not seen by the second (`heading_misjudged`).

In numbers: the first reader sees all fences, and these are the fences of all
words, since a fence holds no blank (`count_eq_sum_words`). The second sees one
fence a word (`isSome_unclosed_scan`). So the two agree on a section exactly as
far as an even number of its fences is *hidden* behind another fence of the
same word (`heading_ends_iff`).
-/

namespace Exemplar

/-! ## Words and fences -/

namespace Fences

/-- What stands between the blanks of a text. -/
def words (cs : List Char) : List (List Char) := cs.splitOnP Chars.isBlank

/-- How many words hold a fence. -/
def marked (cs : List Char) : Nat := (words cs).countP fun w => 0 < count w

/-- How many fences stand behind another one in the same word. -/
def hidden (cs : List Char) : Nat := ((words cs).map fun w => count w - 1).sum

/-- Texts are words, and texts with a blank between them. -/
theorem blank_induction {P : List Char → Prop}
    (word : ∀ w : List Char, (∀ c ∈ w, Chars.isBlank c = false) → P w)
    (gap : ∀ (as : List Char) (b : Char) (bs : List Char),
      Chars.isBlank b = true →
      P as → P bs → P (as ++ b :: bs)) (cs : List Char) : P cs := by
  induction hn : cs.length using Nat.strongRecOn generalizing cs with
  | ind n ih =>
      subst hn
      by_cases hblank : ∃ b ∈ cs, Chars.isBlank b = true
      · obtain ⟨b, hmem, hb⟩ := hblank
        obtain ⟨as, bs, rfl⟩ := List.append_of_mem hmem
        refine gap as b bs hb (ih _ ?_ as rfl) (ih _ ?_ bs rfl)
        · simp
        · simp only [List.length_append, List.length_cons]
          omega
      · exact word cs fun c hc => Bool.eq_false_iff.mpr fun hb =>
          hblank ⟨c, hc, hb⟩

theorem ne_tick_of_isBlank {b : Char} (hb : Chars.isBlank b = true) :
    b ≠ '\x60' := by
  rintro rfl
  revert hb
  decide

theorem words_append {b : Char} (hb : Chars.isBlank b = true)
    (as bs : List Char) :
    words (as ++ b :: bs) = words as ++ words bs :=
  List.splitOnP_append_cons as bs hb

theorem marked_append {b : Char} (hb : Chars.isBlank b = true)
    (as bs : List Char) :
    marked (as ++ b :: bs) = marked as + marked bs := by
  rw [marked, words_append hb, List.countP_append]
  rfl

/-- No fence goes across a blank. -/
theorem isPrefixOf_append {b : Char} (hb : Chars.isBlank b = true)
    (as bs : List Char) :
    fence.isPrefixOf (as ++ b :: bs) = fence.isPrefixOf as := by
  have hne : ('\x60' == b) = false :=
    beq_eq_false_iff_ne.mpr (ne_tick_of_isBlank hb).symm
  rcases as with _ | ⟨a, _ | ⟨a', _ | ⟨a'', as⟩⟩⟩
    <;> simp [fence, List.isPrefixOf, hne]

theorem count_append {b : Char} (hb : Chars.isBlank b = true)
    (as bs : List Char) :
    count (as ++ b :: bs) = count as + count bs := by
  have hne := ne_tick_of_isBlank hb
  fun_induction count as with
  | case1 rest ih =>
      simp only [List.cons_append, count, ih]
      omega
  | case2 c rest hfence ih =>
      have hstep : count (c :: (rest ++ b :: bs))
          = count (rest ++ b :: bs) := by
        rw [count]
        rintro more rfl heq
        rcases rest with _ | ⟨r, _ | ⟨r', rest⟩⟩
        · exact hne (List.cons.inj heq).1
        · exact hne (List.cons.inj (List.cons.inj heq).2).1
        · obtain ⟨hr, heq⟩ := List.cons.inj heq
          obtain ⟨hr', -⟩ := List.cons.inj heq
          exact hfence rest rfl (by rw [hr, hr'])
      rw [List.cons_append, hstep, ih]
  | case3 =>
      rw [List.nil_append, count, Nat.zero_add]
      rintro more rfl
      exact absurd rfl hne

/-- The fences of a text are those of its words. -/
theorem count_eq_sum_words (cs : List Char) :
    count cs = ((words cs).map count).sum := by
  induction cs using blank_induction with
  | word w hw =>
      rw [words, List.splitOnP_eq_singleton hw, List.map_singleton,
        List.sum_singleton]
  | gap as b bs hb ihas ihbs =>
      rw [count_append hb, words_append hb, List.map_append, List.sum_append,
        ihas, ihbs]

/-- Of the fences of a word, the first is its mark. The others are hidden. -/
theorem count_eq_hidden_add_marked (cs : List Char) :
    count cs = hidden cs + marked cs := by
  rw [count_eq_sum_words, hidden, marked]
  induction words cs with
  | nil => rfl
  | cons w ws ih =>
      rw [List.map_cons, List.map_cons, List.sum_cons, List.sum_cons,
        List.countP_cons, ih]
      by_cases hw : 0 < count w
      · simp only [hw, decide_true, if_true]
        omega
      · simp only [hw, decide_false, Bool.false_eq_true, if_false]
        omega

/-! ## The search for snippets -/

theorem eq_append_of_breakOn {needle cs before after : List Char}
    (h : Chars.breakOn needle cs = some (before, after)) :
    cs = before ++ needle ++ after := by
  induction cs generalizing before with
  | nil =>
      rw [Chars.breakOn] at h
      split at h
      · next hneedle =>
          obtain ⟨rfl, rfl⟩ := by simpa using h
          simpa using hneedle.symm
      · cases h
  | cons c cs ih =>
      rw [Chars.breakOn] at h
      split at h
      · next hneedle =>
          obtain ⟨rfl, rfl⟩ := by simpa only [Option.some.injEq,
            Prod.mk.injEq] using h
          obtain ⟨rest, hrest⟩ := List.isPrefixOf_iff_prefix.mp hneedle
          rw [← hrest, List.drop_left, List.nil_append]
      · obtain ⟨⟨x, y⟩, hxy, heq⟩ := Option.map_eq_some_iff.mp h
        obtain ⟨rfl, rfl⟩ := Prod.mk.inj heq
        rw [ih hxy]
        rfl

theorem breakOn_eq_none_iff (cs : List Char) :
    Chars.breakOn fence cs = none ↔ count cs = 0 := by
  fun_induction count cs with
  | case1 rest ih => simp [Chars.breakOn, fence]
  | case2 c rest hfence ih =>
      have hnot : fence.isPrefixOf (c :: rest) = false := by
        rw [Bool.eq_false_iff]
        intro hprefix
        obtain ⟨more, hmore⟩ := List.isPrefixOf_iff_prefix.mp hprefix
        obtain ⟨rfl, hrest⟩ := List.cons.inj hmore
        exact hfence more rfl hrest.symm
      rw [Chars.breakOn, hnot, if_neg Bool.false_ne_true,
        Option.map_eq_none_iff, ih]
  | case3 => simp [Chars.breakOn, fence]

theorem marked_eq_zero_of_breakOn {cs : List Char}
    (h : Chars.breakOn fence cs = none) :
    marked cs = 0 := by
  have hcount := (breakOn_eq_none_iff cs).mp h
  rw [count_eq_hidden_add_marked] at hcount
  omega

/-- A blank divides the search: what follows it matters only if there is no
fence before it. -/
theorem breakOn_append {b : Char} (hb : Chars.isBlank b = true)
    (as bs : List Char) :
    Chars.breakOn fence (as ++ b :: bs) = match Chars.breakOn fence as with
      | some (before, after) => some (before, after ++ b :: bs)
      | none =>
          (Chars.breakOn fence bs).map fun (before, after) =>
            (as ++ b :: before, after) := by
  induction as with
  | nil =>
      have hnot : fence.isPrefixOf (b :: bs) = false :=
        isPrefixOf_append hb [] bs
      have hstep : Chars.breakOn fence (b :: bs)
          = (Chars.breakOn fence bs).map fun (before, after) =>
          (b :: before, after) := by
        rw [Chars.breakOn, hnot, if_neg Bool.false_ne_true]
      rw [List.nil_append, hstep]
      rfl
  | cons a as ih =>
      have hprefix : fence.isPrefixOf (a :: (as ++ b :: bs))
          = fence.isPrefixOf (a :: as) :=
        isPrefixOf_append hb (a :: as) bs
      rw [List.cons_append, Chars.breakOn, hprefix, Chars.breakOn]
      by_cases hfence : fence.isPrefixOf (a :: as) = true
      · obtain ⟨rest, hrest⟩ := List.isPrefixOf_iff_prefix.mp hfence
        rw [if_pos hfence, if_pos hfence, ← List.cons_append, ← hrest,
          List.append_assoc, List.drop_left, List.drop_left]
      · rw [if_neg hfence, if_neg hfence, ih]
        cases Chars.breakOn fence as with
        | some cut => rfl
        | none =>
            rw [Option.map_none, Option.map_map]
            rfl

theorem skipWord_append {b : Char} (hb : Chars.isBlank b = true)
    (as bs : List Char) :
    skipWord (as ++ b :: bs) = skipWord as ++ b :: bs := by
  rw [skipWord, skipWord, List.dropWhile_append]
  split
  · next hnil => rw [List.isEmpty_iff.mp hnil, List.dropWhile_cons, hb]; rfl
  · rfl

/-- Going to the next fence and past its word takes one marked word away. -/
theorem marked_of_breakOn (cs : List Char) :
    ∀ before after, Chars.breakOn fence cs = some (before, after) →
      marked cs = marked (skipWord after) + 1 := by
  induction cs using blank_induction with
  | word w hw =>
      intro before after h
      have hsplit := eq_append_of_breakOn h
      have hskip : skipWord after = [] := by
        refine List.dropWhile_eq_nil_iff.mpr fun c hc => ?_
        rw [hw c (hsplit ▸ List.mem_append_right _ hc)]
        rfl
      have hcount : 0 < count w := by
        rw [Nat.pos_iff_ne_zero, Ne, ← breakOn_eq_none_iff, h]
        exact nofun
      rw [hskip, marked, words, List.splitOnP_eq_singleton hw]
      simp [marked, words, hcount, count]
  | gap as b bs hb ihas ihbs =>
      intro before after h
      rw [breakOn_append hb] at h
      cases has : Chars.breakOn fence as with
      | some cut =>
          obtain ⟨x, y⟩ := cut
          rw [has] at h
          obtain ⟨-, rfl⟩ := Prod.mk.inj (Option.some.inj h)
          rw [skipWord_append hb, marked_append hb, marked_append hb,
            ihas x y has]
          omega
      | none =>
          rw [has] at h
          obtain ⟨⟨x, y⟩, hbs, heq⟩ := Option.map_eq_some_iff.mp h
          obtain ⟨-, rfl⟩ := Prod.mk.inj heq
          rw [marked_append hb, ihbs x y hbs, marked_eq_zero_of_breakOn has,
            Nat.zero_add]

theorem marked_skipBlank (cs : List Char) :
    marked (skipBlank cs) = marked cs := by
  cases cs with
  | nil => rfl
  | cons c cs =>
      rw [skipBlank]
      split
      · next hc =>
          have happend := marked_append hc [] cs
          rw [List.nil_append] at happend
          rw [happend]
          exact (Nat.zero_add _).symm
      · rfl

/-- **The search sees one fence a word**: a fence stays open exactly when an odd
number of words is marked. -/
theorem isSome_unclosed_scan (cs : List Char) :
    (scan cs).unclosed.isSome = (marked cs % 2 == 1) := by
  fun_induction scan cs with
  | case1 cs hopen => rw [marked_eq_zero_of_breakOn hopen]; rfl
  | case2 cs before afterFence hopen hclose =>
      have hbody := marked_eq_zero_of_breakOn hclose
      rw [bodyOf, marked_skipBlank] at hbody
      rw [marked_of_breakOn cs _ _ hopen, hbody]
      rfl
  | case3 cs before afterFence hopen snippet rest hclose hlt found ih =>
      have hbody := marked_of_breakOn _ _ _ hclose
      rw [bodyOf, marked_skipBlank] at hbody
      rw [ih, marked_of_breakOn cs _ _ hopen, hbody, Nat.add_assoc,
        Nat.add_mod_right]

end Fences

/-! ## Sections -/

namespace Sections

/-- The fences of the lines are odd in number. -/
def leavesFence (lines : List String) : Bool :=
  (lines.map fun line => Fences.count line.toList).sum % 2 == 1

theorem leavesFence_cons (line : String) (lines : List String) :
    leavesFence (line :: lines) = (togglesFence line != leavesFence lines) := by
  rw [leavesFence, leavesFence, togglesFence, List.map_cons, List.sum_cons]
  generalize Fences.count line.toList = a
  generalize (lines.map fun line => Fences.count line.toList).sum = b
  rcases Nat.mod_two_eq_zero_or_one a with ha | ha <;>
    rcases Nat.mod_two_eq_zero_or_one b with
        hb | hb <;> simp [Nat.add_mod, ha, hb]

/-- The text of a section has the fences of its lines. -/
theorem count_text (s : Section) :
    Fences.count s.text.toList
      = (s.lines.map fun line => Fences.count line.toList).sum := by
  have hsep : "\n".toList = ['\n'] := rfl
  rw [Section.text, String.toList_intercalate, hsep]
  induction s.lines with
  | nil => rfl
  | cons line rest ih =>
      cases rest with
      | nil => simp
      | cons next rest =>
          have hstep : ['\n'].intercalate
            ((line :: next :: rest).map String.toList)
              = line.toList ++ '\n' :: ['\n'].intercalate
                ((next :: rest).map String.toList) := by
            simp [List.intercalate_cons_cons]
          rw [hstep, Fences.count_append (by decide), ih]
          simp only [List.map_cons, List.sum_cons]

/-- Whether fenced code is open behind lines, which start inside fenced code or
not. -/
def fencedAfter : Bool → List String → Bool
  | fenced, [] => fenced
  | fenced, line :: rest =>
    match if fenced then none else heading? line with
    | some _ => fencedAfter false rest
    | none => fencedAfter (fenced != togglesFence line) rest

/-- The lines and sections of a text with more lines and sections behind it:
the lines that come first belong to its last section. -/
def extend (front back : List String × List Section) :
    List String × List Section :=
  match front.2.getLast? with
  | none => (front.1 ++ back.1, back.2)
  | some s =>
      (front.1, front.2.dropLast ++ ⟨s.title, s.lines ++ back.1⟩ :: back.2)

theorem split_append (fenced : Bool) (front back : List String) :
    split fenced (front ++ back)
      = extend (split fenced front)
        (split (fencedAfter fenced front) back) := by
  induction front generalizing fenced with
  | nil => rfl
  | cons line rest ih =>
      rw [List.cons_append, split, split, fencedAfter]
      cases if fenced then none else heading? line with
      | none =>
          dsimp only
          rw [ih]
          unfold extend
          dsimp only
          split <;> rfl
      | some title =>
          dsimp only
          rw [ih]
          unfold extend
          dsimp only
          rw [List.getLast?_cons]
          cases hlast : (split false rest).2.getLast? with
          | none => rw [List.getLast?_eq_none_iff.mp hlast]; rfl
          | some s =>
              have hne : (split false rest).2 ≠ [] :=
                fun hnil => by rw [hnil] at hlast; cases hlast
              rw [Option.getD_some, List.dropLast_cons_of_ne_nil hne]
              rfl

/-- A section starts outside fenced code, so whether such code is open in it
depends on its own lines. -/
theorem fencedAfter_eq (fenced : Bool) (lines : List String) :
    fencedAfter fenced lines = match (split fenced lines).2.getLast? with
      | none => fenced != leavesFence (split fenced lines).1
      | some s => leavesFence s.lines := by
  induction lines generalizing fenced with
  | nil => cases fenced <;> rfl
  | cons line rest ih =>
      rw [fencedAfter, split]
      cases if fenced then none else heading? line with
      | none =>
          dsimp only
          rw [ih]
          split
          · rw [leavesFence_cons, Bool.bne_assoc]
          · rfl
      | some title =>
          dsimp only
          rw [ih, List.getLast?_cons]
          cases (split false rest).2.getLast? with
          | none => exact Bool.false_bne _
          | some s => rfl

/-! ## Headings -/

/-- Behind `front`, the line is a heading: the last section of `front` is over,
and the next one starts. -/
def EndsSection (front : Doc) (line : String) (back : Doc) : Prop :=
  ∃ title lines more, heading? line = some title
    ∧ (ofDoc (front ++ line :: back)).sections
      = (ofDoc front).sections ++ ⟨title, lines⟩ :: more

/-- Behind `front`, the line is text: the last section `s` of `front` goes on
with it. -/
def StaysInSection (front : Doc) (s : Section) (line : String) (back : Doc) :
    Prop :=
  ∃ lines more, (ofDoc (front ++ line :: back)).sections
    = (ofDoc front).sections.dropLast
      ++ ⟨s.title, s.lines ++ line :: lines⟩ :: more

section Heading

variable {front back : Doc} {line title : String} {s : Section}

theorem sections_append (front back : Doc) :
    (ofDoc (front ++ back)).sections
      = (extend (split false front)
        (split (fencedAfter false front) back)).2 := by
  rw [← split_append]
  rfl

theorem eq_dropLast_append (hs : (ofDoc front).sections.getLast? = some s) :
    (ofDoc front).sections = (ofDoc front).sections.dropLast ++ [s] := by
  obtain ⟨ss, hss⟩ := List.getLast?_eq_some_iff.mp hs
  rw [hss, List.dropLast_concat]

theorem sections_extend (hs : (ofDoc front).sections.getLast? = some s)
    (back : Doc) :
    (ofDoc (front ++ back)).sections
      = (ofDoc front).sections.dropLast
        ++ ⟨s.title, s.lines ++ (split (fencedAfter false front) back).1⟩
          :: (split (fencedAfter false front) back).2 := by
  have hlast : (split false front).2.getLast? = some s := hs
  rw [sections_append, extend, hlast]
  rfl

theorem endsSection_of_not_fenced
    (hs : (ofDoc front).sections.getLast? = some s)
    (hline : heading? line = some title)
    (hfenced : fencedAfter false front = false) :
    EndsSection front line back := by
  refine ⟨title, (split false back).1, (split false back).2, hline, ?_⟩
  have hsplit : split false (line :: back)
      = ([], ⟨title, (split false back).1⟩ :: (split false back).2) := by
    simp [split, hline]
  rw [sections_extend hs, hfenced, hsplit, List.append_nil]
  conv => rhs; rw [eq_dropLast_append hs, List.append_assoc,
    List.singleton_append]

theorem staysInSection_of_fenced (hs : (ofDoc front).sections.getLast? = some s)
    (hfenced : fencedAfter false front = true) :
    StaysInSection front s line back := by
  have hsplit : split true (line :: back)
      = (line :: (split (true != togglesFence line) back).1,
          (split (true != togglesFence line) back).2) := rfl
  refine ⟨(split (true != togglesFence line) back).1,
    (split (true != togglesFence line) back).2, ?_⟩
  rw [sections_extend hs, hfenced, hsplit]

/-- A section that is over has no more lines. -/
theorem not_endsSection_of_staysInSection
    (hs : (ofDoc front).sections.getLast? = some s)
    (hstays : StaysInSection front s line back) :
    ¬EndsSection front line back := by
  rintro ⟨title, lines, more, -, hends⟩
  obtain ⟨lines', more', hstays⟩ := hstays
  rw [hends, eq_dropLast_append hs, List.append_assoc, List.dropLast_concat,
    List.append_right_inj, List.singleton_append] at hstays
  have hlines := congrArg (fun s => s.lines.length) (List.cons.inj hstays).1
  simp at hlines

theorem endsSection_iff (hs : (ofDoc front).sections.getLast? = some s)
    (hline : heading? line = some title) :
    EndsSection front line back ↔ fencedAfter false front = false := by
  refine ⟨fun hends => ?_, endsSection_of_not_fenced hs hline⟩
  cases hfenced : fencedAfter false front with
  | false => rfl
  | true =>
      exact absurd hends
        (not_endsSection_of_staysInSection hs
          (staysInSection_of_fenced hs hfenced))

theorem staysInSection_iff (hs : (ofDoc front).sections.getLast? = some s)
    (hline : heading? line = some title) :
    StaysInSection front s line back ↔ fencedAfter false front = true := by
  refine ⟨fun hstays => ?_, staysInSection_of_fenced hs⟩
  cases hfenced : fencedAfter false front with
  | true => rfl
  | false =>
      exact absurd (endsSection_of_not_fenced hs hline hfenced)
        (not_endsSection_of_staysInSection hs hstays)

theorem fencedAfter_iff_odd (hs : (ofDoc front).sections.getLast? = some s) :
    fencedAfter false front = true ↔ Fences.count s.text.toList % 2 = 1 := by
  have hlast : (split false front).2.getLast? = some s := hs
  rw [fencedAfter_eq, hlast, count_text]
  exact beq_iff_eq

end Heading

/-- **Headings and fences.** Let a line with the form of a heading stand behind
lines that end in a section `s`. If an even number of the fences of `s` is
hidden behind another fence of the same word, and so if none is, then the line
ends the section exactly when the search for snippets leaves no fence open in
the lines of `s`, and stays in it exactly when one is left open. If the number
is odd, it is the other way round. -/
theorem heading_ends_iff {front back : Doc} {line title : String} {s : Section}
    (hs : (ofDoc front).sections.getLast? = some s)
    (hline : heading? line = some title) :
    let found := Fences.scan s.text.toList
    (Fences.hidden s.text.toList % 2 = 0 →
        (EndsSection front line back ↔ found.unclosed = none)
          ∧ (StaysInSection front s line back ↔ found.unclosed ≠ none))
      ∧ (Fences.hidden s.text.toList % 2 = 1 →
        (EndsSection front line back ↔ found.unclosed ≠ none)
          ∧ (StaysInSection front s line back ↔ found.unclosed = none)) := by
  intro found
  have hsum := Fences.count_eq_hidden_add_marked s.text.toList
  have hopen : found.unclosed ≠ none ↔ Fences.marked s.text.toList % 2 = 1 := by
    rw [← Option.isSome_iff_ne_none, Fences.isSome_unclosed_scan, beq_iff_eq]
  have hclosed : found.unclosed = none
      ↔ Fences.marked s.text.toList % 2 = 0 := by
    rw [← not_iff_not, ← Ne, hopen]
    omega
  have hends : EndsSection front line back
      ↔ Fences.count s.text.toList % 2 = 0 := by
    rw [endsSection_iff hs hline, ← Bool.not_eq_true, fencedAfter_iff_odd hs]
    omega
  have hstays : StaysInSection front s line back
      ↔ Fences.count s.text.toList % 2 = 1 := by
    rw [staysInSection_iff hs hline, fencedAfter_iff_odd hs]
  rw [hends, hstays, hopen, hclosed]
  omega

/-- A fence that opens in the middle of a line, with a tag: the search leaves it
open, and what looks like a heading on the next line is text. -/
theorem heading_ends_iff_inline :
    let front := ["# Example", "Call it like ```vela"]
    let s : Section := ⟨"Example", ["Call it like ```vela"]⟩
    (ofDoc front).sections.getLast? = some s
      ∧ heading? "# no title" = some "no title"
      ∧ Fences.hidden s.text.toList = 0
      ∧ (Fences.scan s.text.toList).unclosed ≠ none
      ∧ StaysInSection front s "# no title" ["```", "# Remarks"] := by
  intro front s
  have hs : (ofDoc front).sections.getLast? = some s := by decide
  have hline : heading? "# no title" = some "no title" := by decide
  have hhidden : Fences.hidden s.text.toList = 0 := by decide
  have hopen : (Fences.scan s.text.toList).unclosed ≠ none := by decide +kernel
  have hstays : StaysInSection front s "# no title" ["```", "# Remarks"]
      ↔ (Fences.scan s.text.toList).unclosed ≠ none :=
    ((heading_ends_iff hs hline).1 (by rw [hhidden])).2
  exact ⟨hs, hline, hhidden, hopen, hstays.mpr hopen⟩

/-- The two readers differ where a word holds two fences. Behind a tag that
brings the closing fence with it, a heading ends the section although the
search leaves the fence open; behind a closing fence with a word attached that
holds another fence, a heading is text although the search leaves none open. -/
theorem heading_misjudged :
    (∃ (front back : Doc) (line title : String) (s : Section),
        (∀ l ∈ front ++ line :: back, '\n' ∉ l.toList)
        ∧ (ofDoc front).sections.getLast? = some s ∧ heading? line = some title
        ∧ EndsSection front line back
        ∧ (Fences.scan s.text.toList).unclosed ≠ none)
      ∧ ∃ (front back : Doc) (line title : String) (s : Section),
        (∀ l ∈ front ++ line :: back, '\n' ∉ l.toList)
        ∧ (ofDoc front).sections.getLast? = some s ∧ heading? line = some title
        ∧ StaysInSection front s line back
        ∧ (Fences.scan s.text.toList).unclosed = none := by
  constructor
  · refine ⟨["# Example", "```a```"], [], "# Notes", "Notes",
      ⟨"Example", ["```a```"]⟩, by decide, by decide, by decide,
      ⟨"Notes", [], [], by decide, by decide⟩, by decide +kernel⟩
  · refine ⟨["# Example", "``` F(); ```b```"], [], "# Notes", "Notes",
      ⟨"Example", ["``` F(); ```b```"]⟩, by decide, by decide, by decide,
      ⟨[], [], by decide⟩, by decide +kernel⟩

end Sections

end Exemplar
