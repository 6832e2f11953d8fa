import Exemplar.Proofs.Docs.Fencing

/-!
# Fenced bodies come back

A documentation text can be written down piece by piece: some prose, a fence
with a language tag behind it, one blank, the body, the closing fence and
whatever is attached to it. `scan_recovers` says that the search for snippets
reads such a text back: it finds the bodies, all of them and in order, and a
fence behind the last piece that is never closed is reported with everything
that follows it.

The conditions on a piece are those that keep its fences where they were
written. A backtick right before a fence would be taken for its first one, so
neither prose nor body may end in one (`Plain`); and what stands behind a
closing fence reaches to the next blank, so the text that follows must start
with one (`StartsBlank`). The empty body, a tag or a suffix with backticks in
it and prose with single backticks are all fine.

The other direction holds for every text: no snippet holds a fence, and the
snippets stand in the text in order, without overlap (`Threads`).
-/

namespace Exemplar.Fences

/-! ## Texts without fences -/

theorem fence_eq : fence = ['\x60', '\x60', '\x60'] := rfl

/-- No fence, and no backtick at the end that a fence behind the text would
begin with. -/
def Plain (cs : List Char) : Prop := ¬fence <:+: cs ∧ cs.getLast? ≠ some '\x60'

instance (cs : List Char) : Decidable (Plain cs) :=
  inferInstanceAs (Decidable (¬fence <:+: cs ∧ cs.getLast? ≠ some '\x60'))

def StartsBlank (cs : List Char) : Prop :=
  ∃ b rest, cs = b :: rest ∧ Chars.isBlank b = true

theorem StartsBlank.append {cs : List Char} (h : StartsBlank cs)
    (rest : List Char) :
    StartsBlank (cs ++ rest) := by
  obtain ⟨b, more, rfl, hb⟩ := h
  exact ⟨b, more ++ rest, rfl, hb⟩

theorem breakOn_of_marked {cs : List Char} (h : fence <:+: cs) :
    Chars.breakOn fence cs ≠ none := by
  obtain ⟨before, after, rfl⟩ := h
  rw [List.append_assoc]
  induction before with
  | nil => simp [fence, Chars.breakOn, List.isPrefixOf]
  | cons c before ih =>
      rw [List.cons_append, Chars.breakOn]
      split
      · exact Option.some_ne_none _
      · rw [Ne, Option.map_eq_none_iff]
        exact ih

/-- To have no fence is to have a count of zero. -/
theorem count_eq_zero_iff (cs : List Char) : count cs = 0 ↔ ¬fence <:+: cs := by
  rw [← breakOn_eq_none_iff]
  constructor
  · exact fun hnone hmarked => breakOn_of_marked hmarked hnone
  · intro hmarked
    cases hcut : Chars.breakOn fence cs with
    | none => rfl
    | some cut =>
        exact absurd ⟨cut.1, cut.2, (eq_append_of_breakOn hcut).symm⟩ hmarked

theorem breakOn_of_unmarked {cs : List Char} (h : ¬fence <:+: cs) :
    Chars.breakOn fence cs = none :=
  (breakOn_eq_none_iff cs).mpr ((count_eq_zero_iff cs).mpr h)

/-- The cut is made at the first fence. -/
theorem unmarked_of_breakOn {cs before after : List Char}
    (h : Chars.breakOn fence cs = some (before, after)) :
    ¬fence <:+: before := by
  induction cs generalizing before with
  | nil => simp [Chars.breakOn, fence] at h
  | cons c cs ih =>
      have hall := eq_append_of_breakOn h
      rw [Chars.breakOn] at h
      split at h
      · obtain ⟨rfl, -⟩ := Prod.mk.inj (Option.some.inj h)
        simp [fence]
      · next hprefix =>
          obtain ⟨⟨more, after⟩, hcut, heq⟩ := Option.map_eq_some_iff.mp h
          obtain ⟨rfl, rfl⟩ := Prod.mk.inj heq
          intro hmarked
          rcases List.infix_cons_iff.mp hmarked with hhead | hrest
          · refine hprefix (List.isPrefixOf_iff_prefix.mpr (hhead.trans ?_))
            rw [hall, List.append_assoc]
            exact List.prefix_append ..
          · exact ih hcut hrest

/-- Behind plain text, the first fence is the one that stands there. -/
theorem breakOn_of_plain {cs : List Char} (h : Plain cs) (rest : List Char) :
    Chars.breakOn fence (cs ++ (fence ++ rest)) = some (cs, rest) := by
  induction cs with
  | nil => simp [fence, Chars.breakOn, List.isPrefixOf]
  | cons c cs ih =>
      obtain ⟨hunmarked, hlast⟩ := h
      -- a fence that starts here would end in the text, or share its last
      -- backtick
      have hprefix : ¬fence.isPrefixOf (c :: (cs ++ (fence ++ rest)))
          = true := by
        intro hprefix
        rw [fence_eq, List.isPrefixOf_iff_prefix] at hprefix
        rcases cs with _ | ⟨d, _ | ⟨e, cs⟩⟩
        · obtain ⟨rfl, -⟩ := by simpa using hprefix
          exact hlast rfl
        · obtain ⟨rfl, rfl, -⟩ := by simpa using hprefix
          exact hlast rfl
        · obtain ⟨rfl, rfl, rfl⟩ := by simpa using hprefix
          exact hunmarked ⟨[], cs, rfl⟩
      have hcs : Plain cs := by
        refine ⟨fun hrest => hunmarked (List.infix_cons hrest),
          fun htick => hlast ?_⟩
        rw [List.getLast?_cons, htick]
        rfl
      rw [List.cons_append, Chars.breakOn, if_neg hprefix, ih hcs]
      rfl

/-! ## One step of the search -/

section

variable {cs before afterFence snippet rest : List Char}

theorem scan_of_none (hopen : Chars.breakOn fence cs = none) :
    scan cs = ⟨[], none⟩ := by
  rw [scan]
  split
  · rfl
  · next hsome => rw [hopen] at hsome; cases hsome

theorem scan_of_unclosed
    (hopen : Chars.breakOn fence cs = some (before, afterFence))
    (hclose : Chars.breakOn fence (bodyOf afterFence) = none) :
    scan cs = ⟨[], some afterFence⟩ := by
  rw [scan]
  split
  · next hnone => rw [hopen] at hnone; cases hnone
  · next hsome =>
      rw [hopen] at hsome
      obtain ⟨rfl, rfl⟩ := Prod.mk.inj (Option.some.inj hsome)
      split
      · rfl
      · next hbody => rw [hclose] at hbody; cases hbody

theorem scan_of_closed
    (hopen : Chars.breakOn fence cs = some (before, afterFence))
    (hclose : Chars.breakOn fence (bodyOf afterFence) = some (snippet, rest)) :
    scan cs = ⟨snippet :: (scan (skipWord rest)).snippets,
      (scan (skipWord rest)).unclosed⟩ := by
  rw [scan]
  split
  · next hnone => rw [hopen] at hnone; cases hnone
  · next hsome =>
      rw [hopen] at hsome
      obtain ⟨rfl, rfl⟩ := Prod.mk.inj (Option.some.inj hsome)
      split
      · next hbody => rw [hclose] at hbody; cases hbody
      · next hbody =>
          rw [hclose] at hbody
          obtain ⟨rfl, rfl⟩ := Prod.mk.inj (Option.some.inj hbody)
          rfl

end

/-- Past a word, where the text ends or a blank follows. -/
theorem skipWord_word {word rest : List Char}
    (hword : ∀ c ∈ word, Chars.isBlank c = false)
    (hrest : rest = [] ∨ StartsBlank rest) :
    skipWord (word ++ rest) = rest := by
  have hpassed : skipWord word = [] :=
    List.dropWhile_eq_nil_iff.mpr fun c hc => by rw [hword c hc]; rfl
  rcases hrest with rfl | ⟨b, rest, rfl, hb⟩
  · rw [List.append_nil, hpassed]
  · rw [skipWord_append hb, hpassed, List.nil_append]

/-- The body behind a tag. -/
theorem bodyOf_tag {tag : List Char} (htag : ∀ c ∈ tag, Chars.isBlank c = false)
    {b : Char} (hb : Chars.isBlank b = true) (rest : List Char) :
    bodyOf (tag ++ b :: rest) = rest := by
  rw [bodyOf, skipWord_word htag (Or.inr ⟨b, rest, rfl, hb⟩), skipBlank,
    if_pos hb]

/-! ## Pieces -/

/-- Fenced code with the prose before it. -/
structure Piece where
  prose : List Char
  tag : List Char
  /-- What ends the tag. -/
  blank : Char
  body : List Char
  /-- What is attached to the closing fence. -/
  suffix : List Char
  prose_plain : Plain prose
  tag_solid : ∀ c ∈ tag, Chars.isBlank c = false
  blank_isBlank : Chars.isBlank blank = true
  body_plain : Plain body
  suffix_solid : ∀ c ∈ suffix, Chars.isBlank c = false

def Piece.text (p : Piece) : List Char :=
  p.prose ++ (fence ++ (p.tag ++ p.blank :: (p.body ++ (fence ++ p.suffix))))

def textOf (ps : List Piece) : List Char := ps.flatMap Piece.text

/-- The search finds the body of the first piece, and goes on behind it. -/
theorem scan_piece (p : Piece) {rest : List Char}
    (hrest : rest = [] ∨ StartsBlank rest) :
    scan (p.text ++ rest)
      = ⟨p.body :: (scan rest).snippets, (scan rest).unclosed⟩ := by
  have htext : p.text ++ rest
      = p.prose ++ (fence ++ (p.tag ++ p.blank
        :: (p.body ++ (fence ++ (p.suffix ++ rest))))) := by
    simp [Piece.text]
  have hopen := breakOn_of_plain p.prose_plain
    (p.tag ++ p.blank :: (p.body ++ (fence ++ (p.suffix ++ rest))))
  have hclose := breakOn_of_plain p.body_plain (p.suffix ++ rest)
  have hbody := bodyOf_tag p.tag_solid p.blank_isBlank
    (p.body ++ (fence ++ (p.suffix ++ rest)))
  rw [← hbody] at hclose
  rw [htext, scan_of_closed hopen hclose, skipWord_word p.suffix_solid hrest]

/-- What follows the pieces is searched as if it stood alone. -/
theorem scan_textOf {ps : List Piece} (hps : ∀ p ∈ ps.tail, StartsBlank p.prose)
    {rest : List Char} (hrest : ps ≠ [] → rest = [] ∨ StartsBlank rest) :
    scan (textOf ps ++ rest)
      = ⟨ps.map Piece.body ++ (scan rest).snippets, (scan rest).unclosed⟩ := by
  induction ps with
  | nil => rfl
  | cons p ps ih =>
      have hafter := hrest (List.cons_ne_nil p ps)
      have hnext : textOf ps ++ rest = []
          ∨ StartsBlank (textOf ps ++ rest) := by
        cases ps with
        | nil => exact hafter
        | cons q qs =>
            rw [textOf, List.flatMap_cons, Piece.text, List.append_assoc,
              List.append_assoc]
            exact Or.inr ((hps q (List.mem_cons_self ..)).append _)
      have htext : textOf (p :: ps) ++ rest
          = p.text ++ (textOf ps ++ rest) := by
        rw [textOf, List.flatMap_cons, List.append_assoc]
        rfl
      rw [htext, scan_piece p hnext,
        ih (fun q hq => hps q (List.mem_of_mem_tail hq)) fun _ => hafter]
      rfl

/-! ## Snippets in the text -/

/-- The stretches occur in the text, one behind the other. -/
inductive Threads : List (List Char) → List Char → Prop
  | nil (cs : List Char) : Threads [] cs
  | cons (gap s : List Char) {ss : List (List Char)} {rest : List Char}
      (h : Threads ss rest) :
      Threads (s :: ss) (gap ++ s ++ rest)

theorem Threads.append {ss : List (List Char)} {cs : List Char}
    (h : Threads ss cs) (front : List Char) : Threads ss (front ++ cs) := by
  cases h with
  | nil => exact .nil _
  | cons gap s h =>
      rw [← List.append_assoc, ← List.append_assoc]
      exact .cons _ s h

theorem skipWord_suffix (cs : List Char) : skipWord cs <:+ cs :=
  List.dropWhile_suffix _

theorem bodyOf_suffix (cs : List Char) : bodyOf cs <:+ cs := by
  have hblank : ∀ cs : List Char, skipBlank cs <:+ cs := by
    intro cs
    cases cs with
    | nil => exact List.suffix_rfl
    | cons c cs =>
        rw [skipBlank]
        split
        · exact List.suffix_cons c cs
        · exact List.suffix_rfl
  exact (hblank _).trans (skipWord_suffix cs)

/-- Every text threads its snippets. -/
theorem threads_scan (cs : List Char) : Threads (scan cs).snippets cs := by
  fun_induction scan cs with
  | case1 cs hopen => exact .nil cs
  | case2 cs before afterFence hopen hclose => exact .nil cs
  | case3 cs before afterFence hopen snippet rest hclose hlt found ih =>
      obtain ⟨word, hword⟩ := skipWord_suffix rest
      obtain ⟨tag, htag⟩ := bodyOf_suffix afterFence
      have hcs : cs = (before ++ fence ++ tag) ++ snippet
          ++ (fence ++ word ++ skipWord rest) := by
        rw [eq_append_of_breakOn hopen, ← htag, eq_append_of_breakOn hclose,
          ← hword]
        simp only [List.append_assoc, hword]
      have hthread := Threads.cons (before ++ fence ++ tag) snippet
        (ih.append (fence ++ word))
      rw [← hcs] at hthread
      exact hthread

theorem unmarked_of_mem_scan {cs s : List Char} (h : s ∈ (scan cs).snippets) :
    ¬fence <:+: s := by
  fun_induction scan cs with
  | case1 cs hopen => cases h
  | case2 cs before afterFence hopen hclose => cases h
  | case3 cs before afterFence hopen snippet rest hclose hlt found ih =>
      rcases List.mem_cons.mp h with rfl | h
      · exact unmarked_of_breakOn hclose
      · exact ih h

/-! ## Bodies -/

/-- Behind its first word and one blank, the text has no fence. -/
def OpensLast (u : List Char) : Prop :=
  ∀ word b rest, u = word ++ b :: rest → (∀ c ∈ word, Chars.isBlank c = false) →
    Chars.isBlank b = true → ¬fence <:+: rest

theorem opensLast_iff (u : List Char) : OpensLast u ↔ ¬fence <:+: bodyOf u := by
  constructor
  · intro h
    have hword : ∀ c ∈ u.takeWhile (fun c => !Chars.isBlank c),
        Chars.isBlank c = false :=
      fun c hc => by simpa using List.mem_takeWhile_imp hc
    have hu : u.takeWhile (fun c => !Chars.isBlank c) ++ skipWord u = u :=
      List.takeWhile_append_dropWhile
    rw [bodyOf]
    cases hskip : skipWord u with
    | nil => simp [skipBlank, fence_eq]
    | cons b rest =>
        have hb : Chars.isBlank b = true := by
          have hnot := List.head?_dropWhile_not (fun c => !Chars.isBlank c) u
          rw [show u.dropWhile (fun c => !Chars.isBlank c)
            = b :: rest from hskip] at hnot
          simpa using hnot
        rw [hskip] at hu
        rw [skipBlank, if_pos hb]
        exact h _ b rest hu.symm hword hb
  · rintro h word b rest rfl hword hb
    rwa [bodyOf_tag hword hb] at h

/-- **Fenced bodies come back.** In a text made of pieces, each behind the first
with a blank in front, the search finds exactly the bodies, in order. A tail
without fences changes nothing, and if a fence is opened behind it and never
closed, what follows that fence is what the search leaves open. In any text at
all, no snippet holds a fence, and the snippets stand one behind the other. -/
theorem scan_recovers (ps : List Piece)
    (hps : ∀ p ∈ ps.tail, StartsBlank p.prose) (tail : List Char) :
    (¬fence <:+: tail → tail = [] ∨ StartsBlank tail →
        scan (textOf ps ++ tail) = ⟨ps.map Piece.body, none⟩)
      ∧ (∀ u, Plain tail → (ps ≠ [] → StartsBlank tail) → OpensLast u →
        scan (textOf ps ++ tail ++ fence ++ u) = ⟨ps.map Piece.body, some u⟩)
      ∧ ∀ cs, (∀ s ∈ (scan cs).snippets, ¬fence <:+: s)
        ∧ Threads (scan cs).snippets cs := by
  refine ⟨fun hfence htail => ?_, fun u htail hblank hu => ?_,
    fun cs => ⟨fun s => unmarked_of_mem_scan, threads_scan cs⟩⟩
  · rw [scan_textOf hps fun _ => htail,
      scan_of_none (breakOn_of_unmarked hfence), List.append_nil]
  · have hopen : scan (tail ++ (fence ++ u)) = ⟨[], some u⟩ :=
      scan_of_unclosed (breakOn_of_plain htail u)
        (breakOn_of_unmarked ((opensLast_iff u).mp hu))
    have hrest : ps ≠ [] → tail ++ (fence ++ u) = []
        ∨ StartsBlank (tail ++ (fence ++ u)) :=
      fun hne => Or.inr ((hblank hne).append _)
    rw [List.append_assoc, List.append_assoc, scan_textOf hps hrest, hopen,
      List.append_nil]

/-- No blank among the characters, computed. -/
theorem solid_of_any {cs : List Char} (h : cs.any Chars.isBlank = false) :
    ∀ c ∈ cs, Chars.isBlank c = false :=
  fun c hc => Bool.eq_false_iff.mpr (List.any_eq_false.mp h c hc)

/-- An empty body behind a wide blank, and a body with a backtick in it; tags
and suffixes have backticks too. -/
def samplePieces : List Piece :=
  [{ prose := "Call `F`: ".toList
     tag := "vela`".toList
     blank := '\u2003'
     body := []
     suffix := "`b".toList
     prose_plain := by decide +kernel
     tag_solid := solid_of_any (by decide +kernel)
     blank_isBlank := by decide +kernel
     body_plain := by decide +kernel
     suffix_solid := solid_of_any (by decide +kernel) },
   { prose := "\nor ".toList
     tag := []
     blank := '\n'
     body := "`é`;\n".toList
     suffix := []
     prose_plain := by decide +kernel
     tag_solid := solid_of_any (by decide +kernel)
     blank_isBlank := by decide +kernel
     body_plain := by decide +kernel
     suffix_solid := solid_of_any (by decide +kernel) }]

/-- A fence that is opened behind two pieces, with another attached to it. -/
theorem scan_recovers_sample :
    (∀ p ∈ samplePieces.tail, StartsBlank p.prose) ∧ Plain ['\n', 'a', ' ']
      ∧ StartsBlank ['\n', 'a', ' '] ∧ OpensLast "a```b\tc``".toList
      ∧ scan (textOf samplePieces ++ ['\n', 'a', ' '] ++ fence
        ++ "a```b\tc``".toList)
        = ⟨[[], "`é`;\n".toList], some "a```b\tc``".toList⟩ := by
  have hps : ∀ p ∈ samplePieces.tail, StartsBlank p.prose := by
    intro p hp
    obtain rfl := List.mem_singleton.mp hp
    exact ⟨'\n', ['o', 'r', ' '], rfl, rfl⟩
  have htail : Plain ['\n', 'a', ' '] := by decide +kernel
  have hblank : StartsBlank ['\n', 'a', ' '] := ⟨'\n', ['a', ' '], rfl, rfl⟩
  have hu : OpensLast "a```b\tc``".toList :=
    (opensLast_iff _).mpr (by decide +kernel)
  have hscan := (scan_recovers samplePieces hps ['\n', 'a', ' ']).2.1 _ htail
    (fun _ => hblank) hu
  exact ⟨hps, htail, hblank, hu, hscan⟩

end Exemplar.Fences
