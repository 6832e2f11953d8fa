import Exemplar.Proofs.Diagnostic.Lines

/-!
# Colours are all that colours add

A diagnostic in colours, without its escape sequences, is the diagnostic in
plain text (`withoutCodes_rich`), when no string in it brings an escape
character of its own.

Deleting the sequences (`withoutCodes`) goes through a text from the left. Text
without escape characters stays as it is, and the start and the reset of every
style go, so a text in pieces is left with the pieces alone
(`withoutCodes_ansi`). What remains is an inventory: the pieces of a diagnostic
are its strings, lines of the source, numbers, blanks and marks.
-/

namespace Exemplar

/-! ## Deleting escape sequences -/

/-- Codes are numbers, with semicolons between them. -/
def isCode (c : Char) : Bool := c.isDigit || c == ';'

/-- What follows the codes of an escape sequence and the `m` that ends it. -/
def afterCodes? : List Char → Option (List Char)
  | [] => none
  | c :: cs =>
      if c = 'm' then some cs else if isCode c then afterCodes? cs else none

/-- What follows an escape sequence that selects a style. -/
def afterSequence? : List Char → Option (List Char)
  | '\x1b' :: '[' :: cs => afterCodes? cs
  | _ => none

theorem length_lt_of_afterCodes? {cs rest : List Char}
    (h : afterCodes? cs = some rest) :
    rest.length < cs.length := by
  induction cs with
  | nil => cases h
  | cons c cs ih =>
      rw [afterCodes?] at h
      split at h
      · rw [← Option.some.inj h]
        exact Nat.lt_succ_self _
      · split at h
        · exact Nat.lt_succ_of_lt (ih h)
        · cases h

theorem length_lt_of_afterSequence? {cs rest : List Char}
    (h : afterSequence? cs = some rest) :
    rest.length < cs.length := by
  unfold afterSequence? at h
  split at h
  · have := length_lt_of_afterCodes? h
    simp only [List.length_cons]
    omega
  · cases h

/-- The text without the escape sequences that select styles. -/
def withoutCodes (cs : List Char) : List Char :=
  match _h : afterSequence? cs with
  | some rest => withoutCodes rest
  | none =>
    match cs with
    | [] => []
    | c :: cs => c :: withoutCodes cs
termination_by cs.length
decreasing_by
  · exact length_lt_of_afterSequence? _h
  · exact Nat.lt_succ_self _

theorem withoutCodes_nil : withoutCodes [] = [] := by
  rw [withoutCodes]
  rfl

theorem withoutCodes_cons {c : Char} (hc : c ≠ '\x1b') (cs : List Char) :
    withoutCodes (c :: cs) = c :: withoutCodes cs := by
  have hnone : afterSequence? (c :: cs) = none := by
    unfold afterSequence?
    split
    next h => exact absurd (List.cons.inj h).1 hc
    next => rfl
  rw [withoutCodes]
  split
  next rest h => rw [hnone] at h; cases h
  next => rfl

theorem withoutCodes_append {cs : List Char} (h : '\x1b' ∉ cs)
    (rest : List Char) :
    withoutCodes (cs ++ rest) = cs ++ withoutCodes rest := by
  induction cs with
  | nil => rfl
  | cons c cs ih =>
      rw [List.mem_cons, not_or] at h
      rw [List.cons_append, withoutCodes_cons (Ne.symm h.1), ih h.2,
        List.cons_append]

theorem afterCodes?_append {codes : List Char} (h : codes.all isCode = true)
    (rest : List Char) : afterCodes? (codes ++ 'm' :: rest) = some rest := by
  induction codes with
  | nil => rfl
  | cons c codes ih =>
      rw [List.all_cons, Bool.and_eq_true] at h
      have hne : c ≠ 'm' := by
        rintro rfl
        exact absurd h.1 (by decide)
      rw [List.cons_append, afterCodes?, if_neg hne, if_pos h.1]
      exact ih h.2

/-- A sequence goes as a whole. -/
theorem withoutCodes_sequence {codes : List Char} (h : codes.all isCode = true)
    (rest : List Char) :
    withoutCodes ('\x1b' :: '[' :: (codes ++ 'm' :: rest))
      = withoutCodes rest := by
  have hafter : afterSequence? ('\x1b' :: '[' :: (codes ++ 'm' :: rest))
      = some rest :=
    afterCodes?_append h rest
  rw [withoutCodes]
  split
  next rest' h' =>
    rw [hafter] at h'
    rw [Option.some.inj h']
  next h' => rw [hafter] at h'; cases h'

theorem Style.all_codes (style : Style) :
    style.codes.toList.all isCode = true := by
  rcases style with c | _ | c | _ <;> (try cases c) <;> rfl

/-! ## Rich texts -/

def NoEscape (text : String) : Prop := '\x1b' ∉ text.toList

instance (text : String) : Decidable (NoEscape text) :=
  inferInstanceAs (Decidable ('\x1b' ∉ text.toList))

namespace Rich

/-- No piece has an escape character. -/
def NoEscapes (r : Rich) : Prop := ∀ p ∈ r, NoEscape p.text

theorem withoutCodes_piece {p : Piece} (h : NoEscape p.text)
    (rest : List Char) :
    withoutCodes (p.ansi.toList ++ rest)
      = p.text.toList ++ withoutCodes rest := by
  rcases p with ⟨_ | style, text⟩
  · exact withoutCodes_append h rest
  · have hreset : ['0'].all isCode = true := rfl
    have hansi : (Piece.ansi ⟨some style, text⟩).toList ++ rest
        = '\x1b' :: '[' :: (style.codes.toList ++ 'm' ::
          (text.toList ++ '\x1b' :: '[' :: (['0'] ++ 'm' :: rest))) := by
      simp [Piece.ansi, Style.start, afterResets_eq_self h]
    rw [hansi, withoutCodes_sequence style.all_codes, withoutCodes_append h,
      withoutCodes_sequence hreset]

/-- In a text without escape characters, only the colours go. -/
theorem withoutCodes_ansi {r : Rich} (h : r.NoEscapes) :
    withoutCodes r.ansi.toList = r.plain.toList := by
  induction r with
  | nil => exact withoutCodes_nil
  | cons p r ih =>
      have hansi : (ansi (p :: r)).toList
        = p.ansi.toList ++ (ansi r).toList := by simp [ansi]
      rw [hansi, withoutCodes_piece (h p List.mem_cons_self),
        ih fun q hq => h q (List.mem_cons_of_mem p hq), plain_cons,
        String.toList_append]

@[simp] theorem noEscapes_nil : NoEscapes [] :=
  fun _ hp => absurd hp List.not_mem_nil

@[simp] theorem noEscapes_append {r s : Rich} :
    NoEscapes (r ++ s) ↔ r.NoEscapes ∧ s.NoEscapes := List.forall_mem_append

@[simp] theorem noEscapes_raw {text : String} :
    (raw text).NoEscapes ↔ NoEscape text :=
  List.forall_mem_singleton

@[simp] theorem noEscapes_styled {style : Style} {text : String} :
    (styled style text).NoEscapes ↔ NoEscape text := List.forall_mem_singleton

theorem noEscapes_flatMap {α : Type} {f : α → Rich} {as : List α}
    (h : ∀ a ∈ as, (f a).NoEscapes) :
    NoEscapes (as.flatMap f) := by
  intro p hp
  obtain ⟨a, ha, hmem⟩ := List.mem_flatMap.mp hp
  exact h a ha p hmem

end Rich

/-! ## Strings of a diagnostic -/

@[simp] theorem noEscape_append {a b : String} :
    NoEscape (a ++ b) ↔ NoEscape a ∧ NoEscape b := by
  simp [NoEscape, not_or]

@[simp] theorem noEscape_repr (n : Nat) : NoEscape (Nat.repr n) := by
  rw [NoEscape, Nat.toList_repr]
  intro h
  exact absurd (Nat.isDigit_of_mem_toDigits (by decide) (by decide) h)
    (by decide)

theorem noEscape_replicate {c : Char} (hc : c ≠ '\x1b') (n : Nat) :
    NoEscape (String.ofList (List.replicate n c)) := by
  rw [NoEscape, String.toList_ofList, List.mem_replicate]
  exact fun h => hc h.2.symm

@[simp] theorem noEscape_blanks (n : Nat) : NoEscape (ExcerptLine.blanks n) :=
  noEscape_replicate (by decide) n

theorem noEscape_originText {origin : Origin} (h : NoEscape origin.name) :
    NoEscape origin.text := by
  rw [Origin.text]
  cases origin.role <;> simp +decide [h]

theorem Chars.mem_of_mem_splitOn {sep c : Char} {cs piece : List Char}
    (hpiece : piece ∈ splitOn sep cs) (hc : c ∈ piece) : c ∈ cs := by
  induction cs generalizing piece with
  | nil =>
      rw [splitOn, List.mem_singleton] at hpiece
      rwa [hpiece] at hc
  | cons d cs ih =>
      rw [splitOn] at hpiece
      split at hpiece
      · rcases List.mem_cons.mp hpiece with rfl | hpiece
        · cases hc
        · exact List.mem_cons_of_mem d (ih hpiece hc)
      · split at hpiece
        next hnil => exact absurd hnil (splitOn_ne_nil sep cs)
        next first rest hsplit =>
          rcases List.mem_cons.mp hpiece with rfl | hpiece
          · rcases List.mem_cons.mp hc with rfl | hc
            · exact List.mem_cons_self
            · exact List.mem_cons_of_mem d (ih (hsplit ▸ List.mem_cons_self) hc)
          · exact List.mem_cons_of_mem d
              (ih (hsplit ▸ List.mem_cons_of_mem first hpiece) hc)

/-- The lines of a text are made of its characters. -/
theorem noEscape_line? {source text : String} {n : UInt32} (h : NoEscape source)
    (hline : (LineIndex.ofText source).line? n = some text) :
    NoEscape text := by
  rw [LineIndex.line?] at hline
  split at hline
  · cases hline
  · obtain ⟨piece, hpiece, rfl⟩ := List.mem_map.mp (List.mem_of_getElem? hline)
    rw [NoEscape, String.toList_ofList]
    exact fun hc => h (Chars.mem_of_mem_splitOn hpiece hc)

namespace ExcerptLine

/-- The text of the line and the messages under it have no escape characters. -/
structure NoEscapes (line : ExcerptLine) : Prop where
  text : NoEscape line.text
  messages : ∀ u ∈ line.underlines, ∀ m ∈ u.message, NoEscape m

theorem noEscapes_of_mem {source : String} {labels : List Label}
    (hsource : NoEscape source)
    (hlabels : ∀ label ∈ labels, ∀ m ∈ label.message, NoEscape m)
    {line : ExcerptLine} (hline : line ∈ ofLabels source labels) :
    line.NoEscapes := by
  have hgrouped := grouped_ofLabels source labels
  -- what an entry holds comes from the source and from its label
  have hentry : ∀ number text u, (number, text, u)
      ∈ labels.filterMap (ofLabel? source (LineIndex.ofText source)) →
      NoEscape text ∧ ∀ m ∈ u.message, NoEscape m := by
    intro number text u hmem
    obtain ⟨label, hlabel, hentry⟩ := List.mem_filterMap.mp hmem
    simp only [ofLabel?] at hentry
    split at hentry
    · cases hentry
    · obtain ⟨-, rfl, rfl⟩ := hentry
      refine ⟨?_, hlabels label hlabel⟩
      cases hread : (LineIndex.ofText source).line?
          ((LineIndex.ofText source).position label.span.start).line with
      | none => decide
      | some text => exact noEscape_line? hsource hread
  obtain ⟨u, hu⟩ := hgrouped.text line hline
  refine ⟨(hentry _ _ _ hu).1, fun v hv => ?_⟩
  rw [hgrouped.underlines line hline] at hv
  obtain ⟨e, he, rfl⟩ := List.mem_map.mp hv
  exact (hentry e.1 e.2.1 e.2.2 (List.mem_filter.mp he).1).2

theorem noEscapes_richRow (cells : Row) : (richRow cells).NoEscapes := by
  intro p hp
  obtain ⟨run, -, rfl⟩ := List.mem_map.mp hp
  rcases run with ⟨_ | emphasis, n⟩
  · exact noEscape_replicate (by decide) n
  · exact noEscape_replicate (by cases emphasis <;> decide) n

theorem noEscapes_bar (gutter : Nat) : (bar gutter).NoEscapes := by
  simp +decide [bar]

theorem NoEscapes.rich {line : ExcerptLine} (h : line.NoEscapes)
    (gutter : Nat) :
    (line.rich gutter).NoEscapes := by
  have hmessages : ∀ m ∈ line.messages, NoEscape m.2.2 := by
    intro m hm
    obtain ⟨u, hu, hmessage⟩ := List.mem_filterMap.mp hm
    obtain ⟨message, hmem, rfl⟩ := Option.map_eq_some_iff.mp hmessage
    exact h.messages u
      ((List.mergeSort_perm line.underlines paintedBefore).mem_iff.mp hu)
      message hmem
  have hunderlines : (line.richUnderlines gutter).NoEscapes := by
    rw [richUnderlines]
    split
    · exact Rich.noEscapes_nil
    · simp +decide [noEscapes_bar, noEscapes_richRow]
    next message hone _ =>
      have hmessage : NoEscape message :=
        hmessages _ (hone ▸ List.mem_singleton_self _)
      simp +decide [noEscapes_bar, noEscapes_richRow, hmessage]
    · have hhanging : Rich.NoEscapes
          (line.messages.reverse.flatMap (hanging gutter)) := by
        refine Rich.noEscapes_flatMap fun m hm => ?_
        have hmessage := hmessages m (List.mem_reverse.mp hm)
        simp +decide [hanging, noEscapes_bar, hmessage]
      simp +decide [noEscapes_bar, noEscapes_richRow, hhanging]
  simp +decide [ExcerptLine.rich, padded, h.text, hunderlines]

theorem noEscapes_richAll {lines : List ExcerptLine}
    (h : ∀ line ∈ lines, line.NoEscapes) (gutter : Nat) :
    (richAll gutter lines).NoEscapes := by
  have hafter : ∀ (rest : List ExcerptLine), (∀ line ∈ rest, line.NoEscapes) →
      ∀ previous, (richAfter gutter previous rest).NoEscapes := by
    intro rest
    induction rest with
    | nil => exact fun _ _ => Rich.noEscapes_nil
    | cons line rest ih =>
        intro hrest previous
        rw [List.forall_mem_cons] at hrest
        have hdots : Rich.NoEscapes
            (if previous + 1 < line.number then dots gutter else []) := by
          split <;> simp +decide [dots]
        simp [richAfter, hdots, hrest.1.rich, ih hrest.2]
  cases lines with
  | nil => exact Rich.noEscapes_nil
  | cons line rest =>
      rw [List.forall_mem_cons] at h
      simp [richAll, h.1.rich, hafter rest h.2]

end ExcerptLine

namespace Diagnostic

/-- No string of the diagnostic has an escape character. -/
structure NoEscapes (d : Diagnostic) : Prop where
  code : ∀ code ∈ d.code, NoEscape code
  message : NoEscape d.message
  origin : ∀ origin ∈ d.origin, NoEscape origin.name
  labels : ∀ label ∈ d.labels, ∀ message ∈ label.message, NoEscape message
  notes : ∀ note ∈ d.notes, NoEscape note
  help : ∀ help ∈ d.help, NoEscape help

theorem noEscapes_pointer {place : String} (h : NoEscape place) :
    (pointer place).NoEscapes := by
  simp +decide [pointer, h]

namespace NoEscapes

variable {d : Diagnostic} (hd : d.NoEscapes)
include hd

theorem header : d.header.NoEscapes := by
  have hseverity : NoEscape d.severity.text := by cases d.severity <;> decide
  have hcode := hd.code
  cases hc : d.code with
  | none => simp +decide [Diagnostic.header, hc, hseverity, hd.message]
  | some code =>
      rw [hc] at hcode
      simp +decide [Diagnostic.header, hc, hseverity, hd.message,
        hcode code rfl]

theorem footer : d.footer.NoEscapes := by
  have hline : ∀ kind text, NoEscape kind → NoEscape text →
      (footerLine kind text).NoEscapes := by
    intro kind text hkind htext
    simp +decide [footerLine, hkind, htext]
  refine Rich.noEscapes_append.mpr ⟨Rich.noEscapes_flatMap fun note hnote => ?_,
    Rich.noEscapes_flatMap fun help hhelp => ?_⟩
  · exact hline _ _ (by decide) (hd.notes note hnote)
  · exact hline _ _ (by decide) (hd.help help (Option.mem_toList.mp hhelp))

theorem excerpt {name source : String} (hname : NoEscape name)
    (hsource : NoEscape source) :
    (d.excerpt name source).NoEscapes := by
  have hall := ExcerptLine.noEscapes_richAll fun line hline =>
    ExcerptLine.noEscapes_of_mem hsource hd.labels hline
  rw [Diagnostic.excerpt]
  split
  · exact Rich.noEscapes_nil
  · exact Rich.noEscapes_nil
  · simp +decide [noEscapes_pointer, ExcerptLine.noEscapes_bar, hname, hall]

theorem richIn {name source : String} (hname : NoEscape name)
    (hsource : NoEscape source) :
    (d.richIn name source).NoEscapes :=
  Rich.noEscapes_append.mpr
    ⟨Rich.noEscapes_append.mpr ⟨hd.header, hd.excerpt hname hsource⟩, hd.footer⟩

theorem rich {texts : SourceTexts} (htexts : ∀ e ∈ texts, NoEscape e.2) :
    (d.rich texts).NoEscapes := by
  have horigin := hd.origin
  rw [Diagnostic.rich]
  split
  · exact Rich.noEscapes_append.mpr ⟨hd.header, hd.footer⟩
  next origin hsome =>
    have hname : NoEscape origin.text :=
      noEscape_originText (horigin origin hsome)
    split
    next source hsource =>
      obtain ⟨before, after, rfl, -⟩ := List.lookup_eq_some_iff.mp hsource
      exact hd.richIn hname (htexts (origin, source) (by simp))
    · exact Rich.noEscapes_append.mpr
        ⟨Rich.noEscapes_append.mpr ⟨hd.header, noEscapes_pointer hname⟩,
          hd.footer⟩

end NoEscapes

/-- **Colour changes nothing but colour.** Where no string of a diagnostic and
no text at hand has an escape character, the diagnostic in colours, without its
escape sequences, is the diagnostic in plain text. -/
theorem withoutCodes_rich {d : Diagnostic} (hd : d.NoEscapes)
    {texts : SourceTexts} (htexts : ∀ e ∈ texts, NoEscape e.2) :
    withoutCodes ((d.rich texts).toText true).toList
      = ((d.rich texts).toText false).toList :=
  Rich.withoutCodes_ansi (hd.rich htexts)

/-- A warning with marks in two styles, and a message that is the rest of a
code. -/
def twoMarks : Diagnostic :=
  ⟨.warning, none, "[0m", some (.primary "a"),
    [⟨⟨0, 1⟩, .primary, none⟩, ⟨⟨2, 3⟩, .secondary, none⟩], [], none⟩

/-- The warning in colours, with its escape sequences deleted. -/
theorem withoutCodes_rich_twoMarks :
    withoutCodes ((twoMarks.rich [(.primary "a", "f(x)")]).toText true).toList
      = "warning: [0m\n  --> a:1:1\n    |\n  1 | f(x)\n    | ^ -\n".toList := by
  have hd : twoMarks.NoEscapes :=
    ⟨by simp [twoMarks], by decide, by decide, by simp [twoMarks],
      by simp [twoMarks], by simp [twoMarks]⟩
  have hlines : ExcerptLine.ofLabels "f(x)" twoMarks.labels
      = [⟨1, "f(x)", [⟨1, 2, .primary, none⟩, ⟨3, 4, .secondary, none⟩]⟩] := by
        decide
  have hpainted : ExcerptLine.painted
        ⟨1, "f(x)", [⟨1, 2, .primary, none⟩, ⟨3, 4, .secondary, none⟩]⟩
      = [⟨1, 2, .primary, none⟩, ⟨3, 4, .secondary, none⟩] :=
    List.mergeSort_of_pairwise (by decide)
  have hexcerpt : twoMarks.excerpt "a" "f(x)"
      = pointer "a:1:1" ++ ExcerptLine.bar 2 ++ .raw "\n"
        ++ ExcerptLine.richAll 2
          (ExcerptLine.ofLabels "f(x)" twoMarks.labels) := by
    rw [excerpt, hlines]
    rfl
  have hplain : (twoMarks.richIn "a" "f(x)").plain
      = "warning: [0m\n  --> a:1:1\n    |\n  1 | f(x)\n    | ^ -\n" := by
    rw [richIn, hexcerpt, hlines, ExcerptLine.richAll, ExcerptLine.rich,
      ExcerptLine.richUnderlines, ExcerptLine.row, ExcerptLine.fullRow,
      ExcerptLine.messages, hpainted]
    decide +kernel
  rw [withoutCodes_rich hd (by decide)]
  exact congrArg String.toList hplain

end Diagnostic

end Exemplar
