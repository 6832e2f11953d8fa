import Mathlib.Data.List.Perm.Basic
import Exemplar.Proofs.Contribution
import Exemplar.Proofs.Diagnostic.Rows

/-!
# No label is lost

The excerpt of a diagnostic as it is printed (`excerpt_complete`): lines of the
source with increasing numbers, and under each of them a row of marks with the
messages of the labels that start on the line. Every label that starts in the
text belongs to one of these lines, and its message is printed there once.

A printed line is data of its own (`PrintedLine`), with its one written form;
the text of the excerpt is compared with it first (`plain_excerpt`). That the row
under a line is never blank is what makes this comparison possible: messages
hang on a row, and a blank row would take them with it.
-/

namespace Exemplar

open ExcerptLine

/-! ## Printed lines -/

/-- A line of an excerpt as it is printed: after dots when lines are left out
before it, with its number and text, the row of marks under it, a message beside
the row, and messages on rows of their own, each after a number of blanks. -/
structure PrintedLine where
  skips : Bool
  number : Nat
  text : String
  /-- The labels that it is about. -/
  labels : List Label
  marks : String
  beside : Option String
  hung : List (Nat × String)

namespace PrintedLine

/-- The left margin of rows without a number. -/
def margin (gutter : Nat) : String := blanks (gutter + 1) ++ " |"

/-- A message on a row of its own. -/
def hang (gutter : Nat) (message : Nat × String) : String :=
  margin gutter ++ " " ++ blanks message.1 ++ "| " ++ message.2 ++ "\n"

/-- What is written under a line. -/
def under (gutter : Nat) (p : PrintedLine) : String :=
  margin gutter ++ " " ++ p.marks ++ (p.beside.elim "" fun message =>
    " " ++ message) ++ "\n"
    ++ String.join (p.hung.map (hang gutter))

def write (gutter : Nat) (p : PrintedLine) : String :=
  (if p.skips then blanks gutter ++ " ...\n" else "")
    ++ padded (gutter + 1) p.number ++ " | " ++ p.text ++ "\n" ++ p.under gutter

def messages (p : PrintedLine) : List String :=
  p.beside.toList ++ p.hung.map Prod.snd

/-- The line is the one of the source with its number and holds the starts of
its labels, of which there are some. The row under it is not blank. The messages
that are printed are those of its labels, each as often as a label has it:
beside the row when there is only one, and otherwise on rows of their own. -/
structure Complete (source : String) (p : PrintedLine) : Prop where
  shows : ∃ start, IsLine source p.number start p.text
  holds : ∀ label ∈ p.labels, lineNumber source label.span.start = p.number
  labelled : p.labels ≠ []
  marked : ∃ c ∈ p.marks.toList, c ≠ ' '
  messages : p.messages.Perm (p.labels.filterMap Label.message)
  beside_iff : p.beside.isSome ↔ (p.labels.filterMap Label.message).length = 1

end PrintedLine

namespace ExcerptLine

/-- The message beside the row: the only one. -/
def beside (line : ExcerptLine) : Option String :=
  match line.messages with
  | [(_, _, message)] => some message
  | _ => none

/-- The messages on rows of their own, the last one first. There are none if
there is only one message. -/
def hung (line : ExcerptLine) : List (Nat × String) :=
  match line.messages with
  | [_] => []
  | messages =>
      messages.reverse.map fun (column, _, message) => (column - 1, message)

/-- A line as it is printed, with the labels it is about. -/
def printed (labels : List Label) (skips : Bool) (line : ExcerptLine) :
    PrintedLine :=
  ⟨skips, line.number, line.text, labels, (richRow line.row).plain, line.beside,
    line.hung⟩

theorem plain_bar (gutter : Nat) :
    (bar gutter).plain = PrintedLine.margin gutter := by
  rw [← String.toList_inj]
  simp [bar, PrintedLine.margin]

theorem plain_hanging (gutter : Nat) (message : Nat × Emphasis × String) :
    (hanging gutter message).plain
      = PrintedLine.hang gutter (message.1 - 1, message.2.2) := by
  rw [← String.toList_inj]
  simp [hanging, PrintedLine.hang, plain_bar]

theorem plain_flatMap_hanging (gutter : Nat)
    (messages : List (Nat × Emphasis × String)) :
    Rich.plain (messages.flatMap (hanging gutter))
      = String.join ((messages.map fun m => (m.1 - 1, m.2.2)).map
        (PrintedLine.hang gutter)) := by
  induction messages with
  | nil => rfl
  | cons m messages ih => simp [plain_hanging, ih]

theorem plain_dots (gutter : Nat) :
    (dots gutter).plain = blanks gutter ++ " ...\n" := by
  rw [← String.toList_inj]
  simp [dots]

/-- The row under a line with the messages that go with it. -/
theorem plain_richUnderlines (gutter : Nat) (labels : List Label) (skips : Bool)
    {line : ExcerptLine} (h : line.row ≠ []) :
    (line.richUnderlines gutter).plain
      = (line.printed labels skips).under gutter := by
  obtain ⟨cell, cells, hrow⟩ := List.exists_cons_of_ne_nil h
  rw [← String.toList_inj]
  simp only [printed, PrintedLine.under]
  rcases hmessages : line.messages with _ | ⟨m, _ | ⟨m', ms⟩⟩
  · simp [richUnderlines, beside, hung, hrow, hmessages, plain_bar]
  · simp [richUnderlines, beside, hung, hrow, hmessages, plain_bar]
  · simp [richUnderlines, beside, hung, hrow, hmessages, plain_bar,
      plain_hanging, plain_flatMap_hanging]

/-- A line with a row under it, and dots before it when lines are left out. -/
theorem plain_rich (gutter : Nat) (labels : List Label) (skips : Bool)
    {line : ExcerptLine} (h : line.row ≠ []) :
    Rich.plain ((if skips then dots gutter else []) ++ line.rich gutter)
      = (line.printed labels skips).write gutter := by
  rw [PrintedLine.write, ← plain_richUnderlines gutter labels skips h,
    ← String.toList_inj]
  cases skips <;> simp [rich, printed, plain_dots]

/-! ## What is on a line -/

theorem messages_printed (labels : List Label) (skips : Bool)
    (line : ExcerptLine) :
    (line.printed labels skips).messages.Perm
      (line.messages.map fun m => m.2.2) := by
  simp only [PrintedLine.messages, printed, beside, hung]
  rcases line.messages with _ | ⟨m, _ | ⟨m', ms⟩⟩
  · exact .refl _
  · exact .refl _
  · rw [Option.toList_none, List.nil_append, List.map_map, List.map_reverse]
    exact List.reverse_perm _

section Labels

variable {source : String} {labels : List Label}
  (hsize : source.utf8ByteSize < UInt32.size - 1) {line : ExcerptLine}
    (hline : line ∈ ofLabels source labels)
include hsize hline

theorem messages_perm :
    (line.messages.map fun m => m.2.2).Perm
      ((labelsOn source labels line.number).filterMap Label.message) := by
  obtain ⟨start, -, hunderlines, -⟩ := exists_start_of_mem hsize hline
  have hpainted : (line.messages.map fun m => m.2.2)
      = line.painted.filterMap Underline.message := by
    rw [messages, List.map_filterMap]
    refine List.filterMap_congr fun u _ => ?_
    cases u.message <;> rfl
  rw [hpainted]
  refine
    ((List.mergeSort_perm line.underlines paintedBefore).filterMap _).trans ?_
  rw [hunderlines, List.filterMap_map]
  exact .refl _

/-- Some column under the line is marked. -/
theorem exists_marked : ∃ (i : Nat) (emphasis : Emphasis),
      line.row[i]?.join = some emphasis := by
  obtain ⟨start, -, hunderlines, hlabels⟩ := exists_start_of_mem hsize hline
  obtain ⟨label, hlabel⟩ := List.exists_mem_of_ne_nil _ hlabels
  refine ⟨label.span.start - start, ?_⟩
  have hcovered : ∃ u ∈ line.underlines,
      Covers u (label.span.start - start + 1) := by
    rw [hunderlines]
    refine ⟨_, List.mem_map_of_mem hlabel, ?_⟩
    simp only [Covers, Label.underline]
    omega
  rw [join_row hsize hline, if_pos hcovered]
  split
  · exact ⟨_, rfl⟩
  · exact ⟨_, rfl⟩

theorem row_ne_nil : line.row ≠ [] := by
  obtain ⟨i, emphasis, hmarked⟩ := exists_marked hsize hline
  rintro hnil
  simp [hnil] at hmarked

theorem complete_printed (skips : Bool) :
    (line.printed (labelsOn source labels line.number) skips).Complete
      source where
  shows := by
    obtain ⟨start, hisLine, -⟩ := exists_start_of_mem hsize hline
    exact ⟨start, hisLine⟩
  holds label hlabel := (mem_labelsOn.mp hlabel).2.2
  labelled := by
    obtain ⟨start, -, -, hlabels⟩ := exists_start_of_mem hsize hline
    exact hlabels
  marked := by
    obtain ⟨i, emphasis, hmarked⟩ := exists_marked hsize hline
    have hglyph := getD_plain_richRow line.row i
    rw [hmarked] at hglyph
    have hne : emphasis.glyph ≠ ' ' := by cases emphasis <;> decide
    refine ⟨emphasis.glyph, ?_, hne⟩
    cases hat : (richRow line.row).plain.toList[i]? with
    | none =>
        rw [hat] at hglyph
        exact absurd hglyph.symm hne
    | some c =>
        rw [hat] at hglyph
        exact List.mem_of_getElem? (hat.trans (congrArg some hglyph))
  messages := (messages_printed _ skips line).trans (messages_perm hsize hline)
  beside_iff := by
    simp only [printed, beside]
    rw [← (messages_perm hsize hline).length_eq]
    rcases line.messages with _ | ⟨m, _ | ⟨m', ms⟩⟩ <;> simp

end Labels

/-! ## All lines -/

/-- The lines of an excerpt behind the line with the number `previous`. -/
def printedAfter (labels : Nat → List Label) (previous : Nat) :
    List ExcerptLine → List PrintedLine
  | [] => []
  | line :: rest =>
    line.printed (labels line.number) (previous + 1 < line.number)
      :: printedAfter labels line.number rest

theorem plain_richAfter (gutter : Nat) (labels : Nat → List Label)
    {lines : List ExcerptLine} (h : ∀ line ∈ lines, line.row ≠ [])
    (previous : Nat) :
    (richAfter gutter previous lines).plain
      = String.join ((printedAfter labels previous lines).map
        (PrintedLine.write gutter)) := by
  induction lines generalizing previous with
  | nil => rfl
  | cons line rest ih =>
      have hhere :=
        plain_rich gutter (labels line.number) (previous + 1 < line.number)
          (h line List.mem_cons_self)
      have hrest := ih (fun l hl => h l (List.mem_cons_of_mem line hl))
        line.number
      simp only [decide_eq_true_eq] at hhere
      rw [richAfter, Rich.plain_append, hhere, hrest, printedAfter,
        List.map_cons, String.join_cons]

theorem exists_of_mem_printedAfter {labels : Nat → List Label}
    {lines : List ExcerptLine} {previous : Nat} {p : PrintedLine}
    (h : p ∈ printedAfter labels previous lines) :
    ∃ line ∈ lines, ∃ skips, p = line.printed (labels line.number) skips := by
  induction lines generalizing previous with
  | nil => cases h
  | cons line rest ih =>
      rcases List.mem_cons.mp h with rfl | h
      · exact ⟨line, List.mem_cons_self, _, rfl⟩
      · obtain ⟨l, hl, hp⟩ := ih h
        exact ⟨l, List.mem_cons_of_mem line hl, hp⟩

theorem map_number_printedAfter (labels : Nat → List Label) (previous : Nat)
    (lines : List ExcerptLine) :
    (printedAfter labels previous lines).map PrintedLine.number
      = lines.map ExcerptLine.number := by
  induction lines generalizing previous with
  | nil => rfl
  | cons line rest ih =>
      rw [printedAfter, List.map_cons, ih, List.map_cons]
      rfl

theorem flatMap_labels_printedAfter (labels : Nat → List Label) (previous : Nat)
    (lines : List ExcerptLine) :
    (printedAfter labels previous lines).flatMap PrintedLine.labels
      = (lines.map ExcerptLine.number).flatMap labels := by
  induction lines generalizing previous with
  | nil => rfl
  | cons line rest ih =>
      rw [printedAfter, List.flatMap_cons, ih, List.map_cons, List.flatMap_cons]
      rfl

/-- The labels of all lines are those that start in the text. -/
theorem perm_flatMap_labelsOn {source : String}
    (hsize : source.utf8ByteSize < UInt32.size - 1) (labels : List Label) :
    (((ofLabels source labels).map ExcerptLine.number).flatMap
      (labelsOn source labels)).Perm
      (labels.filter fun l => l.span.start ≤ source.utf8ByteSize) := by
  have hincreasing := (grouped_ofLabels source labels).increasing
  have hkeys :
      ∀ label ∈ labels.filter fun l => l.span.start ≤ source.utf8ByteSize,
        lineNumber source label.span.start
          ∈ (ofLabels source labels).map ExcerptLine.number := by
    intro label hlabel
    obtain ⟨hmem, hin⟩ := List.mem_filter.mp hlabel
    obtain ⟨line, hline, hnumber⟩ :=
      exists_line_of_mem hsize hmem (of_decide_eq_true hin)
    exact hnumber ▸ List.mem_map_of_mem hline
  have hparts : labelsOn source labels = fun number =>
      (labels.filter fun l => l.span.start ≤ source.utf8ByteSize).filter
        fun l => lineNumber source l.span.start == number := by
    funext number
    rw [List.filter_filter, labelsOn]
    refine List.filter_congr fun l _ => ?_
    rw [Bool.decide_and, Bool.and_comm, beq_eq_decide]
  rw [hparts]
  exact perm_flatMap_filter (fun l : Label => lineNumber source l.span.start)
    (hincreasing.imp Nat.ne_of_lt) hkeys

end ExcerptLine

/-! ## The whole text -/

namespace Diagnostic

/-- Where the first label starts, as it is shown; nothing without labels. -/
def place (d : Diagnostic) (name source : String) : String :=
  match d.labels.head? with
  | none => ""
  | some label =>
    let spot := (LineIndex.ofText source).position label.span.start
    name ++ ":" ++ Nat.repr spot.line.toNat ++ ":" ++ Nat.repr spot.column.toNat

/-- What stands above the lines of an excerpt. -/
def heading (d : Diagnostic) (name source : String) (gutter : Nat) : String :=
  "  --> " ++ d.place name source ++ "\n" ++ PrintedLine.margin gutter ++ "\n"

def printedLines (d : Diagnostic) (source : String) : List PrintedLine :=
  match ofLabels source d.labels with
  | [] => []
  | line :: rest =>
      printedAfter (labelsOn source d.labels) line.number (line :: rest)

theorem plain_excerpt {source : String}
    (hsize : source.utf8ByteSize < UInt32.size - 1) (d : Diagnostic)
    (name : String) :
    (d.excerpt name source).plain
      = (if (d.printedLines source).isEmpty then ""
          else d.heading name source (gutterOf (ofLabels source d.labels)))
        ++ String.join ((d.printedLines source).map
          (PrintedLine.write (gutterOf (ofLabels source d.labels)))) := by
  cases hlines : ofLabels source d.labels with
  | nil =>
      have hnone : d.excerpt name source = [] := by
        rw [excerpt, hlines]
        cases d.labels.head? <;> rfl
      rw [hnone, printedLines, hlines]
      rfl
  | cons line rest =>
      have hrows : ∀ l ∈ line :: rest, l.row ≠ [] := fun l hl =>
        row_ne_nil hsize (hlines ▸ hl)
      obtain ⟨label, hlabel⟩ : ∃ label, d.labels.head? = some label := by
        cases hlabels : d.labels with
        | nil => simp [hlabels, ofLabels] at hlines
        | cons label labels => exact ⟨label, rfl⟩
      have hall : (richAll (gutterOf (line :: rest)) (line :: rest)).plain
          = String.join ((printedAfter (labelsOn source d.labels) line.number
            (line :: rest)).map
              (PrintedLine.write (gutterOf (line :: rest)))) := by
        rw [← plain_richAfter _ _ hrows, richAll, richAfter, if_neg (by omega),
          List.nil_append]
      have hexcerpt : (d.excerpt name source).plain
          = d.heading name source (gutterOf (line :: rest))
            ++ (richAll (gutterOf (line :: rest)) (line :: rest)).plain := by
        rw [← String.toList_inj]
        simp [excerpt, heading, place, pointer, hlines, hlabel, plain_bar]
      rw [hexcerpt, hall, printedLines, hlines]
      rfl

theorem exists_printedLines_eq (d : Diagnostic) (source : String) :
    ∃ previous, d.printedLines source
      = printedAfter (labelsOn source d.labels) previous
        (ofLabels source d.labels) := by
  rw [printedLines]
  split
  next hlines => exact ⟨0, by rw [hlines]; rfl⟩
  next line rest hlines => exact ⟨line.number, by rw [hlines]⟩

theorem increasing_printedLines (d : Diagnostic) (source : String) :
    ((d.printedLines source).map PrintedLine.number).Pairwise (· < ·) := by
  obtain ⟨previous, heq⟩ := exists_printedLines_eq d source
  rw [heq, map_number_printedAfter]
  exact (grouped_ofLabels source d.labels).increasing

section Complete

variable {source : String} (hsize : source.utf8ByteSize < UInt32.size - 1)
  (d : Diagnostic)
include hsize

theorem labels_printedLines :
    ((d.printedLines source).flatMap PrintedLine.labels).Perm
      (d.labels.filter fun l => l.span.start ≤ source.utf8ByteSize) := by
  obtain ⟨previous, heq⟩ := exists_printedLines_eq d source
  rw [heq, flatMap_labels_printedAfter]
  exact perm_flatMap_labelsOn hsize d.labels

theorem complete_of_mem_printedLines {p : PrintedLine}
    (hp : p ∈ d.printedLines source) :
    p.Complete source := by
  obtain ⟨previous, heq⟩ := exists_printedLines_eq d source
  rw [heq] at hp
  obtain ⟨line, hline, skips, rfl⟩ := exists_of_mem_printedAfter hp
  exact complete_printed hsize hline skips

end Complete

/-- **No label is lost in an excerpt** of a text of less than `2 ^ 32 - 1`
bytes. Between the header and the footer of a diagnostic stand printed lines,
which are lines of the source with increasing numbers and with a row of marks
under each (`PrintedLine.Complete`). The labels that start in the text are
divided among them, each being on the line that holds its start, and the
messages of these labels are what is printed under the lines, each as often as a
label has it. -/
theorem excerpt_complete {source : String}
    (hsize : source.utf8ByteSize < UInt32.size - 1) (d : Diagnostic)
    (name : String) :
    ∃ (gutter : Nat) (printed : List PrintedLine),
      (d.richIn name source).plain
          = d.header.plain
            ++ (if printed.isEmpty then "" else d.heading name source gutter)
            ++ String.join (printed.map (PrintedLine.write gutter))
            ++ d.footer.plain
        ∧ (printed.map PrintedLine.number).Pairwise (· < ·)
        ∧ (∀ p ∈ printed, p.Complete source)
        ∧ (printed.flatMap PrintedLine.labels).Perm
            (d.labels.filter fun l => l.span.start ≤ source.utf8ByteSize)
        ∧ (printed.flatMap PrintedLine.messages).Perm
            ((d.labels.filter fun l =>
              l.span.start ≤ source.utf8ByteSize).filterMap
              Label.message) := by
  have hcomplete : ∀ p ∈ d.printedLines source, p.Complete source := fun p hp =>
    complete_of_mem_printedLines hsize d hp
  have hlabels := labels_printedLines hsize d
  refine ⟨gutterOf (ofLabels source d.labels), d.printedLines source, ?_,
    increasing_printedLines d source, hcomplete, hlabels, ?_⟩
  · rw [richIn, Rich.plain_append, Rich.plain_append, plain_excerpt hsize,
      String.append_assoc, String.append_assoc, String.append_assoc,
      String.append_assoc]
  · refine (List.Perm.flatMap_left _ fun p hp =>
      (hcomplete p hp).messages).trans ?_
    rw [← List.filterMap_flatMap]
    exact hlabels.filterMap _

/-- Labels that are empty, go past the end, or end before they start, and one
that starts beyond the end of the text. -/
def mixed : Diagnostic :=
  ⟨.note, none, "m", none,
    [⟨⟨3, 3⟩, .primary, some "empty"⟩, ⟨⟨0, 9⟩, .secondary, some "long"⟩,
      ⟨⟨4, 1⟩, .secondary, some "reversed"⟩, ⟨⟨7, 8⟩, .primary, some "beyond"⟩],
      [], none⟩

/-- The lines of `mixed` in a text of two lines, with the messages of three of
its labels. -/
theorem excerpt_complete_mixed :
    ∃ (gutter : Nat) (printed : List PrintedLine),
      "note: m\n  --> a:2:1\n    |\n  1 | ab\n    | -- long\n"
            ++ "  2 | c\n    | ^-\n    |  | reversed\n    | | empty\n"
          = mixed.header.plain
            ++ (if printed.isEmpty then ""
              else mixed.heading "a" "ab\nc" gutter)
            ++ String.join (printed.map (PrintedLine.write gutter))
            ++ mixed.footer.plain
        ∧ (printed.flatMap PrintedLine.messages).Perm ["empty", "long",
          "reversed"] := by
  have hsize : "ab\nc".utf8ByteSize < UInt32.size - 1 := by decide
  obtain ⟨gutter, printed, htext, -, -, -, hmessages⟩ :=
    excerpt_complete hsize mixed "a"
  have hlines : ofLabels "ab\nc" mixed.labels
      = [⟨1, "ab", [⟨1, 3, .secondary, some "long"⟩]⟩,
        ⟨2, "c", [⟨1, 2, .primary, some "empty"⟩,
          ⟨2, 3, .secondary, some "reversed"⟩]⟩] := by
    decide
  have hfirst : painted ⟨1, "ab", [⟨1, 3, .secondary, some "long"⟩]⟩
      = [⟨1, 3, .secondary, some "long"⟩] :=
      List.mergeSort_of_pairwise (by decide)
  have hsecond : painted
        ⟨2, "c", [⟨1, 2, .primary, some "empty"⟩,
          ⟨2, 3, .secondary, some "reversed"⟩]⟩
      = [⟨1, 2, .primary, some "empty"⟩, ⟨2, 3, .secondary, some "reversed"⟩] :=
    List.mergeSort_of_pairwise (by decide)
  have hexcerpt : mixed.excerpt "a" "ab\nc"
      = pointer "a:2:1" ++ bar 2 ++ .raw "\n"
        ++ richAll 2 (ofLabels "ab\nc" mixed.labels) := by
    rw [excerpt, hlines]
    rfl
  refine ⟨gutter, printed, Eq.trans ?_ htext, hmessages⟩
  rw [richIn, hexcerpt, hlines, richAll, richAfter, richAfter]
  simp only [ExcerptLine.rich, richUnderlines, row, fullRow, messages,
    hfirst, hsecond]
  decide +kernel

end Diagnostic

end Exemplar
