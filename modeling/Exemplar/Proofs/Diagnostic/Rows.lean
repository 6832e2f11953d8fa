import Exemplar.Proofs.Diagnostic.Lines

/-!
# Rows of marks

What is seen in each column under a line of an excerpt (`glyph_exact`): the mark
of a secondary label wherever one reaches, the mark of a primary label
everywhere else where one reaches, and a blank in all other columns.

Painting is one underline over the other, so the last one to cover a column is
seen there (`seen`). The order in which they are painted has the primary ones
first, and then "the last one" is "a secondary one, if any"
(`seen_of_primaryFirst`). Cutting blanks off the end of the row, and cutting the
row into runs, change nothing in any column.
-/

namespace Exemplar

/-- The label marks the column of the line, both counted from one: it starts on
this line, and the byte in the column is the one it starts at, or lies behind it
and before the end of the span or of the line. -/
def Label.Marks (source : String) (label : Label) (number column : Nat) :
    Prop :=
  label.span.start ≤ source.utf8ByteSize
    ∧ lineNumber source label.span.start = number
    ∧ ∃ start text, IsLine source number start text
      ∧ (start + column - 1 = label.span.start
        ∨ label.span.start < start + column - 1
          ∧ start + column - 1 < label.reach source (start + text.utf8ByteSize))

theorem Label.marks_iff {source text : String} {label : Label}
    {number start column : Nat} (hline : IsLine source number start text) :
    label.Marks source number column
      ↔ label.span.start ≤ source.utf8ByteSize
        ∧ lineNumber source label.span.start = number
        ∧ (start + column - 1 = label.span.start
          ∨ label.span.start < start + column - 1
            ∧ start + column - 1
              < label.reach source (start + text.utf8ByteSize)) := by
  constructor
  · rintro ⟨hin, hnumber, start', text', hline', hmark⟩
    obtain ⟨rfl, rfl⟩ := hline.unique hline'
    exact ⟨hin, hnumber, hmark⟩
  · rintro ⟨hin, hnumber, hmark⟩
    exact ⟨hin, hnumber, start, text, hline, hmark⟩

namespace ExcerptLine

/-! ## Painting -/

def Covers (u : Underline) (column : Nat) : Prop :=
  u.first ≤ column ∧ column < u.past

instance (u : Underline) (column : Nat) : Decidable (Covers u column) :=
  inferInstanceAs (Decidable (u.first ≤ column ∧ column < u.past))

/-- What is seen in a column once the underlines are painted over what was
there, one after the other. -/
def seen (column : Nat) (us : List Underline) (cell : Option Emphasis) :
    Option Emphasis :=
  us.foldl (fun cell u => if Covers u column then some u.emphasis else cell)
    cell

theorem getElem?_paint (u : Underline) (column : Nat) (row : Row) (i : Nat) :
    (paint u column row)[i]?
      = row[i]?.map fun cell =>
      if Covers u (column + i) then some u.emphasis else cell := by
  induction row generalizing column i with
  | nil => simp [paint]
  | cons cell cells ih =>
      cases i with
      | zero => rfl
      | succ i => simp [paint, ih, Nat.add_assoc, Nat.add_comm 1 i]

theorem getElem?_foldl_paint (us : List Underline) (row : Row) (i : Nat) :
    (us.foldl (fun row u => paint u 1 row) row)[i]?
      = row[i]?.map (seen (i + 1) us) := by
  induction us generalizing row with
  | nil => exact (Option.map_id' (x := row[i]?)).symm
  | cons u us ih =>
      rw [List.foldl_cons, ih, getElem?_paint, Option.map_map, Nat.add_comm 1 i]
      rfl

/-- A secondary underline is followed by secondary ones only. -/
abbrev PrimaryFirst (us : List Underline) : Prop :=
  us.Pairwise fun a b => a.emphasis = .secondary → b.emphasis = .secondary

/-- With the primary underlines first, a secondary one is seen wherever one
covers the column. -/
theorem seen_of_primaryFirst {us : List Underline} (h : PrimaryFirst us)
    (column : Nat) (cell : Option Emphasis) :
    seen column us cell
      = if ∃ u ∈ us, u.emphasis = .secondary
        ∧ Covers u column then some .secondary
        else if ∃ u ∈ us, Covers u column then some .primary
        else cell := by
  induction us generalizing cell with
  | nil => simp [seen]
  | cons u us ih =>
      obtain ⟨hlater, hrest⟩ := List.pairwise_cons.mp h
      have hstep : seen column (u :: us) cell
          = seen column us (if Covers u column then some u.emphasis
            else cell) := rfl
      rw [hstep, ih hrest]
      by_cases hcovers : Covers u column
      · cases hu : u.emphasis with
        | primary => simp [hcovers, hu]
        | secondary =>
            -- whatever covers the column later is secondary as well
            have hsecondary : ∀ v ∈ us, v.emphasis = .secondary :=
              fun v hv => hlater v hv hu
            by_cases hagain : ∃ v ∈ us, Covers v column
            · obtain ⟨v, hv, hcv⟩ := hagain
              rw [if_pos ⟨v, hv, hsecondary v hv, hcv⟩,
                if_pos ⟨u, List.mem_cons_self, hu, hcovers⟩]
            · have hnone : ¬∃ v ∈ us, v.emphasis = .secondary
                  ∧ Covers v column :=
                fun ⟨v, hv, _, hcv⟩ => hagain ⟨v, hv, hcv⟩
              rw [if_neg hnone, if_neg hagain, if_pos hcovers,
                if_pos ⟨u, List.mem_cons_self, hu, hcovers⟩]
      · simp [hcovers]

theorem paintedBefore_trans (a b c : Underline) (hab : paintedBefore a b = true)
    (hbc : paintedBefore b c = true) : paintedBefore a c = true := by
  unfold paintedBefore at *
  cases ha : a.emphasis <;> cases hb : b.emphasis <;> cases hc : c.emphasis <;>
    simp only [ha, hb, hc, decide_eq_true_eq, reduceCtorEq] at * <;> omega

theorem paintedBefore_total (a b : Underline) :
    (paintedBefore a b || paintedBefore b a) = true := by
  unfold paintedBefore
  cases ha : a.emphasis <;> cases hb : b.emphasis <;> simp [Nat.le_total]

theorem primaryFirst_painted (line : ExcerptLine) :
    PrimaryFirst line.painted := by
  have hsorted : line.painted.Pairwise fun a b => paintedBefore a b = true :=
    List.pairwise_mergeSort paintedBefore_trans paintedBefore_total
      line.underlines
  refine hsorted.imp fun {a b} hab ha => ?_
  cases hb : b.emphasis with
  | primary => simp [paintedBefore, ha, hb] at hab
  | secondary => rfl

theorem mem_painted {line : ExcerptLine} {u : Underline} :
    u ∈ line.painted ↔ u ∈ line.underlines :=
  (List.mergeSort_perm line.underlines paintedBefore).mem_iff

/-! ## The row as a text -/

def mark : Option Emphasis → Char
  | none => ' '
  | some emphasis => emphasis.glyph

/-- Cutting blanks off the end changes no column. -/
theorem join_getElem?_trimmed (row : Row) (i : Nat) :
    (row.reverse.dropWhile Option.isNone).reverse[i]?.join = row[i]?.join := by
  suffices h : ∀ cells : Row, (cells.dropWhile Option.isNone).reverse[i]?.join
      = cells.reverse[i]?.join by
    simpa using h row.reverse
  intro cells
  induction cells with
  | nil => rfl
  | cons cell cells ih =>
      cases cell with
      | some emphasis => rfl
      | none =>
          rw [List.dropWhile_cons_of_pos rfl, ih, List.reverse_cons,
            List.getElem?_append]
          split
          · rfl
          next hpast =>
            rw [List.getElem?_eq_none (by omega)]
            cases i - cells.reverse.length <;> rfl

/-- The runs are the row. -/
theorem flatMap_runs (cells : Row) :
    ((runs cells).flatMap fun r => List.replicate r.2 r.1) = cells := by
  induction cells with
  | nil => rfl
  | cons cell cells ih =>
      rw [runs]
      split
      next m n rest hruns =>
        rw [hruns, List.flatMap_cons] at ih
        split
        next heq =>
          subst heq
          rw [List.flatMap_cons, List.replicate_succ, List.cons_append, ih]
        next => rw [List.flatMap_cons, List.flatMap_cons, ih]; rfl
      next hruns =>
        rw [hruns] at ih
        rw [← ih]
        rfl

theorem toList_plain_richRow (cells : Row) :
    (richRow cells).plain.toList = cells.map mark := by
  have hrun : ∀ r : Option Emphasis × Nat,
      (richRun r).plain.toList = (List.replicate r.2 r.1).map mark := by
    rintro ⟨_ | emphasis, n⟩ <;> simp [richRun, Piece.plain, mark]
  calc (richRow cells).plain.toList
      = (runs cells).flatMap fun r => (richRun r).plain.toList := by
        simp [richRow, Rich.plain, List.flatMap_map]
    _ = ((runs cells).flatMap fun r => List.replicate r.2 r.1).map mark := by
        simp only [hrun, List.map_flatMap]
    _ = cells.map mark := by rw [flatMap_runs]

/-- The text of a row, column by column. -/
theorem getD_plain_richRow (cells : Row) (i : Nat) :
    ((richRow cells).plain.toList[i]?).getD ' ' = mark cells[i]?.join := by
  rw [toList_plain_richRow, List.getElem?_map]
  rcases cells[i]? with _ | _ | emphasis <;> rfl

/-! ## Marks of labels -/

section Labels

variable {source : String} {labels : List Label}
  (hsize : source.utf8ByteSize < UInt32.size - 1)
include hsize

/-- The underline of a label covers the columns that the label marks. -/
theorem covers_underline_iff {label : Label} {number start column : Nat}
    {text : String} (hline : IsLine source number start text)
    (hlabel : label ∈ labelsOn source labels number) (hcolumn : 0 < column) :
    Covers (label.underline source start text) column
      ↔ label.Marks source number column := by
  obtain ⟨hlow, -, -⟩ := within_of_isLine hsize hline hlabel
  obtain ⟨-, hin, hnumber⟩ := mem_labelsOn.mp hlabel
  rw [Label.marks_iff hline]
  simp only [Covers, Label.underline]
  omega

/-- The columns under a line that some underline covers are in its row. -/
theorem le_of_covers {line : ExcerptLine}
    (hline : line ∈ ofLabels source labels) {u : Underline}
    (hu : u ∈ line.underlines) {column : Nat} (hcovers : Covers u column) :
    column ≤ line.text.utf8ByteSize + 1 := by
  obtain ⟨start, hisLine, hunderlines, -⟩ := exists_start_of_mem hsize hline
  rw [hunderlines] at hu
  obtain ⟨label, hlabel, rfl⟩ := List.mem_map.mp hu
  obtain ⟨hlow, hhigh, hreach⟩ := within_of_isLine hsize hisLine hlabel
  simp only [Covers, Label.underline] at hcovers
  omega

/-- Some underline with a property of emphases covers a column exactly when some
label with that property marks it. -/
theorem exists_covers_iff {line : ExcerptLine}
    (hline : line ∈ ofLabels source labels) (p : Emphasis → Prop) {column : Nat}
    (hcolumn : 0 < column) :
    (∃ u ∈ line.underlines, p u.emphasis ∧ Covers u column)
      ↔ ∃ label ∈ labels, p label.emphasis
        ∧ label.Marks source line.number column := by
  obtain ⟨start, hisLine, hunderlines, -⟩ := exists_start_of_mem hsize hline
  rw [hunderlines]
  constructor
  · rintro ⟨u, hu, hp, hcovers⟩
    obtain ⟨label, hlabel, rfl⟩ := List.mem_map.mp hu
    exact ⟨label, (mem_labelsOn.mp hlabel).1, hp,
      (covers_underline_iff hsize hisLine hlabel hcolumn).mp hcovers⟩
  · rintro ⟨label, hlabel, hp, hmarks⟩
    have hon := mem_labelsOn.mpr ⟨hlabel, hmarks.1, hmarks.2.1⟩
    exact ⟨_, List.mem_map_of_mem hon, hp,
      (covers_underline_iff hsize hisLine hon hcolumn).mpr hmarks⟩

/-- What the row has in a column. -/
theorem join_row {line : ExcerptLine} (hline : line ∈ ofLabels source labels)
    (i : Nat) :
    line.row[i]?.join
      = if ∃ u ∈ line.underlines, u.emphasis = .secondary
        ∧ Covers u (i + 1) then some .secondary
        else if ∃ u ∈ line.underlines, Covers u (i + 1) then some .primary
        else none := by
  have hseen := seen_of_primaryFirst (primaryFirst_painted line) (i + 1) none
  simp only [mem_painted] at hseen
  rw [row, join_getElem?_trimmed, fullRow, getElem?_foldl_paint,
    List.getElem?_replicate]
  split
  · exact hseen
  next hpast =>
    have hnone : ¬∃ u ∈ line.underlines, Covers u (i + 1) := by
      rintro ⟨u, hu, hcovers⟩
      have := le_of_covers hsize hline hu hcovers
      omega
    rw [if_neg fun ⟨u, hu, _, hcovers⟩ => hnone ⟨u, hu, hcovers⟩, if_neg hnone]
    rfl

end Labels

/-- The character in a column of a row as it is shown; rows end before the
blanks at their end. -/
def glyphAt (row : Row) (column : Nat) : Char :=
  ((richRow row).plain.toList[column - 1]?).getD ' '

theorem glyphAt_eq (row : Row) (column : Nat) :
    glyphAt row column = mark row[column - 1]?.join :=
  getD_plain_richRow row (column - 1)

/-- **The row of marks, column by column**, in a text of less than `2 ^ 32 - 1`
bytes: `-` wherever a secondary label marks the line, `^` wherever only primary
labels do, and blanks in all other columns. So every primary label is seen in
full where no secondary label of its line marks the same columns. -/
theorem glyph_exact {source : String} {labels : List Label}
    (hsize : source.utf8ByteSize < UInt32.size - 1) {line : ExcerptLine}
    (hline : line ∈ ofLabels source labels) {column : Nat}
    (hcolumn : 0 < column) :
    ((∃ label ∈ labels, label.emphasis = .secondary
      ∧ label.Marks source line.number column) →
        glyphAt line.row column = '-')
      ∧ ((∃ label ∈ labels, label.emphasis = .primary
        ∧ label.Marks source line.number column) →
        (¬∃ label ∈ labels, label.emphasis = .secondary
          ∧ label.Marks source line.number column) →
        glyphAt line.row column = '^')
      ∧ ((¬∃ label ∈ labels, label.Marks source line.number column) →
        glyphAt line.row column = ' ') := by
  have hsecondary := exists_covers_iff hsize hline (· = .secondary) hcolumn
  have hprimary := exists_covers_iff hsize hline (· = .primary) hcolumn
  have hany := exists_covers_iff hsize hline (fun _ => True) hcolumn
  simp only [true_and] at hany
  have hcell := join_row hsize hline (column - 1)
  rw [Nat.sub_add_cancel hcolumn] at hcell
  rw [glyphAt_eq, hcell]
  refine ⟨fun h => ?_, fun h hno => ?_, fun hno => ?_⟩
  · rw [if_pos (hsecondary.mpr h)]
    rfl
  · obtain ⟨u, hu, -, hcovers⟩ := hprimary.mpr h
    rw [if_neg (mt hsecondary.mp hno), if_pos ⟨u, hu, hcovers⟩]
    rfl
  · have hnone := mt hany.mp hno
    rw [if_neg fun ⟨u, hu, _, hcovers⟩ => hnone ⟨u, hu, hcovers⟩, if_neg hnone]
    rfl

/-- Under a call, with a secondary label of what is called and a primary one of
an argument: both are seen, with blanks between them. -/
theorem glyph_exact_call :
    ∃ line ∈ ofLabels "Add(a, b)" [⟨⟨7, 8⟩, .primary, none⟩,
      ⟨⟨0, 3⟩, .secondary, none⟩],
      glyphAt line.row 3 = '-' ∧ glyphAt line.row 8 = '^'
        ∧ glyphAt line.row 4 = ' ' := by
  have hisLine : IsLine "Add(a, b)" 1 0 "Add(a, b)" :=
    ⟨by decide, by decide, by decide⟩
  have hsize : "Add(a, b)".utf8ByteSize < UInt32.size - 1 := by decide
  have hline :
      (⟨1, "Add(a, b)", [⟨8, 9, .primary, none⟩, ⟨1, 4, .secondary, none⟩]⟩ :
        ExcerptLine) ∈ ofLabels "Add(a, b)" [⟨⟨7, 8⟩, .primary, none⟩,
          ⟨⟨0, 3⟩, .secondary, none⟩] := by decide
  refine ⟨_, hline, ?_, ?_, ?_⟩
  · refine (glyph_exact hsize hline (by decide)).1 ?_
    simp only [Label.marks_iff hisLine]
    decide
  · refine (glyph_exact hsize hline (by decide)).2.1 ?_ ?_
    all_goals
      simp only [Label.marks_iff hisLine]
      decide
  · refine (glyph_exact hsize hline (by decide)).2.2 ?_
    simp only [Label.marks_iff hisLine]
    decide

/-- An assignment to the variable of a loop, on one line. -/
def loopText : String := "for i in 1\x7bset i=2;\x7d"

/-- The labels of its error. That of the loop reaches over the assignment. -/
def loopLabels : List Label :=
  [⟨⟨11, 19⟩, .primary, some "assigned here"⟩,
    ⟨⟨0, 20⟩, .secondary, some "bound with `let`"⟩]

/-- A primary label that lies in the text, and is not seen in a column that it
marks. -/
theorem exists_hidden_primary :
    (∀ label ∈ loopLabels, label.span.start ≤ label.span.stop
        ∧ label.span.stop ≤ loopText.utf8ByteSize)
      ∧ ∃ line ∈ ofLabels loopText loopLabels, ∃ label ∈ loopLabels,
        label.emphasis = .primary ∧ label.Marks loopText line.number 12
          ∧ glyphAt line.row 12 = '-' := by
  have hisLine : IsLine loopText 1 0 loopText :=
    ⟨by decide, by decide, by decide⟩
  have hline : (⟨1, loopText, [⟨12, 20, .primary, some "assigned here"⟩,
      ⟨1, 21, .secondary, some "bound with `let`"⟩]⟩ : ExcerptLine)
      ∈ ofLabels loopText loopLabels := by decide
  refine ⟨by decide, _, hline, _, List.mem_cons_self, rfl, ?_, ?_⟩
  · rw [Label.marks_iff hisLine]
    decide
  · rw [glyphAt_eq, join_row (by decide) hline, if_pos (by decide)]
    rfl

end ExcerptLine

end Exemplar
