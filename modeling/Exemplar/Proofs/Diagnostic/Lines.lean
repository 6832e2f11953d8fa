import Exemplar.Diagnostic.Excerpt
import Exemplar.Proofs.Text.Positions

/-!
# Labels by line

The lines of an excerpt are the lines of the source on which labels start, each
with the underlines of just these labels, in the order of the labels
(`exists_start_of_mem`).

Two arguments meet here. Collecting is about numbers only: inserting one entry
after the other leaves the entries grouped by their numbers, whatever else is in
them (`Grouped`). What the entry of a label is, is about the text: the line the
label starts on, and how far it is underlined there (`exists_ofLabel?`). That
needs positions which fit in 32 bits, so the text is bounded from there on.
-/

namespace Exemplar

/-- The number of the line that holds an offset: one more than the newlines in
front of it. -/
def lineNumber (source : String) (offset : Nat) : Nat :=
  1 + newlinesBefore source.toList offset

namespace ExcerptLine

/-! ## Collecting entries -/

/-- The lines have increasing numbers, and every line has the entries with its
number, in their order, and the text of one of them. -/
structure Grouped (entries : List (Nat × String × Underline))
    (lines : List ExcerptLine) :
    Prop where
  increasing : (lines.map ExcerptLine.number).Pairwise (· < ·)
  numbered : ∀ entry ∈ entries, entry.1 ∈ lines.map ExcerptLine.number
  underlines : ∀ line ∈ lines, line.underlines
    = (entries.filter fun e => e.1 = line.number).map fun e => e.2.2
  text : ∀ line ∈ lines, ∃ u, (line.number, line.text, u) ∈ entries

section Insert

variable {number : Nat} {text : String} {u : Underline}
  {lines : List ExcerptLine}

theorem mem_numbers_insert {n : Nat} :
    n ∈ (insert number text u lines).map ExcerptLine.number
      ↔ n = number ∨ n ∈ lines.map ExcerptLine.number := by
  induction lines with
  | nil => simp [insert]
  | cons line rest ih =>
      rw [insert]
      split
      next heq => simp [heq]
      next =>
        split
        · simp
        · rw [List.map_cons, List.mem_cons, ih, List.map_cons, List.mem_cons,
            or_left_comm]

theorem pairwise_insert (h : (lines.map ExcerptLine.number).Pairwise (· < ·)) :
    ((insert number text u lines).map ExcerptLine.number).Pairwise (· < ·) := by
  induction lines with
  | nil => simp [insert]
  | cons line rest ih =>
      have hcons := List.pairwise_cons.mp h
      rw [insert]
      split
      next => exact h
      next hne =>
        split
        next hlt =>
          refine List.pairwise_cons.mpr ⟨fun n hn => ?_, h⟩
          rcases List.mem_cons.mp hn with rfl | hn
          · exact hlt
          · exact Nat.lt_trans hlt (hcons.1 n hn)
        next hge =>
          refine List.pairwise_cons.mpr ⟨fun n hn => ?_, ih hcons.2⟩
          rcases mem_numbers_insert.mp hn with rfl | hn
          · omega
          · exact hcons.1 n hn

/-- A line after an insertion was there before, or has taken the underline, or
is opened for it. -/
theorem mem_insert_cases (h : (lines.map ExcerptLine.number).Pairwise (· < ·))
    {line : ExcerptLine} (hline : line ∈ insert number text u lines) :
    (line ∈ lines ∧ line.number ≠ number)
      ∨ (∃ old ∈ lines, old.number = number
        ∧ line = { old with underlines := old.underlines ++ [u] })
      ∨ (number ∉ lines.map ExcerptLine.number
        ∧ line = ⟨number, text, [u]⟩) := by
  induction lines with
  | nil => exact .inr (.inr ⟨List.not_mem_nil, List.mem_singleton.mp hline⟩)
  | cons old rest ih =>
      have hcons := List.pairwise_cons.mp h
      have hlater : ∀ l ∈ rest, old.number < l.number := fun l hl =>
        hcons.1 l.number (List.mem_map_of_mem hl)
      rw [insert] at hline
      split at hline
      next heq =>
        rcases List.mem_cons.mp hline with rfl | hl
        · exact .inr (.inl ⟨old, List.mem_cons_self, heq.symm, rfl⟩)
        · have := hlater line hl
          exact .inl ⟨List.mem_cons_of_mem old hl, by omega⟩
      next hne =>
        split at hline
        next hlt =>
          have hnew : number ∉ (old :: rest).map ExcerptLine.number := by
            rw [List.map_cons, List.mem_cons, not_or]
            exact ⟨hne, fun hmem => absurd (hcons.1 number hmem) (by omega)⟩
          rcases List.mem_cons.mp hline with rfl | hl
          · exact .inr (.inr ⟨hnew, rfl⟩)
          · exact .inl ⟨hl, fun heq => hnew (heq ▸ List.mem_map_of_mem hl)⟩
        next hge =>
          rcases List.mem_cons.mp hline with rfl | hl
          · exact .inl ⟨List.mem_cons_self, Ne.symm hne⟩
          · rcases ih hcons.2 hl with
                ⟨hl, hl'⟩ | ⟨l, hl, htaken⟩ | ⟨hnew, hopened⟩
            · exact .inl ⟨List.mem_cons_of_mem old hl, hl'⟩
            · exact .inr (.inl ⟨l, List.mem_cons_of_mem old hl, htaken⟩)
            · refine .inr (.inr ⟨?_, hopened⟩)
              rw [List.map_cons, List.mem_cons, not_or]
              exact ⟨hne, hnew⟩

/-- One more entry. -/
theorem Grouped.insert {entries : List (Nat × String × Underline)}
    (h : Grouped entries lines) :
    Grouped (entries ++ [(number, text, u)]) (insert number text u lines) where
  increasing := pairwise_insert h.increasing
  numbered entry hentry := by
    rw [mem_numbers_insert]
    rcases List.mem_append.mp hentry with hold | hnew
    · exact .inr (h.numbered entry hold)
    · rw [List.mem_singleton.mp hnew]
      exact .inl rfl
  underlines line hline := by
    rcases mem_insert_cases h.increasing hline with
        ⟨hl, hne⟩ | ⟨old, hl, rfl, rfl⟩ | ⟨hnew, rfl⟩
    · simp [h.underlines line hl, Ne.symm hne]
    · simp [h.underlines old hl]
    · have hnone : entries.filter (fun e => e.1 = number) = [] := by
        rw [List.filter_eq_nil_iff]
        intro entry hentry heq
        exact hnew (of_decide_eq_true heq ▸ h.numbered entry hentry)
      simp [hnone]
  text line hline := by
    rcases mem_insert_cases h.increasing hline with
        ⟨hl, -⟩ | ⟨old, hl, -, rfl⟩ | ⟨-, rfl⟩
    · obtain ⟨v, hv⟩ := h.text line hl
      exact ⟨v, List.mem_append_left _ hv⟩
    · obtain ⟨v, hv⟩ := h.text old hl
      exact ⟨v, List.mem_append_left _ hv⟩
    · exact ⟨u, List.mem_append_right _ List.mem_cons_self⟩

end Insert

/-- Several more entries, one after the other. -/
theorem Grouped.foldl_insert {entries : List (Nat × String × Underline)} :
    ∀ {more : List (Nat × String × Underline)} {lines : List ExcerptLine},
      Grouped more lines →
      Grouped (more ++ entries)
        (entries.foldl (fun lines (number, text, u) =>
          ExcerptLine.insert number text u lines)
          lines) := by
  induction entries with
  | nil => exact fun h => by simpa using h
  | cons entry entries ih =>
      intro more lines h
      obtain ⟨number, text, u⟩ := entry
      have hentry : Grouped (more ++ [(number, text, u)])
          (ExcerptLine.insert number text u lines) := h.insert
      have hrest := ih hentry
      rwa [List.append_assoc] at hrest

theorem grouped_ofLabels (source : String) (labels : List Label) :
    Grouped (labels.filterMap (ofLabel? source (LineIndex.ofText source)))
      (ofLabels source labels) := by
  have hnone : Grouped [] [] := ⟨.nil, by simp, by simp, by simp⟩
  exact hnone.foldl_insert

end ExcerptLine

/-! ## The entry of a label -/

/-- The offset up to which a label is underlined on its first line: the end of
its span when that is on the line, and the end of the line otherwise. -/
def Label.reach (source : String) (label : Label) (lineEnd : Nat) : Nat :=
  let stop := min label.span.stop source.utf8ByteSize
  if lineNumber source stop = lineNumber source label.span.start then stop
  else lineEnd

/-- Two positions are on one line when their offsets are. -/
theorem Position.Locates.line_eq_iff {text : String} {o o' : Nat}
    {p q : Position} (hp : p.Locates text o) (hq : q.Locates text o') :
    p.line = q.line ↔ lineNumber text o = lineNumber text o' := by
  rw [← UInt32.toNat_inj, hp.line, hq.line]
  rfl

open LineIndex

/-- The line of the source with this number, counted from one, starts at the
offset and reads as given. -/
structure IsLine (source : String) (number start : Nat) (text : String) :
    Prop where
  positive : 1 ≤ number
  starts : (ofText source).starts[number - 1]? = some start
  reads : (ofText source).lines[number - 1]? = some text

theorem IsLine.unique {source : String} {number start start' : Nat}
    {text text' : String} (h : IsLine source number start text)
    (h' : IsLine source number start' text') :
    start = start' ∧ text = text' :=
  ⟨Option.some.inj (h.starts.symm.trans h'.starts),
    Option.some.inj (h.reads.symm.trans h'.reads)⟩

/-- The underline of a label on its first line: as far as the label reaches,
and one column at least. -/
def Label.underline (source : String) (start : Nat) (text : String)
    (label : Label) : Underline :=
  let first := label.span.start - start + 1
  ⟨first, max (label.reach source (start + text.utf8ByteSize) - start + 1)
    (first + 1), label.emphasis, label.message⟩

namespace ExcerptLine

variable {source : String} {label : Label} {labels : List Label}

theorem ofLabel?_eq_none_iff {index : LineIndex} :
    ofLabel? source index label = none
      ↔ source.utf8ByteSize < label.span.start := by
  simp only [ofLabel?]
  split <;> simp [*]

/-- The entry of a label that starts in the text, and the bounds of its line. -/
theorem exists_ofLabel? (hsize : source.utf8ByteSize < UInt32.size - 1)
    (hin : label.span.start ≤ source.utf8ByteSize) :
    ∃ start text, IsLine source (lineNumber source label.span.start) start text
      ∧ ofLabel? source (ofText source) label
        = some (lineNumber source label.span.start, text,
          label.underline source start text)
      ∧ start ≤ label.span.start ∧ label.span.start ≤ start + text.utf8ByteSize
      ∧ label.reach source (start + text.utf8ByteSize)
        ≤ start + text.utf8ByteSize := by
  have hp := Position.locates_position hsize hin
  have hq := Position.locates_position hsize
    (Nat.min_le_right label.span.stop source.utf8ByteSize)
  obtain ⟨start, text, hstart, htext, hpositive, hoffset, hend⟩ := hp.column
  obtain ⟨start', text', hstart', htext', hpositive', hoffset', hend'⟩ :=
    hq.column
  have hsame := hq.line_eq_iff hp
  have hnumber : ((ofText source).position label.span.start).line.toNat
      = lineNumber source label.span.start := hp.line
  have hfirst : ((ofText source).position label.span.start).column.toNat
      = label.span.start - start + 1 := by omega
  have hreads : (ofText source).lines[lineNumber source label.span.start - 1]?
      = some text := by
    rw [line?] at htext
    split at htext
    · cases htext
    · rw [hnumber] at htext
      exact htext
  -- the column where the underline ends, as the offset that it reaches
  have hreach :
      (if ((ofText source).position
          (min label.span.stop source.utf8ByteSize)).line
          = ((ofText source).position label.span.start).line
        then ((ofText source).position
          (min label.span.stop source.utf8ByteSize)).column.toNat
        else text.utf8ByteSize + 1)
        = label.reach source (start + text.utf8ByteSize) - start + 1
        ∧ label.reach source (start + text.utf8ByteSize)
          ≤ start + text.utf8ByteSize := by
    simp only [Label.reach]
    split
    next hline =>
      rw [hline, hstart, Option.some.injEq] at hstart'
      rw [hline, htext, Option.some.injEq] at htext'
      subst hstart' htext'
      rw [if_pos (hsame.mp hline)]
      omega
    next hline =>
      rw [if_neg (mt hsame.mpr hline)]
      omega
  rw [hnumber] at hstart
  refine ⟨start, text, ⟨Nat.le_add_right 1 _, hstart, hreads⟩, ?_, by omega,
    by omega, hreach.2⟩
  simp only [ofLabel?, if_neg (Nat.not_lt.mpr hin), htext, Option.getD_some,
    hnumber, hreach.1, hfirst, Label.underline]

end ExcerptLine

/-! ## The lines of an excerpt -/

/-- The labels that start in the text, on the line with the given number. -/
def labelsOn (source : String) (labels : List Label) (number : Nat) :
    List Label :=
  labels.filter fun l =>
    l.span.start ≤ source.utf8ByteSize ∧ lineNumber source l.span.start = number

theorem mem_labelsOn {source : String} {labels : List Label} {number : Nat}
    {label : Label} :
    label ∈ labelsOn source labels number ↔ label ∈ labels
      ∧ label.span.start ≤ source.utf8ByteSize
      ∧ lineNumber source label.span.start = number := by
  simp [labelsOn]

theorem labelsOn_cons (source : String) (label : Label) (labels : List Label)
    (number : Nat) :
    labelsOn source (label :: labels) number
      = if label.span.start ≤ source.utf8ByteSize
        ∧ lineNumber source label.span.start = number
        then label :: labelsOn source labels number
          else labelsOn source labels number := by
  simp [labelsOn, List.filter_cons]

namespace ExcerptLine

variable {source : String} {labels : List Label}

/-- A label that starts on a line starts and ends within it. -/
theorem within_of_isLine (hsize : source.utf8ByteSize < UInt32.size - 1)
    {label : Label} {number start : Nat} {text : String}
    (hline : IsLine source number start text)
    (hlabel : label ∈ labelsOn source labels number) :
    start ≤ label.span.start ∧ label.span.start ≤ start + text.utf8ByteSize
      ∧ label.reach source (start + text.utf8ByteSize)
        ≤ start + text.utf8ByteSize := by
  obtain ⟨-, hin, rfl⟩ := mem_labelsOn.mp hlabel
  obtain ⟨start', text', hline', -, hwithin⟩ := exists_ofLabel? hsize hin
  obtain ⟨rfl, rfl⟩ := hline.unique hline'
  exact hwithin

/-- The entries with one number are those of the labels on that line. -/
theorem underlines_of_entries (hsize : source.utf8ByteSize < UInt32.size - 1)
    {number start : Nat} {text : String}
    (hline : IsLine source number start text) :
    (((labels.filterMap (ofLabel? source (ofText source))).filter fun e =>
      e.1 = number).map
        fun e => e.2.2)
      = (labelsOn source labels number).map
        (Label.underline source start text) := by
  induction labels with
  | nil => rfl
  | cons label labels ih =>
      rw [labelsOn_cons]
      by_cases hin : label.span.start ≤ source.utf8ByteSize
      · obtain ⟨start', text', hline', hentry, -⟩ := exists_ofLabel? hsize hin
        rw [List.filterMap_cons_some hentry]
        by_cases hnumber : lineNumber source label.span.start = number
        · rw [hnumber] at hline'
          obtain ⟨rfl, rfl⟩ := hline.unique hline'
          rw [List.filter_cons_of_pos (by simp [hnumber]), List.map_cons, ih,
            if_pos ⟨hin, hnumber⟩, List.map_cons]
        · rw [List.filter_cons_of_neg (by simp [hnumber]), ih,
            if_neg fun h => hnumber h.2]
      · rw [List.filterMap_cons_none (ofLabel?_eq_none_iff.mpr (by omega)), ih,
          if_neg fun h => hin h.1]

/-- A line of an excerpt is the line of the source with its number, and has the
underlines of the labels that start on it, of which there are some. -/
theorem exists_start_of_mem (hsize : source.utf8ByteSize < UInt32.size - 1)
    {line : ExcerptLine} (hline : line ∈ ofLabels source labels) :
    ∃ start, IsLine source line.number start line.text
      ∧ line.underlines
        = (labelsOn source labels line.number).map
          (Label.underline source start line.text)
      ∧ labelsOn source labels line.number ≠ [] := by
  have hgrouped := grouped_ofLabels source labels
  obtain ⟨u, hu⟩ := hgrouped.text line hline
  obtain ⟨label, hlabel, hentry⟩ := List.mem_filterMap.mp hu
  have hin : label.span.start ≤ source.utf8ByteSize := by
    refine Nat.not_lt.mp fun hout => ?_
    rw [ofLabel?_eq_none_iff.mpr hout] at hentry
    cases hentry
  obtain ⟨start, text, hisLine, hentry', -⟩ := exists_ofLabel? hsize hin
  rw [hentry', Option.some.injEq, Prod.mk.injEq, Prod.mk.injEq] at hentry
  obtain ⟨hnumber, rfl, -⟩ := hentry
  rw [hnumber] at hisLine
  refine ⟨start, hisLine, ?_,
    List.ne_nil_of_mem (mem_labelsOn.mpr ⟨hlabel, hin, hnumber⟩)⟩
  rw [hgrouped.underlines line hline, underlines_of_entries hsize hisLine]

/-- Every label that starts in the text has its line. -/
theorem exists_line_of_mem (hsize : source.utf8ByteSize < UInt32.size - 1)
    {label : Label} (hlabel : label ∈ labels)
    (hin : label.span.start ≤ source.utf8ByteSize) :
    ∃ line ∈ ofLabels source labels,
      line.number = lineNumber source label.span.start := by
  obtain ⟨start, text, -, hentry, -⟩ := exists_ofLabel? hsize hin
  exact List.mem_map.mp ((grouped_ofLabels source labels).numbered _
    (List.mem_filterMap.mpr ⟨label, hlabel, hentry⟩))

end ExcerptLine

end Exemplar
