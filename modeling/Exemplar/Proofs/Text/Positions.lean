import Exemplar.Proofs.Token.Coverage
import Exemplar.Proofs.Token.Words
import Exemplar.Text.LineIndex

/-!
# Lines and columns invert offsets

A position tells its offset: the start of the line and the column give it
back, so positions are as many as offsets and in their order
(`position_inverts`). The newline that ends a line is still on it, one column
behind its text, and so is the end of the whole text. The text of a line is the
slice from its start to the byte before the next one (`line?_eq_some_iff`).

Everything here goes line by line (`Chars.line_induction`): a text is one line,
or a line, its newline, and a text. That the numbers fit in 32 bits is needed
at the end only; until then lines are counted from zero and without bound
(`OnLine`).
-/

namespace Exemplar

/-! ## Texts line by line -/

/-- A text is one line, or a line with its newline in front of a text. -/
theorem Chars.line_induction {P : List Char → Prop}
    (last : ∀ line, '\n' ∉ line → P line)
    (line : ∀ line rest, '\n' ∉ line → P rest → P (line ++ '\n' :: rest))
    (cs : List Char) :
    P cs := by
  suffices h : ∀ begun, '\n' ∉ begun →
    P (begun ++ cs) from h [] List.not_mem_nil
  induction cs with
  | nil => exact fun begun hbegun => by simpa using last begun hbegun
  | cons c cs ih =>
      intro begun hbegun
      by_cases hc : c = '\n'
      · subst hc
        exact line begun cs hbegun (ih [] List.not_mem_nil)
      · have hmore : '\n' ∉ begun ++ [c] := by simpa [hbegun] using Ne.symm hc
        simpa using ih (begun ++ [c]) hmore

/-- The newlines that start before the byte offset. -/
def newlinesBefore : List Char → Nat → Nat
  | [], _ => 0
  | c :: cs, offset =>
    if offset = 0 then 0
    else (if c = '\n' then 1 else 0) + newlinesBefore cs (offset - c.utf8Size)

@[simp] theorem newlinesBefore_zero (cs : List Char) :
    newlinesBefore cs 0 = 0 := by
  cases cs <;> rfl

theorem newlinesBefore_mono (cs : List Char) : ∀ {o o' : Nat}, o ≤ o' →
    newlinesBefore cs o ≤ newlinesBefore cs o' := by
  induction cs with
  | nil => exact fun _ => Nat.le_refl _
  | cons c cs ih =>
      intro o o' h
      by_cases ho : o = 0
      · rw [ho, newlinesBefore_zero]
        exact Nat.zero_le _
      · have ho' : o' ≠ 0 := by omega
        simp only [newlinesBefore, if_neg ho, if_neg ho']
        exact Nat.add_le_add_left (ih (Nat.sub_le_sub_right h _)) _

/-- A line has none, and then it is up to the rest. -/
theorem newlinesBefore_append {line : List Char} (hline : '\n' ∉ line)
    (rest : List Char) :
    ∀ offset, newlinesBefore (line ++ rest) offset
      = newlinesBefore rest (offset - Chars.byteLength line) := by
  induction line with
  | nil => exact fun offset => rfl
  | cons c line ih =>
      intro offset
      rw [List.mem_cons, not_or] at hline
      by_cases ho : offset = 0
      · rw [ho, Nat.zero_sub, newlinesBefore_zero, newlinesBefore_zero]
      · rw [List.cons_append, newlinesBefore, if_neg ho,
          if_neg (Ne.symm hline.1), Nat.zero_add, ih hline.2,
          Chars.byteLength_cons, Nat.sub_sub]

/-! ## Lines of a text -/

namespace LineIndex

theorem lines_of_not_mem {cs : List Char} (h : '\n' ∉ cs) :
    (Chars.splitOn '\n' cs).map String.ofList = [String.ofList cs] := by
  rw [Chars.splitOn_of_not_mem h, List.map_singleton]

theorem lines_append {line : List Char} (h : '\n' ∉ line) (rest : List Char) :
    (Chars.splitOn '\n' (line ++ '\n' :: rest)).map String.ofList
      = String.ofList line :: (Chars.splitOn '\n' rest).map String.ofList := by
  rw [Chars.splitOn_append h, List.map_cons]

/-- The lines with newlines between them are the text. -/
theorem intercalate_lines (text : String) :
    "\n".intercalate (ofText text).lines = text := by
  have hpieces : (ofText text).lines.map String.toList
      = Chars.splitOn '\n' text.toList := by
    rw [ofText, List.map_map]
    exact (List.map_congr_left fun p _ => String.toList_ofList).trans
      (List.map_id _)
  rw [← String.toList_inj, String.toList_intercalate, hpieces]
  exact Chars.intercalate_splitOn '\n' text.toList

theorem length_lines_le (cs : List Char) :
    (Chars.splitOn '\n' cs).length ≤ Chars.byteLength cs + 1 := by
  induction cs using Chars.line_induction with
  | last line hline => simp [Chars.splitOn_of_not_mem hline]
  | line line rest hline ih =>
      have hnewline : '\n'.utf8Size = 1 := rfl
      rw [Chars.splitOn_append hline, List.length_cons, Chars.byteLength_append,
        Chars.byteLength_cons]
      omega

/-! ## Lines as slices -/

@[simp] theorem length_startsFrom (base : Nat) (lines : List String) :
    (startsFrom base lines).length = lines.length := by
  induction lines generalizing base with
  | nil => rfl
  | cons line lines ih =>
      rw [startsFrom, List.length_cons, ih, List.length_cons]

/-- In a text that starts at `base`, a line is cut out from its start to the
newline in front of the next start, or to the end of the text. -/
theorem exists_split_of_line (cs : List Char) :
    ∀ {base k : Nat} {line : String},
    ((Chars.splitOn '\n' cs).map String.ofList)[k]? = some line →
      let starts := startsFrom base ((Chars.splitOn '\n' cs).map String.ofList)
      ∃ before after, cs = before ++ line.toList ++ after
        ∧ starts[k]? = some (base + Chars.byteLength before)
        ∧ starts[k + 1]?.elim (base + Chars.byteLength cs) (· - 1)
          = base + Chars.byteLength (before ++ line.toList) := by
  induction cs using Chars.line_induction with
  | last text htext =>
      intro base k line h
      rw [lines_of_not_mem htext] at h ⊢
      cases k with
      | zero =>
          obtain rfl := Option.some.inj h
          exact ⟨[], [], by simp, rfl, by simp [startsFrom]⟩
      | succ k => cases h
  | line text rest htext ih =>
      intro base k line h
      have hnewline : '\n'.utf8Size = 1 := rfl
      rw [lines_append htext] at h ⊢
      cases k with
      | zero =>
          obtain rfl := Option.some.inj h
          obtain ⟨p, ps, hcons⟩ :=
            List.exists_cons_of_ne_nil (Chars.splitOn_ne_nil '\n' rest)
          refine ⟨[], '\n' :: rest, by simp, rfl, ?_⟩
          simp [hcons, startsFrom, Chars.utf8ByteSize_ofList]
      | succ k =>
          obtain ⟨before, after, hcs, hstart, hstop⟩ :=
            @ih (base + (String.ofList text).utf8ByteSize + 1) k line h
          rw [Chars.utf8ByteSize_ofList] at hstart hstop
          refine ⟨text ++ '\n' :: before, after, by rw [hcs]; simp, ?_, ?_⟩
          · rw [startsFrom, Chars.utf8ByteSize_ofList, List.getElem?_cons_succ,
              hstart, Chars.byteLength_append, Chars.byteLength_cons, hnewline]
            exact congrArg some (by omega)
          · rw [startsFrom, Chars.utf8ByteSize_ofList, List.getElem?_cons_succ]
            have hlength : base + Chars.byteLength (text ++ '\n' :: rest)
                = base + Chars.byteLength text + 1 + Chars.byteLength rest := by
              rw [Chars.byteLength_append, Chars.byteLength_cons, hnewline]
              omega
            rw [hlength, hstop]
            simp only [Chars.byteLength_append, Chars.byteLength_cons, hnewline]
            omega

/-- Where the text of a line stands: from its start to the byte before the
next start, or to the end of the text. -/
def lineSpan? (text : String) (line : UInt32) : Option Span :=
  if line = 0 then none
  else
    let starts := (ofText text).starts
    starts[line.toNat - 1]?.map fun start =>
      ⟨start, starts[line.toNat]?.elim text.utf8ByteSize (· - 1)⟩

/-- A line is the slice of the text at its span. -/
theorem line?_eq_some_iff {text : String} {n : UInt32} {line : String} :
    (ofText text).line? n = some line
      ↔ ∃ span, lineSpan? text n = some span ∧ Slice text span line.toList := by
  by_cases hn : n = 0
  · simp [line?, lineSpan?, hn]
  · have hpos : n.toNat - 1 + 1 = n.toNat := by
      have hne : n.toNat ≠ 0 := fun h => hn (UInt32.toNat_inj.mp h)
      omega
    have hslice : ∀ {line : String}, (ofText text).lines[n.toNat - 1]?
      = some line →
        ∃ span, lineSpan? text n = some span ∧ Slice text span line.toList := by
      intro line h
      obtain ⟨before, after, hcs, hstart, hstop⟩ :=
        @exists_split_of_line text.toList 0 _ _ h
      rw [hpos, Nat.zero_add, Nat.zero_add, Chars.byteLength_toList] at hstop
      rw [Nat.zero_add] at hstart
      refine ⟨_,
        (if_neg hn).trans (Option.map_eq_some_iff.mpr ⟨_, hstart, rfl⟩), before,
        after, hcs, ?_⟩
      exact congrArg (Span.mk _) hstop
    rw [line?, if_neg hn]
    refine ⟨hslice, ?_⟩
    rintro ⟨span, hspan, hline⟩
    have hlt : n.toNat - 1 < (ofText text).lines.length := by
      rw [lineSpan?, if_neg hn] at hspan
      obtain ⟨start, hstart, -⟩ := Option.map_eq_some_iff.mp hspan
      rw [← length_startsFrom 0]
      exact (List.getElem?_eq_some_iff.mp hstart).1
    -- there is a line, and what stands at its span is no other text
    obtain ⟨span', hspan', hline'⟩ := hslice (List.getElem?_eq_getElem hlt)
    obtain rfl := Option.some.inj (hspan.symm.trans hspan')
    rw [List.getElem?_eq_getElem hlt,
      String.toList_inj.mp (hline'.unique hline)]

/-! ## The line of an offset -/

/-- In a text that starts at `base`, the offset is on line `k`, counted from
zero, which starts at `start` and reads `line`: as many lines have begun, and
as many newlines stand before the offset. -/
structure OnLine (cs : List Char) (base offset k start : Nat) (line : String) :
    Prop where
  begun :
    (startsFrom base ((Chars.splitOn '\n' cs).map String.ofList)).takeWhile
      (· ≤ offset)
    = (startsFrom base ((Chars.splitOn '\n' cs).map String.ofList)).take (k + 1)
  starts : (startsFrom base ((Chars.splitOn '\n' cs).map String.ofList))[k]?
    = some start
  reads : ((Chars.splitOn '\n' cs).map String.ofList)[k]? = some line
  newlines : newlinesBefore cs (offset - base) = k
  start_le : start ≤ offset
  le_end : offset ≤ start + line.utf8ByteSize

theorem exists_onLine (cs : List Char) : ∀ {base offset : Nat}, base ≤ offset →
    offset ≤ base + Chars.byteLength cs → ∃ k start line,
      OnLine cs base offset k start line := by
  induction cs using Chars.line_induction with
  | last line hline =>
      intro base offset hbase hoffset
      refine ⟨0, base, String.ofList line, ?_, ?_, ?_, ?_, hbase, ?_⟩
      · rw [lines_of_not_mem hline]
        simp [startsFrom, hbase]
      · rw [lines_of_not_mem hline]
        rfl
      · rw [lines_of_not_mem hline]
        rfl
      · have hnone := newlinesBefore_append hline [] (offset - base)
        rwa [List.append_nil] at hnone
      · rw [Chars.utf8ByteSize_ofList]
        exact hoffset
  | line line rest hline ih =>
      intro base offset hbase hoffset
      have hnewline : '\n'.utf8Size = 1 := rfl
      rw [Chars.byteLength_append, Chars.byteLength_cons, hnewline] at hoffset
      have hlines := lines_append hline rest
      have hstarts : startsFrom base
            ((Chars.splitOn '\n' (line ++ '\n' :: rest)).map String.ofList)
          = base :: startsFrom (base + Chars.byteLength line + 1)
              ((Chars.splitOn '\n' rest).map String.ofList) := by
        rw [hlines, startsFrom, Chars.utf8ByteSize_ofList]
      by_cases hline' : offset ≤ base + Chars.byteLength line
      · -- the next line starts behind the offset
        refine ⟨0, base, String.ofList line, ?_, ?_, ?_, ?_, hbase, ?_⟩
        · obtain ⟨p, ps, hcons⟩ :=
            List.exists_cons_of_ne_nil (Chars.splitOn_ne_nil '\n' rest)
          have hnext : ¬ base + Chars.byteLength line + 1 ≤ offset := by omega
          rw [hstarts, hcons]
          simp [startsFrom, hbase, hnext]
        · rw [hstarts]
          rfl
        · rw [hlines]
          rfl
        · have hzero : offset - base - Chars.byteLength line = 0 := by omega
          rw [newlinesBefore_append hline, hzero, newlinesBefore_zero]
        · rw [Chars.utf8ByteSize_ofList]
          exact hline'
      · obtain ⟨k, start, text, h⟩ :=
          @ih (base + Chars.byteLength line + 1) offset (by omega) (by omega)
        refine ⟨k + 1, start, text, ?_, ?_, ?_, ?_, h.start_le, h.le_end⟩
        · rw [hstarts, List.takeWhile_cons_of_pos (by simpa using hbase),
            h.begun]
          rfl
        · rw [hstarts]
          exact h.starts
        · rw [hlines]
          exact h.reads
        · have hrest : offset - base - Chars.byteLength line - 1
              = offset - (base + Chars.byteLength line + 1) := by omega
          rw [newlinesBefore_append hline, newlinesBefore, if_neg (by omega),
            if_pos rfl, hnewline, hrest, h.newlines, Nat.add_comm]

/-- The position says the line and how far behind its start. -/
theorem position_of_onLine {text : String} {offset k start : Nat}
    {line : String} (h : OnLine text.toList 0 offset k start line) :
    (ofText text).position offset
      = ⟨(k + 1).toUInt32, (offset - start + 1).toUInt32⟩ := by
  have hbegun : (ofText text).startsUpTo offset
    = (ofText text).starts.take (k + 1) := h.begun
  have hstart : (ofText text).starts[k]? = some start := h.starts
  have hk : k < (ofText text).starts.length :=
    (List.getElem?_eq_some_iff.mp hstart).1
  have hlast : ((ofText text).starts.take (k + 1)).getLast? = some start := by
    rw [List.getLast?_take, if_neg (Nat.succ_ne_zero k),
      Nat.add_sub_cancel, hstart]
    rfl
  simp only [position, hbegun, hlast, List.length_take, Nat.min_eq_left hk,
    Option.getD_some, Nat.max_eq_left (Nat.le_add_left 1 k)]

/-! ## Numbers of 32 bits -/

variable {text : String}

/-- In a text that is short enough, the numbers of lines and columns are what
they are meant to be. -/
theorem exists_onLine_of_le (hsize : text.utf8ByteSize < UInt32.size - 1)
    {offset : Nat} (h : offset ≤ text.utf8ByteSize) :
    ∃ k start line, OnLine text.toList 0 offset k start line
      ∧ ((ofText text).position offset).line.toNat = k + 1
      ∧ ((ofText text).position offset).column.toNat = offset - start + 1 := by
  rw [← Chars.byteLength_toList] at hsize h
  obtain ⟨k, start, line, hon⟩ :=
    exists_onLine text.toList (Nat.zero_le offset) ((Nat.zero_add _).symm ▸ h)
  have hk : k < (Chars.splitOn '\n' text.toList).length := by
    simpa using (List.getElem?_eq_some_iff.mp hon.reads).1
  have hlines := length_lines_le text.toList
  refine ⟨k, start, line, hon, ?_, ?_⟩
  · rw [position_of_onLine hon]
    exact UInt32.toNat_ofNat_of_lt' (by unfold UInt32.size at *; omega)
  · rw [position_of_onLine hon]
    exact UInt32.toNat_ofNat_of_lt' (by unfold UInt32.size at *; omega)

/-- Every line has a text, by its number. -/
theorem map_line?_range (hsize : text.utf8ByteSize < UInt32.size - 1) :
    (List.range' 1 (ofText text).count.toNat).map (fun n =>
      (ofText text).line? n.toUInt32)
      = (ofText text).lines.map some := by
  rw [← Chars.byteLength_toList] at hsize
  have hlength : (ofText text).lines.length < UInt32.size := by
    have hlines := length_lines_le text.toList
    simp only [ofText, List.length_map]
    omega
  have hcount : (ofText text).count.toNat = (ofText text).lines.length :=
    UInt32.toNat_ofNat_of_lt' hlength
  refine List.ext_getElem (by simp [hcount]) fun i hi _ => ?_
  have hi' : i < (ofText text).lines.length := by simpa [hcount] using hi
  have hline : (1 + i).toUInt32.toNat = 1 + i :=
    UInt32.toNat_ofNat_of_lt' (by unfold UInt32.size at *; omega)
  have hne : (1 + i).toUInt32 ≠ 0 := by
    intro hzero
    rw [hzero] at hline
    exact absurd hline (by rw [UInt32.toNat_zero]; omega)
  rw [List.getElem_map, List.getElem_map, List.getElem_range', Nat.one_mul,
    line?, if_neg hne, hline, Nat.add_sub_cancel_left,
    List.getElem?_eq_getElem hi']

end LineIndex

/-! ## Positions -/

namespace Position

/-- One position comes before another: it is on an earlier line, or further
left on the same one. -/
def Before (p q : Position) : Prop :=
  p.line < q.line ∨ p.line = q.line ∧ p.column < q.column

/-- The position is that of the offset in the text: its line has one more than
as many newlines in front of it, the start of the line and the column give the
offset back, and the column is at most one behind the text of the line. -/
structure Locates (text : String) (offset : Nat) (p : Position) : Prop where
  line : p.line.toNat = 1 + newlinesBefore text.toList offset
  column : ∃ start line, (LineIndex.ofText text).starts[p.line.toNat - 1]?
    = some start
    ∧ (LineIndex.ofText text).line? p.line = some line
    ∧ 1 ≤ p.column.toNat ∧ start + p.column.toNat - 1 = offset
    ∧ p.column.toNat - 1 ≤ line.utf8ByteSize

variable {text : String} {o o' : Nat} {p q : Position}

theorem locates_position (hsize : text.utf8ByteSize < UInt32.size - 1)
    (h : o ≤ text.utf8ByteSize) :
    Locates text o ((LineIndex.ofText text).position o) := by
  obtain ⟨k, start, line, hon, hline, hcolumn⟩ :=
    LineIndex.exists_onLine_of_le hsize h
  have hnewlines : newlinesBefore text.toList o = k := by
    simpa using hon.newlines
  have hstart := hon.start_le
  have hend := hon.le_end
  have hne : ((LineIndex.ofText text).position o).line ≠ 0 := by
    intro hzero
    rw [hzero, UInt32.toNat_zero] at hline
    omega
  refine ⟨by omega, start, line, ?_, ?_, by omega, by omega, by omega⟩
  · rw [hline]
    exact hon.starts
  · rw [LineIndex.line?, if_neg hne, hline]
    exact hon.reads

/-- Positions are in the order of the offsets. -/
theorem Locates.before (hp : Locates text o p) (hq : Locates text o' q)
    (h : o < o') :
    p.Before q := by
  have hlines : p.line.toNat ≤ q.line.toNat := by
    rw [hp.line, hq.line]
    exact Nat.add_le_add_left (newlinesBefore_mono _ (Nat.le_of_lt h)) 1
  rcases Nat.lt_or_eq_of_le hlines with hlt | heq
  · exact .inl (UInt32.lt_iff_toNat_lt.mpr hlt)
  · obtain ⟨start, -, hstart, -, hpos, hoffset, -⟩ := hp.column
    obtain ⟨start', -, hstart', -, hpos', hoffset', -⟩ := hq.column
    rw [heq, hstart'] at hstart
    obtain rfl := Option.some.inj hstart
    exact .inr ⟨UInt32.toNat_inj.mp heq, UInt32.lt_iff_toNat_lt.mpr (by omega)⟩

theorem Before.ne (h : p.Before q) : p ≠ q := by
  rintro rfl
  rcases h with hline | ⟨-, hcolumn⟩
  · exact absurd hline (UInt32.lt_irrefl _)
  · exact absurd hcolumn (UInt32.lt_irrefl _)

end Position

/-- **Positions invert offsets** in a text of less than `2 ^ 32 - 1` bytes. The
lines, each by its number, have newlines between them in the text. The position
of an offset in the text locates it (`Position.Locates`); different offsets have
different positions, and these are in their order. -/
theorem position_inverts {text : String}
    (hsize : text.utf8ByteSize < UInt32.size - 1) :
    (∃ lines : List String,
        (List.range' 1 (LineIndex.ofText text).count.toNat).map
            (fun n => (LineIndex.ofText text).line? n.toUInt32) = lines.map some
          ∧ "\n".intercalate lines = text)
      ∧ (∀ o ≤ text.utf8ByteSize,
          Position.Locates text o ((LineIndex.ofText text).position o))
      ∧ (∀ o ≤ text.utf8ByteSize, ∀ o' ≤ text.utf8ByteSize,
          (LineIndex.ofText text).position o
            = (LineIndex.ofText text).position o' → o = o')
      ∧ ∀ o o', o < o' → o' ≤ text.utf8ByteSize →
          ((LineIndex.ofText text).position o).Before
            ((LineIndex.ofText text).position o') := by
  have hbefore : ∀ o o', o < o' → o' ≤ text.utf8ByteSize →
      ((LineIndex.ofText text).position o).Before
        ((LineIndex.ofText text).position o') :=
    fun o o' hlt h => (Position.locates_position hsize (by omega)).before
      (Position.locates_position hsize h) hlt
  refine ⟨⟨_, LineIndex.map_line?_range hsize,
      LineIndex.intercalate_lines text⟩,
    fun o h => Position.locates_position hsize h,
    fun o h o' h' heq => ?_, hbefore⟩
  rcases Nat.lt_trichotomy o o' with hlt | hsame | hgt
  · exact absurd heq (hbefore o o' hlt h').ne
  · exact hsame
  · exact absurd heq.symm (hbefore o' o hgt h).ne

/-- In a text of three lines, two of them empty: the newline of the first line
is on it, and the end of the text is on the last line. -/
theorem position_inverts_short :
    (LineIndex.ofText "é\n\n").count = 3
      ∧ (LineIndex.ofText "é\n\n").position 2 = ⟨1, 3⟩
      ∧ Position.Locates "é\n\n" 4 ⟨3, 1⟩
      ∧ (⟨1, 3⟩ : Position).Before ⟨3, 1⟩ := by
  have hend : (LineIndex.ofText "é\n\n").position 4 = ⟨3, 1⟩ := by decide
  have hnewline : (LineIndex.ofText "é\n\n").position 2 = ⟨1, 3⟩ := by decide
  obtain ⟨-, hlocates, -, hbefore⟩ := @position_inverts "é\n\n" (by decide)
  have hlast := hlocates 4 (by decide)
  have horder := hbefore 2 4 (by decide) (by decide)
  rw [hend] at hlast horder
  rw [hnewline] at horder
  exact ⟨by decide, hnewline, hlast, horder⟩

end Exemplar
