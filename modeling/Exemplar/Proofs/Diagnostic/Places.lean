import Exemplar.Diagnostic.Report
import Exemplar.Proofs.Command.Verdicts
import Exemplar.Proofs.Diagnostic.Excerpt

/-!
# The place of a diagnostic

A diagnostic names one place: behind the arrow in its text, and as the location
in the report. The text takes the first label, the report the first primary
label. The two are the same place exactly when these labels start at the same
offset (`places_agree_iff`), in particular whenever the first label is primary
or none is.
-/

namespace Exemplar

open LineIndex

/-! ## One offset for one position -/

theorem Position.Locates.offset_eq {text : String} {o o' : Nat} {p : Position}
    (h : p.Locates text o) (h' : p.Locates text o') : o = o' := by
  rcases Nat.lt_trichotomy o o' with hlt | hsame | hgt
  · exact absurd rfl (h.before h' hlt).ne
  · exact hsame
  · exact absurd rfl (h'.before h hgt).ne

/-! ## The report -/

def Json.item? (i : Nat) : Json → Option Json
  | .arr items => items[i]?
  | _ => none

/-- A field of the location of the diagnostic with the given index. -/
def Report.locationOf? (report : Json) (i : Nat) (key : String) : Option Json :=
  (((report.field? "diagnostics").bind (Json.item? i)).bind
    (Json.field? "location")).bind (Json.field? key)

theorem Json.lookup_optional (key key' : String) (value : Option Json) :
    (Json.optional key value).lookup key' = if key' = key then value
      else none := by
  cases value with
  | none => simp [Json.optional]
  | some v =>
      by_cases h : key' = key
      · simp [Json.optional, h]
      · simp [Json.optional, h, List.lookup_cons, beq_eq_false_iff_ne.mpr h]

namespace Report

variable {texts : SourceTexts} {d : Diagnostic} {origin : Origin}
  {source : String}

theorem field?_location (horigin : d.origin = some origin)
    (htext : texts.get? origin = some source) {main : Label}
    (hmain : d.mainLabel? = some main) :
    (ofDiagnostic texts d).field? "location"
      = some (location (ofText source) main) := by
  simp only [ofDiagnostic, Json.field?, horigin, hmain]
  simp [List.lookup_append, Json.lookup_optional, List.lookup_cons, htext]

/-- The report gives the place where the main label starts. -/
theorem locationOf?_ofDiagnostics {ds : List Diagnostic} {i : Nat}
    (hd : ds[i]? = some d) (command : String) (horigin : d.origin = some origin)
    (htext : texts.get? origin = some source) {main : Label}
    (hmain : d.mainLabel? = some main) :
    locationOf? (ofDiagnostics ds texts command) i "line"
        = some (.num ((ofText source).position main.span.start).line.toNat)
      ∧ locationOf? (ofDiagnostics ds texts command) i "column"
        = some (.num
          ((ofText source).position main.span.start).column.toNat) := by
  have hitem : ((ofDiagnostics ds texts command).field? "diagnostics").bind
      (Json.item? i) = some (ofDiagnostic texts d) := by
    simp [ofDiagnostics, Json.field?, Json.item?, List.lookup_cons, hd]
  simp only [locationOf?, hitem, Option.bind_some,
    field?_location horigin htext hmain]
  exact ⟨rfl, rfl⟩

end Report

/-! ## The text -/

namespace Diagnostic

variable {d : Diagnostic} {texts : SourceTexts} {origin : Origin}
  {source : String}

/-- The text gives the place where the first label starts. -/
theorem exists_plain_rich (hsize : source.utf8ByteSize < UInt32.size - 1)
    (horigin : d.origin = some origin) (htext : texts.get? origin = some source)
    {first : Label} (hfirst : d.labels.head? = some first)
    (hin : first.span.start ≤ source.utf8ByteSize) :
    ∃ rest, (d.rich texts).plain
      = d.header.plain ++ "  --> " ++ origin.text
        ++ ":"
        ++ Nat.repr ((ofText source).position first.span.start).line.toNat
        ++ ":"
        ++ Nat.repr ((ofText source).position first.span.start).column.toNat
        ++ "\n" ++ rest := by
  have hshown : (d.printedLines source).isEmpty = false := by
    have hmem : first ∈ d.labels.filter fun l =>
      l.span.start ≤ source.utf8ByteSize :=
      List.mem_filter.mpr ⟨List.mem_of_head? hfirst, decide_eq_true hin⟩
    rw [← (labels_printedLines hsize d).mem_iff] at hmem
    obtain ⟨p, hp, -⟩ := List.mem_flatMap.mp hmem
    cases hlines : d.printedLines source with
    | nil => rw [hlines] at hp; cases hp
    | cons line rest => rfl
  have hrich : d.rich texts = d.richIn origin.text source := by
    simp only [rich, horigin, htext]
  refine ⟨PrintedLine.margin
    (ExcerptLine.gutterOf (ExcerptLine.ofLabels source d.labels)) ++ "\n"
    ++ String.join ((d.printedLines source).map
      (PrintedLine.write
        (ExcerptLine.gutterOf (ExcerptLine.ofLabels source d.labels))))
    ++ d.footer.plain, ?_⟩
  rw [hrich, richIn, Rich.plain_append, Rich.plain_append,
    plain_excerpt hsize, hshown]
  simp [heading, place, hfirst, String.append_assoc]

/-- **The text and the report agree on the place** of a diagnostic, whose labels
lie in a text at hand of less than `2 ^ 32 - 1` bytes, exactly when the first
primary label, if there is one, starts where the first label does. The text
gives the place of the first label, and the report that of the main label. -/
theorem places_agree_iff (hsize : source.utf8ByteSize < UInt32.size - 1)
    (horigin : d.origin = some origin) (htext : texts.get? origin = some source)
    {first : Label} (hfirst : d.labels.head? = some first)
    (hin : ∀ label ∈ d.labels, label.span.start ≤ source.utf8ByteSize)
    {ds : List Diagnostic} {i : Nat} (hd : ds[i]? = some d) (command : String) :
    ∃ shown reported : Position,
      (∃ rest, (d.rich texts).plain
          = d.header.plain ++ "  --> " ++ origin.text ++ ":"
            ++ Nat.repr shown.line.toNat ++ ":"
            ++ Nat.repr shown.column.toNat ++ "\n" ++ rest)
        ∧ Report.locationOf? (Report.ofDiagnostics ds texts command) i "line"
          = some (.num reported.line.toNat)
        ∧ Report.locationOf? (Report.ofDiagnostics ds texts command) i "column"
          = some (.num reported.column.toNat)
        ∧ shown.Locates source first.span.start
        ∧ (∀ main, d.labels.find? (fun l => l.emphasis == .primary)
          = some main →
            reported.Locates source main.span.start)
        ∧ (shown = reported ↔ ∀ main,
          d.labels.find? (fun l => l.emphasis == .primary) = some main →
            main.span.start = first.span.start) := by
  obtain ⟨main, hmain⟩ : ∃ main, d.mainLabel? = some main := by
    rw [mainLabel?, hfirst]
    cases d.labels.find? fun l => l.emphasis == .primary with
    | none => exact ⟨first, rfl⟩
    | some main => exact ⟨main, rfl⟩
  have hmem : main ∈ d.labels := by
    rcases Option.or_eq_some_iff.mp hmain with h | ⟨-, h⟩
    · exact List.mem_of_find?_eq_some h
    · exact List.mem_of_head? h
  have hinFirst := hin first (List.mem_of_head? hfirst)
  have hshown := Position.locates_position hsize hinFirst
  have hreported := Position.locates_position hsize (hin main hmem)
  have hsame : (ofText source).position first.span.start
    = (ofText source).position main.span.start
      ↔ main.span.start = first.span.start :=
    ⟨fun h => hreported.offset_eq (h ▸ hshown), fun h => by rw [h]⟩
  obtain ⟨hline, hcolumn⟩ :=
    Report.locationOf?_ofDiagnostics hd command horigin htext hmain
  refine ⟨_, _, exists_plain_rich hsize horigin htext hfirst hinFirst, hline,
    hcolumn, hshown, ?_⟩
  rw [hsame]
  rcases Option.or_eq_some_iff.mp hmain with h | ⟨hnone, h⟩
  · simpa [h] using hreported
  · rw [hfirst, Option.some.injEq] at h
    simp [hnone, h]

/-- A call whose argument does not fit, with the primary label first. -/
def argumentFirst : Diagnostic :=
  ((Diagnostic.coded .error "E0300" "m").about (.primary "a")).primary ⟨4, 5⟩
    "expected Int"
    |>.secondary ⟨0, 3⟩ "in this call"

/-- The text and the report give the same place, that of the argument. -/
theorem places_agree_iff_argument :
    ∃ shown reported : Position, shown = reported ∧ shown.Locates "Add(b)" 4
      ∧ Report.locationOf?
          (Report.ofDiagnostics [argumentFirst] [(.primary "a", "Add(b)")]
            "check") 0 "column"
        = some (.num reported.column.toNat) := by
  have hsize : "Add(b)".utf8ByteSize < UInt32.size - 1 := by decide
  have horigin : argumentFirst.origin = some (.primary "a") := rfl
  have htext : SourceTexts.get? [(.primary "a", "Add(b)")] (.primary "a")
      = some "Add(b)" := by
    decide
  have hfirst : argumentFirst.labels.head?
    = some ⟨⟨4, 5⟩, .primary, some "expected Int"⟩ := rfl
  have hd : [argumentFirst][0]? = some argumentFirst := rfl
  obtain ⟨shown, reported, -, -, hcolumn, hshown, -, hsame⟩ :=
    places_agree_iff hsize horigin htext hfirst (by decide) hd "check"
  refine ⟨shown, reported, hsame.mpr ?_, hshown, hcolumn⟩
  rintro main hmain
  rw [← Option.some.inj hmain]

/-- Declared in line 1, not found in line 2: the secondary label was added
first. -/
def declaredFirst : Diagnostic :=
  ((Diagnostic.coded .error "E0200" "m").about (.primary "a")).secondary ⟨0, 3⟩
    "declared here"
    |>.primary ⟨4, 7⟩ "not found"

/-- The text gives line 1 and the report line 2. -/
theorem places_differ :
    (∀ label ∈ declaredFirst.labels, label.span.start ≤ label.span.stop
        ∧ label.span.stop ≤ "let\nfoo".utf8ByteSize)
      ∧ (declaredFirst.rich [(.primary "a", "let\nfoo")]).plain
        = "error[E0200]: m\n  --> a:1:1\n    |\n  1 | let\n    | --- declared here\n"
          ++ "  2 | foo\n    | ^^^ not found\n"
      ∧ Report.locationOf?
          (Report.ofDiagnostics [declaredFirst] [(.primary "a", "let\nfoo")]
            "check") 0 "line"
        = some (.num 2) := by
  have htext : SourceTexts.get? [(.primary "a", "let\nfoo")] (.primary "a")
      = some "let\nfoo" := by
    decide
  have hline : ((ofText "let\nfoo").position 4).line.toNat = 2 := by decide
  have hd : [declaredFirst][0]? = some declaredFirst := rfl
  have hmain : declaredFirst.mainLabel?
      = some ⟨⟨4, 7⟩, .primary, some "not found"⟩ := rfl
  have hreported :=
    (Report.locationOf?_ofDiagnostics hd "check" rfl htext hmain).1
  refine ⟨by decide, ?_, hline ▸ hreported⟩
  have hlines : ExcerptLine.ofLabels "let\nfoo" declaredFirst.labels
      = [⟨1, "let", [⟨1, 4, .secondary, some "declared here"⟩]⟩,
        ⟨2, "foo", [⟨1, 4, .primary, some "not found"⟩]⟩] := by decide
  have hpainted (n : Nat) (text : String) (u : Underline) :
      ExcerptLine.painted ⟨n, text, [u]⟩ = [u] := List.mergeSort_singleton u
  have hexcerpt : declaredFirst.excerpt "a" "let\nfoo"
      = pointer "a:1:1" ++ ExcerptLine.bar 2 ++ .raw "\n"
        ++ ExcerptLine.richAll 2
          (ExcerptLine.ofLabels "let\nfoo" declaredFirst.labels) := by
    rw [excerpt, hlines]
    rfl
  change (declaredFirst.richIn "a" "let\nfoo").plain = _
  rw [richIn, hexcerpt, hlines]
  simp only [ExcerptLine.richAll, ExcerptLine.richAfter, ExcerptLine.rich,
    ExcerptLine.richUnderlines, ExcerptLine.row, ExcerptLine.fullRow,
    ExcerptLine.messages, hpainted]
  decide +kernel

end Diagnostic

end Exemplar
