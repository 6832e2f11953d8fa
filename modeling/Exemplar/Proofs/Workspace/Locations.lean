import Exemplar.Proofs.Check.Spans
import Exemplar.Proofs.Grammar.Spans
import Exemplar.Proofs.Workspace.Order

/-!
# Reports and the sources they are about

A report names one source, and its labels are spans of that source. After any
calls, what a build reports is about a unit of the workspace, and the labels
lie inside its text (`build_locations`): tokens do, hence trees, hence what is
found in them. Where two declarations are compared, the other one is shown only
if it has the same origin, and origins are distinct.

One label escapes. Assigning to a parameter in the body of a specialization
shows where the parameter is bound, and that is in the source of the operation
(`Program.BindsElsewhere`). The span is then read in the wrong text, where it
may lie behind the end (`exists_label_outside`).
-/

namespace Exemplar

/-! ## Errors in texts -/

theorem locations_of_mem_parse {u : SourceUnit} {d : Diagnostic}
    (hd : d ∈ u.parse.diagnostics) :
    d.origin = some u.origin ∧ ∀ l ∈ d.labels,
      l.span.Between 0 u.text.utf8ByteSize := by
  obtain ⟨error, herror, rfl⟩ := List.mem_map.mp hd
  refine ⟨rfl, fun l hl => ?_⟩
  rcases List.mem_append.mp herror with herror | herror
  · obtain ⟨e, he, rfl⟩ := List.mem_map.mp herror
    rw [List.mem_singleton.mp hl]
    exact Scan.between_of_mem_errors he
  · obtain ⟨f, hf, rfl⟩ := List.mem_map.mp herror
    rw [List.mem_singleton.mp hl]
    exact (inside_parse u.text u.origin).2 f hf

/-! ## Declarations and their units -/

theorem span_storedDecl (program : Program) (p : Block × Declaration) :
    (Block.storedDecl program p).span = p.2.span := by
  obtain ⟨b, _, _, _, _, detail⟩ := p
  cases detail <;> rfl

theorem params_of_storedDecl {program : Program} {p : Block × Declaration}
    {c : Callable} (h : (Block.storedDecl program p).callable? = some c) :
    c.params.map Param.span ⊆ p.2.spans := by
  obtain ⟨b, _, _, _, _, detail⟩ := p
  cases detail with
  | newtype | specialization => cases h
  | callable c' =>
      obtain rfl := Option.some.inj h
      intro s hs
      exact List.mem_cons_of_mem _
        (List.mem_append_left _ (List.mem_append_right _ hs))

theorem Program.exists_mem_of_lookup? {p : Program} {q : QualifiedName}
    {d : Declaration} (h : p.lookup? q = some d) :
    ∃ ns ∈ p.namespaces, d ∈ ns.decls := by
  obtain ⟨ns, hns, hfind⟩ := Option.bind_eq_some_iff.mp h
  exact ⟨ns, List.mem_of_find?_eq_some hns, List.mem_of_find?_eq_some hfind⟩

theorem Program.exists_parent_of_mem {p : Program} {d : Declaration} {s : Span}
    (hs : s ∈ (p.borrowedParams d).map Param.span) :
    ∃ parent c, p.lookup? d.name = some parent ∧ parent.callable? = some c
      ∧ s ∈ c.params.map Param.span := by
  unfold borrowedParams at hs
  split at hs
  · cases hlookup : p.lookup? d.name with
    | none =>
        rw [hlookup] at hs
        cases hs
    | some parent =>
        rw [hlookup, Option.bind_some] at hs
        cases hcallable : parent.callable? with
        | none =>
            rw [hcallable] at hs
            cases hs
        | some c =>
            rw [hcallable] at hs
            exact ⟨parent, c, rfl, hcallable, hs⟩
  · cases hs
  · cases hs

section

variable {library : Library} {units : List SourceUnit}

/-- What is compiled stands in the unit of its origin. -/
theorem exists_unit_of_mem
    (hlibrary : ∀ ns ∈ library.namespaces, ∀ d ∈ ns.decls,
      d.origin.isReference = true)
    {ns : Namespace}
    (hns : ns ∈ (Build.ofSources library units).program.namespaces)
    {d : Declaration} (hd : d ∈ ns.decls)
    (horigin : d.origin.isReference = false) :
    ∃ u ∈ units, ∃ p : Block × Declaration, ∃ program, p.2.spans ⊆ p.1.spans
      ∧ p.1 ∈ u.parse.blocks ∧ d = Block.storedDecl program p
      ∧ d.origin = u.origin := by
  rw [Build.program_ofSources] at hns
  rw [← declsNamed_name (nodup_names_assemble ..) hns,
    declsNamed_assemble] at hd
  rcases List.mem_append.mp hd with hd | hd
  · obtain ⟨header, hheader, hd⟩ := List.mem_flatMap.mp hd
    rw [hlibrary header (List.mem_filter.mp hheader).1 d hd] at horigin
    cases horigin
  · obtain ⟨p, hp, rfl⟩ := List.mem_map.mp hd
    obtain ⟨hb, hd⟩ := mem_decls_of_mem_declaredUnder hp
    obtain ⟨u, hu, hb⟩ := List.mem_flatMap.mp hb
    refine ⟨u, hu, p, _, Block.spans_subset_of_mem hd, hb, rfl, ?_⟩
    rw [Block.storedDecl, Declaration.origin_mapAttributes]
    exact origin_of_mem_decls hb hd

/-- From the body of a specialization in the unit, the span is that of a
parameter of its operation, which has another origin. -/
def Program.BindsElsewhere (p : Program) (u : SourceUnit) (s : Span) : Prop :=
  ∃ b ∈ u.parse.blocks, ∃ d ∈ b.decls, s ∈ (p.borrowedParams d).map Param.span
    ∧ ∃ parent, p.lookup? d.name = some parent ∧ parent.origin ≠ u.origin

variable (hlibrary : ∀ ns ∈ library.namespaces, ∀ d ∈ ns.decls,
  d.origin.isReference = true) (horigins : (units.map SourceUnit.origin).Nodup)

include hlibrary horigins

/-- Of two declarations with the origin of a unit, both stand in it. -/
theorem between_of_same_origin {u : SourceUnit} (hu : u ∈ units)
    (hreference : u.origin.isReference = false) {ns : Namespace}
    (hns : ns ∈ (Build.ofSources library units).program.namespaces)
    {d : Declaration} (hd : d ∈ ns.decls) (horigin : d.origin = u.origin) :
    d.span.Between 0 u.text.utf8ByteSize
      ∧ ∀ c, d.callable? = some c →
      Inside 0 u.text.utf8ByteSize (c.params.map Param.span) := by
  obtain ⟨u', hu', p, program, hspans, hb, rfl, hsame⟩ :=
    exists_unit_of_mem hlibrary hns hd (horigin ▸ hreference)
  obtain rfl :=
    List.inj_on_of_nodup_map horigins hu' hu (hsame.symm.trans horigin)
  have hinside : Inside 0 u'.text.utf8ByteSize p.2.spans :=
    fun s hs => (inside_parse u'.text u'.origin).1 p.1 hb s (hspans hs)
  refine ⟨?_, fun c hc s hs => hinside s (params_of_storedDecl hc hs)⟩
  rw [span_storedDecl]
  exact hinside _ (List.mem_cons_self ..)

theorem locations_of_mem_duplicates
    {f : Finding}
    (hf : f ∈ (Build.ofSources library units).program.duplicates) :
    ∃ u ∈ units, f.origin = u.origin ∧ f.span.Between 0 u.text.utf8ByteSize
      ∧ ∀ s, f.problem.related? = some s → s.Between 0 u.text.utf8ByteSize := by
  obtain ⟨ns, hns, d, hd, first, hfirst, hreference, rfl⟩ :=
    exists_of_mem_duplicates hf
  obtain ⟨u, hu, -, -, -, -, -, horigin⟩ :=
    exists_unit_of_mem hlibrary hns hd hreference
  have hreference : u.origin.isReference = false := horigin ▸ hreference
  refine ⟨u, hu, horigin,
    (between_of_same_origin hlibrary horigins hu hreference hns hd horigin).1,
    fun s hs => ?_⟩
  dsimp only [Problem.related?] at hs
  split at hs
  · next hsame =>
      obtain rfl := Option.some.inj hs
      exact (between_of_same_origin hlibrary horigins hu hreference hns hfirst
        (hsame.trans horigin)).1
  · cases hs

theorem locations_of_mem_checkBlock {u : SourceUnit} (hu : u ∈ units)
    (hreference : u.origin.isReference = false) {b : Block}
    (hb : b ∈ u.parse.blocks) {f : Finding}
    (hf : f ∈ checkBlock (Build.ofSources library units).program u.origin b) :
    f.origin = u.origin ∧ f.span.Between 0 u.text.utf8ByteSize
      ∧ ∀ s, f.problem.related? = some s → s.Between 0 u.text.utf8ByteSize
          ∨ f.problem.code = "E0301"
            ∧ (Build.ofSources library units).program.BindsElsewhere u s := by
  have hpoints := points_of_mem_checkBlock hf
  have hinside := (inside_parse u.text u.origin).1 b hb
  refine ⟨hpoints.origin, hinside _ hpoints.span, fun s hs => ?_⟩
  rcases hpoints.related s hs with hown | ⟨hcode, hparam⟩
  · exact Or.inl (hinside s hown)
  · obtain ⟨d, hd, hs⟩ := List.mem_flatMap.mp hparam
    obtain ⟨parent, c, hlookup, hcallable, hmem⟩ :=
      Program.exists_parent_of_mem hs
    by_cases horigin : parent.origin = u.origin
    · obtain ⟨ns, hns, hparent⟩ := Program.exists_mem_of_lookup? hlookup
      have hsame := between_of_same_origin hlibrary horigins hu hreference hns
        hparent horigin
      exact Or.inl (hsame.2 c hcallable s hmem)
    · exact Or.inr ⟨hcode, b, hb, d, hd, hs, parent, hlookup, horigin⟩

end

namespace Workspace

/-- **Reports point into their own unit.** After any calls that link nothing
but headers, each report of the next build is about a unit of the workspace,
and each of its labels is a span of that unit's text; but where a body in a
specialization assigns to a parameter of an operation from another source, the
second label is the span of the parameter there. -/
theorem build_locations (calls : List Call)
    (hlibrary : ∀ ns ∈ (after calls).library.namespaces, ∀ d ∈ ns.decls,
      d.origin.isReference = true) :
    ∀ d ∈ (after calls).build.1.diagnostics, ∃ u ∈ (after calls).units,
      d.origin = some u.origin
        ∧ ∀ l ∈ d.labels,
          (l.span.start ≤ l.span.stop ∧ l.span.stop ≤ u.text.utf8ByteSize)
          ∨ (d.code = some "E0301" ∧ l.emphasis = .secondary
            ∧ (after calls).build.1.program.BindsElsewhere u l.span) := by
  have hws := follows_after calls
  have horigins : ((after calls).units.map SourceUnit.origin).Nodup := by
    rw [hws.units]
    exact nodup_origins_settled _
  have hreference : ∀ u ∈ (after calls).units,
      u.origin.isReference = false := by
    intro u hu
    rw [hws.units] at hu
    have hmem := mem_origins_settled.mp (List.mem_map_of_mem hu)
    obtain ⟨v, hv, heq⟩ := List.mem_map.mp hmem
    rw [← heq]
    exact (Ledger.apart_after calls).units v hv
  have hbuild := hws.sound.build_eq
  intro d hd
  rw [hbuild, Build.diagnostics_ofSources] at hd
  rw [hbuild]
  rcases List.mem_append.mp hd with hd | hd
  · obtain ⟨u, hu, hd⟩ := List.mem_flatMap.mp hd
    obtain ⟨horigin, hlabels⟩ := locations_of_mem_parse hd
    exact ⟨u, hu, horigin, fun l hl =>
      Or.inl ⟨(hlabels l hl).le, (hlabels l hl).high⟩⟩
  · obtain ⟨f, hf, rfl⟩ := List.mem_map.mp hd
    rcases List.mem_append.mp hf with hf | hf
    · obtain ⟨u, hu, horigin, hspan, hrelated⟩ :=
        locations_of_mem_duplicates hlibrary horigins hf
      refine ⟨u, hu, congrArg some horigin, fun l hl => Or.inl ?_⟩
      rcases Finding.mem_labels_toDiagnostic hl with heq | ⟨-, hl⟩
      · rw [heq]
        exact ⟨hspan.le, hspan.high⟩
      · exact ⟨(hrelated _ hl).le, (hrelated _ hl).high⟩
    · obtain ⟨u, hu, hf⟩ := List.mem_flatMap.mp hf
      obtain ⟨b, hb, hf⟩ := List.mem_flatMap.mp hf
      have hu := (List.mem_filter.mp hu).1
      obtain ⟨horigin, hspan, hrelated⟩ :=
        locations_of_mem_checkBlock hlibrary horigins hu (hreference u hu) hb hf
      refine ⟨u, hu, congrArg some horigin, fun l hl => ?_⟩
      rcases Finding.mem_labels_toDiagnostic hl with heq | ⟨hemphasis, hl⟩
      · rw [heq]
        exact Or.inl ⟨hspan.le, hspan.high⟩
      · rcases hrelated _ hl with hbetween | ⟨hcode, helsewhere⟩
        · exact Or.inl ⟨hbetween.le, hbetween.high⟩
        · refine Or.inr ⟨?_, hemphasis, helsewhere⟩
          rw [Finding.code_toDiagnostic, hcode]

/-- The text of a specialization that assigns to a parameter of its
operation. -/
def strayUnit : SourceUnit :=
  ⟨.primary "b.vl", "namespace A\x7badjoint Rotate\x7bset angle=1;\x7d\x7d"⟩

def rotateText : String :=
  "namespace A \x7b\n    operation Rotate(qubit : Int, angle : Double) : Unit;\n\x7d\n"

/-- The operation is in a header. -/
def headerCalls : List Call :=
  [.link (Library.empty.insertText (.reference "a.vl") rotateText),
    .add [strayUnit] true]

/-- The operation is in another file. -/
def strayCalls : List Call :=
  [.add [⟨.primary "a.vl", rotateText⟩, strayUnit] false]

/-- The label that lies outside is the span of a parameter in the header. -/
theorem build_locations_header :
    (∀ ns ∈ (after headerCalls).library.namespaces, ∀ d ∈ ns.decls,
      d.origin.isReference = true)
      ∧ ∃ d ∈ (after headerCalls).build.1.diagnostics,
        ∃ u ∈ (after headerCalls).units,
        d.origin = some u.origin ∧ d.code = some "E0301"
          ∧ ∃ l ∈ d.labels, u.text.utf8ByteSize < l.span.stop
            ∧ (after headerCalls).build.1.program.BindsElsewhere u l.span := by
  have hlibrary : ∀ ns ∈ (after headerCalls).library.namespaces, ∀ d ∈ ns.decls,
      d.origin.isReference = true := by decide +kernel
  have hstray : ∃ d ∈ (after headerCalls).build.1.diagnostics,
    ∀ u ∈ (after headerCalls).units,
      ∃ l ∈ d.labels, u.text.utf8ByteSize < l.span.stop := by decide +kernel
  obtain ⟨d, hd, hlabels⟩ := hstray
  obtain ⟨u, hu, horigin, hplaces⟩ := build_locations headerCalls hlibrary d hd
  obtain ⟨l, hl, hout⟩ := hlabels u hu
  rcases hplaces l hl with ⟨-, hstop⟩ | ⟨hcode, -, helsewhere⟩
  · exact absurd hstop (Nat.not_le.mpr hout)
  · exact ⟨hlibrary, d, hd, u, hu, horigin, hcode, l, hl, hout, helsewhere⟩

/-- The text of the specialization has 41 bytes, and a label starts at 48. -/
theorem exists_label_outside :
    ¬∀ d ∈ (after strayCalls).build.1.diagnostics,
      ∃ u ∈ (after strayCalls).units,
      d.origin = some u.origin ∧ ∀ l ∈ d.labels,
        l.span.start ≤ l.span.stop ∧ l.span.stop ≤ u.text.utf8ByteSize := by
  decide +kernel

end Workspace

end Exemplar
