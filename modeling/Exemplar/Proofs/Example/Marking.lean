import Exemplar.Proofs.Example.Addresses

/-!
# What marking does

Marking changes the callables that can run as tests and nothing else, and
marking once more changes nothing (`markTests_exact`).

The marks that a callable gains are said without the loop that adds them:
those that nothing alike precedes, be it written on the callable or listed
earlier (`lacking`). The loop keeps a list of what is there by now, in which a
mark that was passed over leaves no trace; it need not, for what stood in its
way is alike to all that the mark is alike to (`lacking_congr`).
-/

namespace Exemplar

/-! ## Marks that are missing -/

/-- The marks that nothing alike precedes, among what is present and then
among the marks themselves. -/
def lacking (present marks : List Attribute) : List Attribute :=
  marks.zipIdx.filterMap fun (mark, i) =>
    if (present ++ marks.take i).any fun a => a.alike mark then none
    else some mark

theorem Attribute.alike_iff {a b : Attribute} :
    a.alike b = true ↔ a.name = b.name ∧ a.argument = b.argument := by
  simp [alike]

theorem Attribute.alike_trans {a b c : Attribute} (hab : a.alike b = true)
    (hbc : b.alike c = true) : a.alike c = true := by
  rw [alike_iff] at hab hbc ⊢
  exact ⟨hab.1.trans hbc.1, hab.2.trans hbc.2⟩

theorem lacking_cons (present : List Attribute) (mark : Attribute)
    (marks : List Attribute) :
    lacking present (mark :: marks)
      = (if present.any fun a => a.alike mark then [] else [mark])
        ++ lacking (present ++ [mark]) marks := by
  have hrest : ∀ p : Attribute × Nat, (present ++ [mark] ++ marks.take p.2)
      = present ++ (mark :: marks).take (p.2 + 1) := by simp
  simp only [lacking, hrest]
  rw [List.zipIdx_cons', List.filterMap_cons, List.filterMap_map,
    List.take_zero, List.append_nil]
  by_cases hmark : (present.any fun a => a.alike mark) = true
  · rw [if_pos hmark, if_pos hmark]
    rfl
  · rw [if_neg hmark, if_neg hmark]
    rfl

/-- Of what is present, it matters only which marks it is alike to. -/
theorem lacking_congr {marks : List Attribute} :
    ∀ {present present' : List Attribute},
    (∀ mark, (present.any fun a => a.alike mark) = present'.any fun a =>
      a.alike mark) →
      lacking present marks = lacking present' marks := by
  intro present present' h
  simp only [lacking, List.any_append, h]

/-- **The marks that are added** are the ones that are lacking. -/
theorem addMissing_eq_lacking (marks : List Attribute) :
    ∀ present : List Attribute,
    addMissing present marks = present ++ lacking present marks := by
  induction marks with
  | nil => exact fun present => (List.append_nil present).symm
  | cons mark marks ih =>
      intro present
      have hstep : addMissing present (mark :: marks)
          = addMissing (if present.any fun a => a.alike mark then present
              else present ++ [mark]) marks := rfl
      rw [hstep, ih, lacking_cons]
      by_cases hmark : (present.any fun a => a.alike mark) = true
      · rw [if_pos hmark, if_pos hmark, List.nil_append]
        refine congrArg (present ++ ·) (lacking_congr fun mark' => ?_)
        -- whatever the mark that is passed over is alike to, something present
        -- is
        obtain ⟨a, ha, halike⟩ := List.any_eq_true.mp hmark
        rw [List.any_append, List.any_cons, List.any_nil, Bool.or_false,
          Bool.eq_iff_iff, Bool.or_eq_true]
        exact ⟨Or.inl, fun h => h.elim id fun h =>
          List.any_eq_true.mpr ⟨a, ha, Attribute.alike_trans halike h⟩⟩
      · rw [if_neg hmark, if_neg hmark, List.append_assoc]

theorem lacking_eq_nil {present marks : List Attribute}
    (h : ∀ mark ∈ marks, ∃ a ∈ present, a.alike mark = true) :
    lacking present marks = [] := by
  rw [lacking, List.filterMap_eq_nil_iff]
  rintro ⟨mark, i⟩ hmem
  have hpresent : (present ++ marks.take i).any (fun a => a.alike mark)
      = true := by
    rw [List.any_append,
      List.any_eq_true.mpr (h mark (List.fst_mem_of_mem_zipIdx hmem)),
      Bool.true_or]
  exact if_pos hpresent

/-- After the marks were added, none is lacking. -/
theorem addMissing_addMissing (present marks : List Attribute) :
    addMissing (addMissing present marks) marks = addMissing present marks := by
  rw [addMissing_eq_lacking marks (addMissing present marks), lacking_eq_nil,
    List.append_nil]
  exact fun mark hmark => exists_alike_addMissing hmark

/-! ## Declarations -/

/-- The callable with attributes behind its own. -/
def Callable.gaining (c : Callable) (added : List Attribute) : Callable :=
  { c with attributes := c.attributes ++ added }

namespace Declaration

/-- The declaration is the callable `c`, it comes from one of the origins, and
it takes nothing. -/
structure Runs (origins : List Origin) (d : Declaration) (c : Callable) :
    Prop where
  callable : d.detail = .callable c
  origin : d.origin ∈ origins
  params : c.params = []

/-- `d'` is the declaration `d` with the marks it lacks, if it can run as a
test, and else just `d`. -/
structure Marked (origins : List Origin) (marks : List Attribute)
    (d d' : Declaration) :
    Prop where
  gains : ∀ c, d.Runs origins c →
    d' = { d with detail := .callable (c.gaining (lacking c.attributes marks)) }
  stays : (∀ c, ¬d.Runs origins c) → d' = d

theorem isTest_iff {d : Declaration} {origins : List Origin} :
    d.isTest origins = true ↔ ∃ c, d.Runs origins c := by
  obtain ⟨name, doc, origin, span, detail⟩ := d
  cases detail with
  | newtype | specialization =>
      constructor
      · intro h
        simp [isTest, callable?] at h
      · rintro ⟨c, hc⟩
        cases hc.callable
  | callable c =>
      simp only [isTest, callable?, Option.any_some, Bool.and_eq_true,
        List.contains_iff_mem, Callable.takesNothing, List.isEmpty_iff]
      constructor
      · rintro ⟨horigin, hparams⟩
        exact ⟨c, rfl, horigin, hparams⟩
      · rintro ⟨c', hc'⟩
        obtain rfl := Detail.callable.inj hc'.callable
        exact ⟨hc'.origin, hc'.params⟩

theorem marked_markTest (d : Declaration) (origins : List Origin)
    (marks : List Attribute) :
    d.Marked origins marks (d.markTest origins marks) where
  gains c hc := by
    rw [markTest_of_isTest hc.callable (isTest_iff.mpr ⟨c, hc⟩),
      addMissing_eq_lacking]
    rfl
  stays h := by
    refine markTest_of_not_isTest fun htest => ?_
    obtain ⟨c, hc⟩ := isTest_iff.mp htest
    exact h c hc

/-- Only attributes are different. -/
theorem kept_markTest (d : Declaration) (origins : List Origin)
    (marks : List Attribute) :
    (d.markTest origins marks).doc = d.doc ∧ (d.markTest origins marks).origin
      = d.origin := by
  by_cases htest : d.isTest origins = true
  · obtain ⟨c, hc⟩ := isTest_iff.mp htest
    rw [markTest_of_isTest hc.callable htest]
    exact ⟨rfl, rfl⟩
  · rw [markTest_of_not_isTest htest]
    exact ⟨rfl, rfl⟩

theorem markTest_markTest (d : Declaration) (origins : List Origin)
    (marks : List Attribute) :
    (d.markTest origins marks).markTest origins marks
      = d.markTest origins marks := by
  by_cases htest : d.isTest origins = true
  · obtain ⟨c, hc⟩ := isTest_iff.mp htest
    have htest' : (d.markTest origins marks).isTest origins = true := by
      rw [isTest_markTest, htest]
    rw [markTest_of_isTest hc.callable htest] at htest' ⊢
    rw [markTest_of_isTest rfl htest']
    dsimp only
    rw [addMissing_addMissing]
  · rw [markTest_of_not_isTest htest, markTest_of_not_isTest htest]

end Declaration

/-! ## Programs -/

namespace Program

theorem decls_markTests (p : Program) (origins : List Origin)
    (marks : List Attribute) :
    (p.markTests origins marks).decls = p.decls.map fun d =>
      d.markTest origins marks := by
  simp [decls, markTests, List.flatMap_map, List.map_flatMap]

theorem tests_markTests (p : Program) (origins : List Origin)
    (marks : List Attribute) :
    (p.markTests origins marks).tests origins = p.tests origins := by
  simp only [tests, decls_markTests, List.filter_map, List.map_map,
    Function.comp_def, isTest_markTest, name_markTest]

theorem markTests_markTests (p : Program) (origins : List Origin)
    (marks : List Attribute) :
    (p.markTests origins marks).markTests origins marks
      = p.markTests origins marks := by
  simp only [markTests, List.map_map, Function.comp_def,
    Declaration.markTest_markTest]

/-- The tests are the callables that can run, in order. -/
theorem tests_eq_callables (p : Program) (origins : List Origin) :
    p.tests origins
      = (p.callables.filter fun (d, c) =>
        decide (d.origin ∈ origins ∧ c.params = [])).map
          fun (d, _) => d.name := by
  have hcallables : p.callables
      = p.decls.filterMap fun d => d.callable?.map fun c => (d, c) := by
    rw [decls, List.filterMap_flatMap]
    rfl
  rw [tests, hcallables, List.filter_filterMap, List.map_filterMap,
    ← List.filterMap_eq_filter, List.map_filterMap]
  refine congrArg (List.filterMap · p.decls) (funext fun d => ?_)
  cases hcallable : d.callable? with
  | none =>
      have htest : d.isTest origins = false := by
        simp [Declaration.isTest, hcallable]
      rw [Option.guard, htest]
      rfl
  | some c =>
      have htest : d.isTest origins
          = decide (d.origin ∈ origins ∧ c.params = []) := by
        rw [Bool.eq_iff_iff]
        simp [Declaration.isTest, hcallable, Callable.takesNothing]
      rw [Option.guard, htest, Option.map_some, Option.filter_some]
      split <;> rfl

end Program

/-- **Marking is exact and idempotent.** Names, documentation, the order of
everything and the entry points stay. A callable that comes from one of the
origins and takes nothing keeps its attributes and gains the marks that it
lacks, in their order; every other declaration stays as it is. The tests are
those callables, in the order of the program. Marking once more gives the same
program and the same tests. -/
theorem markTests_exact (p : Program) (origins : List Origin)
    (marks : List Attribute) :
    (p.markTests origins marks).entryPoints = p.entryPoints
      ∧ List.Forall₂ (fun ns ns' => ns'.name = ns.name ∧ ns'.doc = ns.doc
          ∧ List.Forall₂ (Declaration.Marked origins marks) ns.decls ns'.decls)
        p.namespaces (p.markTests origins marks).namespaces
      ∧ p.tests origins
        = (p.callables.filter fun (d, c) =>
          decide (d.origin ∈ origins ∧ c.params = [])).map
            (fun (d, _) => d.name)
      ∧ (p.markTests origins marks).markTests origins marks
        = p.markTests origins marks
      ∧ (p.markTests origins marks).tests origins = p.tests origins := by
  refine ⟨rfl, ?_, p.tests_eq_callables origins,
    p.markTests_markTests origins marks, p.tests_markTests origins marks⟩
  refine List.forall₂_map_right_iff.mpr (List.forall₂_same.mpr fun ns _ =>
    ⟨rfl, rfl, ?_⟩)
  exact List.forall₂_map_right_iff.mpr (List.forall₂_same.mpr fun d _ =>
    d.marked_markTest origins marks)

end Exemplar
