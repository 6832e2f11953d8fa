import Mathlib.Data.List.Induction
import Exemplar.Library

/-!
# Libraries by origin

A library comes about by insertions, in any order and several for one origin.
Its entries do not show that order: they stand in the order of origins, each
origin once, and hold what was inserted under their origin
(`entries_ofInsertions`).

`Library.insertEntry` goes through the entries as `Origin.insert` goes through
the origins, so the argument is one lemma about the two (`insertEntry_map`) and
the order of origins.
-/

namespace Exemplar

/-! ## The order of origins -/

namespace Origin

theorem before_iff {a b : Origin} :
    a.before b = true
      ↔ a.role.rank < b.role.rank ∨ a.role.rank = b.role.rank
        ∧ a.name < b.name := by
  simp [before]

theorem not_before_self (a : Origin) : ¬a.before a = true := by
  rw [before_iff]
  rintro (h | ⟨-, h⟩)
  · exact Nat.lt_irrefl _ h
  · exact String.lt_irrefl _ h

theorem before_trans {a b c : Origin} (hab : a.before b = true)
    (hbc : b.before c = true) :
    a.before c = true := by
  rw [before_iff] at hab hbc ⊢
  rcases hab with hab | ⟨hab, hname⟩ <;> rcases hbc with hbc | ⟨hbc, hname'⟩
  · exact Or.inl (Nat.lt_trans hab hbc)
  · exact Or.inl (hbc ▸ hab)
  · exact Or.inl (hab ▸ hbc)
  · exact Or.inr ⟨hab.trans hbc, String.lt_trans hname hname'⟩

theorem eq_of_rank_eq {r r' : Role} (h : r.rank = r'.rank) : r = r' := by
  revert h
  cases r <;> cases r' <;> decide

theorem before_of_not_before {a b : Origin} (hne : a ≠ b)
    (hnot : ¬a.before b = true) :
    b.before a = true := by
  rw [before_iff, not_or, not_and] at hnot
  rw [before_iff]
  rcases Nat.lt_or_eq_of_le (Nat.not_lt.mp hnot.1) with hrank | hrank
  · exact Or.inl hrank
  · refine Or.inr ⟨hrank, Classical.byContradiction fun hname => hne ?_⟩
    have heq : a.name = b.name :=
      String.le_antisymm (String.not_lt.mp hname)
        (String.not_lt.mp (hnot.2 hrank.symm))
    obtain ⟨role, name⟩ := a
    obtain ⟨role', name'⟩ := b
    obtain rfl : role = role' := eq_of_rank_eq hrank.symm
    obtain rfl : name = name' := heq
    rfl

/-- Strictly increasing origins, each once. -/
def Increasing (os : List Origin) : Prop :=
  os.Pairwise fun a b => a.before b = true

theorem Increasing.not_mem {o : Origin} {os : List Origin}
    (h : Increasing (o :: os)) :
    o ∉ os := fun hmem => not_before_self o (List.rel_of_pairwise_cons h hmem)

theorem Increasing.cons {o p : Origin} {os : List Origin}
    (h : Increasing (p :: os)) (ho : o.before p = true) :
    Increasing (o :: p :: os) := by
  refine List.pairwise_cons.mpr ⟨fun q hq => ?_, h⟩
  rcases List.mem_cons.mp hq with rfl | hq
  · exact ho
  · exact before_trans ho (List.rel_of_pairwise_cons h hq)

theorem Increasing.insert {os : List Origin} (h : Increasing os) (o : Origin) :
    Increasing (insert o os) := by
  induction os with
  | nil => exact List.pairwise_singleton ..
  | cons p ps ih =>
      rw [Origin.insert]
      split
      · exact h
      · next hne =>
          split
          · next hbefore => exact h.cons hbefore
          · next hnot =>
              refine List.pairwise_cons.mpr ⟨fun q hq => ?_,
                ih (List.Pairwise.of_cons h)⟩
              rcases mem_insert.mp hq with rfl | hq
              · exact before_of_not_before hne hnot
              · exact List.rel_of_pairwise_cons h hq

end Origin

/-! ## Insertions -/

namespace Library

/-- A library as it comes about, one insertion after the other. -/
def ofInsertions (insertions : List (Origin × List Namespace)) : Library :=
  insertions.foldl (fun library e => library.insert e.1 e.2) .empty

/-- What is inserted under an origin, in order. -/
def insertedUnder (insertions : List (Origin × List Namespace)) (o : Origin) :
    List Namespace :=
  (insertions.filter fun e => e.1 == o).flatMap Prod.snd

theorem insertedUnder_concat (insertions : List (Origin × List Namespace))
    (o p : Origin) (nss : List Namespace) :
    insertedUnder (insertions ++ [(o, nss)]) p
      = insertedUnder insertions p ++ if o = p then nss else [] := by
  by_cases ho : o = p <;> simp [insertedUnder, ho]

theorem insertedUnder_eq_nil {insertions : List (Origin × List Namespace)}
    {o : Origin} (h : o ∉ insertions.map Prod.fst) :
    insertedUnder insertions o = [] := by
  rw [insertedUnder, List.filter_eq_nil_iff.mpr, List.flatMap_nil]
  intro e he heq
  exact h (List.mem_map.mpr ⟨e, he, by simpa using heq⟩)

/-- An insertion into a table that holds `g o` for each of the origins `os`. -/
theorem insertEntry_map {g : Origin → List Namespace} {o : Origin}
    {nss : List Namespace} :
    ∀ {os : List Origin}, Origin.Increasing os → (o ∉ os → g o = []) →
      insertEntry o nss (os.map fun p => (p, g p))
        = (Origin.insert o os).map fun p =>
        (p, g p ++ if o = p then nss else [])
  | [], _, hg => by simp [insertEntry, Origin.insert, hg]
  | p :: ps, hos, hg => by
      -- where the origin is not, nothing is added
      have hother : ∀ {qs : List Origin}, o ∉ qs → (qs.map fun q => (q, g q))
          = qs.map fun q => (q, g q ++ if o = q then nss else []) := by
        intro qs ho
        refine List.map_congr_left fun q hq => ?_
        have hne : o ≠ q := fun heq => ho (heq ▸ hq)
        rw [if_neg hne, List.append_nil]
      rw [List.map_cons, insertEntry, Origin.insert]
      by_cases hp : o = p
      · subst hp
        rw [if_pos rfl, if_pos rfl, List.map_cons, if_pos rfl,
          hother hos.not_mem]
      · rw [if_neg hp, if_neg hp]
        by_cases hbefore : o.before p = true
        · have hnot := (hos.cons hbefore).not_mem
          rw [if_pos hbefore, if_pos hbefore, List.map_cons, if_pos rfl,
            hg hnot, ← hother hnot, List.map_cons, List.nil_append]
        · have hrest : o ∉ ps → g o = [] := fun hnot => hg fun hmem =>
            (List.mem_cons.mp hmem).elim hp hnot
          rw [if_neg hbefore, if_neg hbefore, List.map_cons, if_neg hp,
            List.append_nil, insertEntry_map (List.Pairwise.of_cons hos) hrest]

/-- **The order of insertions does not show**: the origins are in order, each
once, and each entry holds what was inserted under its origin. -/
theorem entries_ofInsertions (insertions : List (Origin × List Namespace)) :
    Origin.Increasing (ofInsertions insertions).origins
      ∧ (∀ o, o ∈ (ofInsertions insertions).origins
        ↔ o ∈ insertions.map Prod.fst)
      ∧ (ofInsertions insertions).entries
        = (ofInsertions insertions).origins.map fun o =>
        (o, insertedUnder insertions o) := by
  induction insertions using List.reverseRecOn with
  | nil => exact ⟨List.Pairwise.nil, fun o => Iff.rfl, rfl⟩
  | append_singleton insertions e ih =>
      obtain ⟨o, nss⟩ := e
      obtain ⟨hincreasing, hmem, hentries⟩ := ih
      have hstep : ofInsertions (insertions ++ [(o, nss)])
          = (ofInsertions insertions).insert o nss := by
        simp [ofInsertions]
      have hinserted : ((ofInsertions insertions).insert o nss).entries
          = (Origin.insert o (ofInsertions insertions).origins).map fun p =>
              (p, insertedUnder (insertions ++ [(o, nss)]) p) := by
        simp only [insertedUnder_concat]
        rw [insert, hentries]
        exact insertEntry_map hincreasing fun hnot =>
          insertedUnder_eq_nil fun h => hnot ((hmem o).mpr h)
      have horigins : ((ofInsertions insertions).insert o nss).origins
          = Origin.insert o (ofInsertions insertions).origins := by
        rw [origins, hinserted, List.map_map]
        exact List.map_id _
      rw [hstep, hinserted, horigins]
      refine ⟨hincreasing.insert o, fun p => ?_, rfl⟩
      rw [Origin.mem_insert, hmem, List.map_append, List.mem_append, or_comm]
      exact or_congr_right List.mem_singleton.symm

/-- The namespaces of a library, reference by reference in the order of
origins. -/
theorem namespaces_ofInsertions (insertions : List (Origin × List Namespace)) :
    (ofInsertions insertions).namespaces
      = (ofInsertions insertions).origins.flatMap
        (insertedUnder insertions) := by
  rw [namespaces, (entries_ofInsertions insertions).2.2, List.flatMap_map]

end Library

end Exemplar
