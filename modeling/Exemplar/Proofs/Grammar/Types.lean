import Exemplar.Grammar.Types
import Exemplar.Proofs.Grammar.Reader

/-!
# Types are read as written

`TypeForm` relates a type to the texts it can be written as: with any
parentheses that stand for it and with trailing commas. Whatever is so
written is read as that type (`reads_type`).

`[]` is a suffix, so a type is not read where its text ends: after the first
part, `arraySuffixes` goes on. The induction therefore says that reading a
type *amounts to* going on after it (`TypePhrase.Continues`).
-/

namespace Exemplar

open Reading

/-- A type, or types with commas between them. -/
inductive TypePhrase where
  | type (t : TypeExpr)
  | list (ts : List TypeExpr)

inductive TypeForm : TypePhrase → List Kind → Prop where
  | path (first : String) (parts : List String) :
      TypeForm (.type (.ofName (joinPath first parts)))
        (.ident first :: dottedKinds parts)
  | parens {ts ks} (items : TypeForm (.list ts) ks) :
      TypeForm (.type (typeOfList ts))
        (.mark .lParen :: (ks ++ [.mark .rParen]))
  | array {t ks} (item : TypeForm (.type t) ks) :
      TypeForm (.type (.array t)) (ks ++ [.mark .lBracket, .mark .rBracket])
  | nil : TypeForm (.list []) []
  | one {t ks} (item : TypeForm (.type t) ks) : TypeForm (.list [t]) ks
  | cons {t ts ks ks'} (item : TypeForm (.type t) ks)
      (items : TypeForm (.list ts) ks') :
      TypeForm (.list (t :: ts)) (ks ++ .mark .comma :: ks')

/-- Types start with a name or a parenthesis. -/
theorem TypeForm.starts {t : TypeExpr} {ks : List Kind}
    (h : TypeForm (.type t) ks) :
    ∃ k ks', ks = k :: ks' ∧ (k = .mark .lParen ∨ ∃ text, k = .ident text) := by
  generalize hphrase : TypePhrase.type t = phrase at h
  induction h generalizing t with
  | path first parts => exact ⟨_, _, rfl, Or.inr ⟨first, rfl⟩⟩
  | parens items => exact ⟨_, _, rfl, Or.inl rfl⟩
  | array item ih =>
      obtain ⟨k, ks', rfl, hk⟩ := ih rfl
      exact ⟨k, _, rfl, hk⟩
  | nil | one | cons => cases hphrase

/-- Nothing that continues a type is ahead. -/
def EndsType (rest : List Kind) : Prop :=
  rest.headD .eof ≠ .mark .dot ∧ rest.headD .eof ≠ .mark .lBracket

/-- Reading the phrase amounts to going on after it: with the suffixes of a
type, or at the parenthesis that closes a list. -/
def TypePhrase.Continues (ks : List Kind) : TypePhrase → Prop
  | .type t => ∀ {n : Nat} {rest final : List Kind} {Q : TypeExpr → Prop},
      4 * (ks ++ rest).length + 4 ≤ n → rest.headD .eof ≠ .mark .dot →
        (∀ m, rest.length ≤ m → Reads (arraySuffixes m t) rest final Q) →
          Reads (typeWithin n) (ks ++ rest) final Q
  | .list ts => ∀ {n : Nat} {rest : List Kind},
      4 * (ks ++ .mark .rParen :: rest).length + 5 ≤ n →
        Reads (typesWithin n) (ks ++ .mark .rParen :: rest)
          (.mark .rParen :: rest)
          fun v => v = ts

theorem reads_arraySuffixes {rest : List Kind} (hrest : EndsType rest)
    (t : TypeExpr) (m : Nat) :
    Reads (arraySuffixes m t) rest rest fun v => v = t := by
  cases m with
  | zero => exact .pure rfl
  | succ m => exact .eat_bind_of_ne hrest.2 (.pure rfl)

/-- A list that is not empty is read item by item. -/
theorem reads_typesWithin_item {t : TypeExpr} {ks rest final : List Kind}
    {Q : List TypeExpr → Prop} {n : Nat} (hform : TypeForm (.type t) ks)
    (ht : TypePhrase.Continues ks (.type t))
    (hn : 4 * (ks ++ rest).length + 5 ≤ n) (hrest : EndsType rest)
    (hgo : ∀ m, m + 1 = n → Reads (do
      if ← eat (.mark .comma) then
        let items ← typesWithin m
        return t :: items
      return [t]) rest final Q) :
    Reads (typesWithin n) (ks ++ rest) final Q := by
  obtain ⟨k, ks', rfl, hk⟩ := hform.starts
  cases n with
  | zero => omega
  | succ m =>
      have hitem : Reads (typeWithin m) (k :: ks' ++ rest) rest fun v =>
        v = t :=
        ht (by omega) hrest.1 fun m' _ => reads_arraySuffixes hrest t m'
      refine .peek_bind ?_
      rcases hk with rfl | ⟨text, rfl⟩
      · exact .bind hitem fun v hv => by rw [hv]; exact hgo m rfl
      · exact .bind hitem fun v hv => by rw [hv]; exact hgo m rfl

theorem TypeForm.continues {phrase : TypePhrase} {ks : List Kind}
    (h : TypeForm phrase ks) :
    TypePhrase.Continues ks phrase := by
  induction h with
  | path first parts =>
      intro n rest final Q hn hrest hgo
      cases n with
      | zero => omega
      | succ n =>
          refine .peek_bind
            (.bind (reads_path hrest first parts) fun v hv => ?_)
          rw [hv]
          apply hgo
          simp only [List.length_append] at hn
          omega
  | @parens ts ks items ih =>
      intro n rest final Q hn hrest hgo
      cases n with
      | zero => omega
      | succ n =>
          rw [List.cons_append, List.append_assoc, List.singleton_append]
          simp only [List.length_append, List.length_cons,
            List.length_nil] at hn
          refine .peek_bind
            (.advance_bind (.bind (ih ?_) fun v hv => .mark_bind ?_))
          · simp only [List.length_append, List.length_cons]
            omega
          · rw [hv]
            exact hgo n (by omega)
  | @array t ks item ih =>
      intro n rest final Q hn hrest hgo
      rw [List.append_assoc] at hn ⊢
      refine ih hn (by simp) fun m hm => ?_
      cases m with
      | zero => simp at hm
      | succ m =>
          refine .eat_bind (.mark_bind (hgo m ?_))
          simp only [List.cons_append, List.nil_append, List.length_cons] at hm
          omega
  | nil =>
      intro n rest hn
      cases n with
      | zero => omega
      | succ n => exact .peek_bind (.pure rfl)
  | one item ih =>
      intro n rest hn
      refine reads_typesWithin_item item ih hn ⟨by simp, by simp⟩ fun m _ => ?_
      exact .eat_bind_of_ne (by simp) (.pure rfl)
  | @cons t ts ks ks' item items ih ihs =>
      intro n rest hn
      rw [List.append_assoc] at hn ⊢
      refine reads_typesWithin_item item ih hn ⟨by simp, by simp⟩ fun m hm => ?_
      refine .eat_bind (.bind (ihs ?_) fun v hv => .pure (by rw [hv]))
      simp only [List.cons_append, List.length_append, List.length_cons] at hn ⊢
      omega

/-- **Types are read as written.** -/
theorem reads_type {t : TypeExpr} {ks rest : List Kind}
    (h : TypeForm (.type t) ks) (hrest : EndsType rest) :
    Reads type (ks ++ rest) rest fun v => v = t :=
  .of_length (r := fun n => typeWithin (4 * n + 4))
    (h.continues (Nat.le_refl _) hrest.1 fun m _ =>
      reads_arraySuffixes hrest t m)

end Exemplar
