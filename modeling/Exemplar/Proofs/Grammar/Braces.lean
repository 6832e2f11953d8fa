import Exemplar.Proofs.Grammar.Acceptance
import Exemplar.Proofs.Token.Words
import Exemplar.Workspace

/-!
# Braces

In a word of the grammar every brace is closed, and none is closed that was
not opened (`Derives.level`). So in a text without faults that starts with a
namespace block, the brace that leaves none open is the end of that block; if
it is the last token (`closesLast`), there is nothing but the block
(`name_of_closesLast`).
-/

namespace Exemplar

open Reading

/-! ## Closing braces -/

/-- With the given number of braces open, a brace that leaves none open comes
last, before the end of the text. -/
def closesLast : Nat → List Kind → Bool
  | _, [] => true
  | depth, .mark .lBrace :: ks => closesLast (depth + 1) ks
  | depth + 2, .mark .rBrace :: ks => closesLast (depth + 1) ks
  | _, .mark .rBrace :: ks => ks == [.eof]
  | depth, _ :: ks => closesLast depth ks

/-- The kind is neither of the two braces. -/
def Kind.isPlain (k : Kind) : Bool := k != .mark .lBrace && k != .mark .rBrace

theorem closesLast_cons_of_isPlain {k : Kind} (hk : k.isPlain = true)
    (depth : Nat) (ks : List Kind) :
    closesLast depth (k :: ks) = closesLast depth ks := by
  unfold Kind.isPlain at hk
  cases k with
  | mark sign => cases sign <;> first | rfl | cases hk
  | _ => rfl

theorem closesLast_append_of_isPlain (depth : Nat) (rest : List Kind) :
    ∀ {ks : List Kind}, ks.all Kind.isPlain = true →
      closesLast depth (ks ++ rest) = closesLast depth rest
  | [], _ => rfl
  | k :: ks, h => by
      obtain ⟨hk, hks⟩ := Bool.and_eq_true_iff.mp h
      rw [List.cons_append, closesLast_cons_of_isPlain hk,
        closesLast_append_of_isPlain depth rest hks]

theorem lBrace_not_mem_of_isPlain {ks : List Kind}
    (h : ks.all Kind.isPlain = true) :
    .mark .lBrace ∉ ks :=
  fun hmem => nomatch List.all_eq_true.mp h _ hmem

/-- The kinds leave open what was open, and no more. -/
def Level (ks : List Kind) : Prop :=
  ∀ depth rest, closesLast (depth + 1) (ks ++ rest)
    = closesLast (depth + 1) rest

namespace Level

theorem append {ks ks' : List Kind} (h : Level ks) (h' : Level ks') :
    Level (ks ++ ks') := by
  intro depth rest
  rw [List.append_assoc, h, h']

theorem cons {k : Kind} {ks : List Kind} (hk : k.isPlain = true)
    (h : Level ks) :
    Level (k :: ks) := by
  intro depth rest
  rw [List.cons_append, closesLast_cons_of_isPlain hk, h]

theorem of_plain {ks : List Kind} (h : ks.all Kind.isPlain = true) : Level ks :=
  fun _ rest => closesLast_append_of_isPlain _ rest h

theorem braces {ks : List Kind} (h : Level ks) :
    Level (.mark .lBrace :: (ks ++ [.mark .rBrace])) := by
  intro depth rest
  rw [List.cons_append, List.append_assoc, closesLast, h, List.singleton_append,
    closesLast]

end Level

theorem isPlain_dottedKinds (parts : List String) :
    (dottedKinds parts).all Kind.isPlain = true := by
  rw [dottedKinds, List.all_flatMap]
  exact List.all_eq_true.mpr fun _ _ => rfl

theorem isPlain_docKinds (lines : List String) :
    (docKinds lines).all Kind.isPlain = true := by
  rw [docKinds, List.all_map]
  exact List.all_eq_true.mpr fun _ _ => rfl

theorem isPlain_pathWords (path : String) :
    (pathWords path).all Kind.isPlain = true := by
  refine List.all_eq_true.mpr fun k hk => ?_
  cases k with
  | mark sign =>
      rw [mark_of_mem_pathWords hk]
      rfl
  | literal _ | ident _ | doc _ | keyword _ | eof => rfl

/-- **The grammar closes the braces it opens.** -/
theorem Derives.level {s : Symbol} {ks : List Kind} (h : Derives s ks) :
    Level ks := by
  induction h with
  | file _ ih | topNamespace _ ih | topItem _ ih | bodyBlock _ ih
  | typePath _ ih | stmtCond _ ih
  | exprUnary _ ih | unarySuffixed _ ih | suffixedPrimary _ ih
  | primaryPath _ ih
  | listOne _ ih => exact ih
  | namespaceBlock _ _ ih ih' => exact .cons rfl (ih.append ih'.braces)
  | block _ ih => exact ih.braces
  | opening _ ih => exact .cons rfl (ih.append (.of_plain rfl))
  | openingAs _ _ ih ih' =>
      exact .cons rfl (ih.append (.cons rfl (ih'.append (.of_plain rfl))))
  | specialization variant _ _ ih ih' => exact .cons rfl (ih.append ih')
  | newtype _ _ _ ih ih' =>
      exact ih.append
        (.cons rfl (.cons rfl (.cons rfl (ih'.append (.of_plain rfl)))))
  | callable _ kind _ _ _ _ ih₁ ih₂ ih₃ ih₄ =>
      exact ih₁.append (.cons rfl (.cons rfl (.cons rfl (ih₂.append
        (.cons rfl (.cons rfl (ih₃.append ih₄)))))))
  | attributesNil | bodyHeader | ret | literal | listNil => exact .of_plain rfl
  | attributesCons _ lines _ ih ih' =>
      exact ih.append ((Level.of_plain (isPlain_docKinds lines)).append ih')
  | attr _ argument ih =>
      have hargument : (argumentKinds argument).all Kind.isPlain = true := by
        cases argument <;> rfl
      exact .cons rfl
        (ih.append
          (.cons rfl ((Level.of_plain hargument).append (.of_plain rfl))))
  | param _ _ ih => exact .cons rfl (.cons rfl ih)
  | path first parts => exact .cons rfl (.of_plain (isPlain_dottedKinds parts))
  | typeParens _ ih | parens _ ih | array _ ih =>
      exact .cons rfl (ih.append (.of_plain rfl))
  | typeArray _ ih | stmtExpr _ ih => exact ih.append (.of_plain rfl)
  | binding _ _ _ ih =>
      exact .cons rfl (.cons rfl (.cons rfl (ih.append (.of_plain rfl))))
  | retValue _ ih => exact .cons rfl (ih.append (.of_plain rfl))
  | loop _ _ _ ih ih' => exact .cons rfl (.cons rfl (.cons rfl (ih.append ih')))
  | ifThen _ _ ih ih' => exact .cons rfl (ih.append ih')
  | ifElse _ _ _ ih ih' ih'' | elseIf _ _ _ ih ih' ih'' =>
      exact .cons rfl (ih.append (ih'.append (.cons rfl ih'')))
  | exprBinary _ op _ ih ih' =>
      exact ih.append (.cons (by cases op <;> rfl) ih')
  | unaryOp op _ ih => exact .cons (by cases op <;> rfl) ih
  | call _ _ ih ih' | index _ _ ih ih' =>
      exact ih.append (.cons rfl (ih'.append (.of_plain rfl)))
  | listCons _ _ ih ih' => exact ih.append (.cons rfl ih')
  | runNil lines => exact .of_plain (isPlain_docKinds lines)
  | runCons lines _ _ ih ih' =>
      exact (Level.of_plain (isPlain_docKinds lines)).append (ih.append ih')

/-! ## Clean units -/

theorem errors_eq_nil_of_isClean {u : SourceUnit} (h : u.parse.isClean = true) :
    (Scan.ofText u.text).errors = []
      ∧ (Parsed.ofTokens (Scan.ofText u.text).tokens u.origin).faults = [] := by
  simpa [ParsedUnit.isClean, SourceUnit.parse] using h

/-- The text of a clean unit is a word of the grammar. -/
theorem derives_of_isClean {u : SourceUnit} (h : u.parse.isClean = true) :
    Derives (.run .topLevel) (kindsOf u.text.toList) := by
  obtain ⟨herrors, hfaults⟩ := errors_eq_nil_of_isClean h
  exact derives_of_faults_eq_nil u.origin (Scan.kinds_ofText herrors)
    (eof_not_mem_kindsOf u.text.toList) hfaults

/-- A text that starts with `namespace` starts with a namespace block. -/
theorem Derives.exists_block {ks : List Kind}
    (h : Derives (.run .topLevel) (.keyword .namespace :: ks)) :
    ∃ path items rest, ks
      = path ++ .mark .lBrace :: (items ++ .mark .rBrace :: rest)
      ∧ Derives .path path ∧ Derives (.run .item) items := by
  generalize hall : Kind.keyword .namespace :: ks = all at h
  cases h with
  | runNil lines => cases lines <;> cases hall
  | @runCons _ ks₁ rest lines first others =>
      cases lines with
      | cons line lines => cases hall
      | nil =>
          cases first with
          | topNamespace h =>
              cases h with
              | @namespaceBlock path items name run =>
                  refine ⟨path, items, rest, ?_, name, run⟩
                  have htail := (List.cons.inj hall).2
                  rw [htail]
                  simp
          | topItem h =>
              -- no item starts with that keyword
              obtain ⟨i, hi⟩ := h.hasTree ⟨.primary "", ""⟩ []
              obtain ⟨k, ks₂, rfl, hk⟩ := hi.starts
              obtain rfl := (List.cons.inj hall).1
              cases hk

theorem cut_unique {α : Type} {a : α} {xs ys as bs : List α} (hxs : a ∉ xs)
    (hys : a ∉ ys) (h : xs ++ a :: as = ys ++ a :: bs) : xs = ys ∧ as = bs := by
  rcases List.append_eq_append_iff.mp h with ⟨cs, hcs, hrest⟩ | ⟨cs, hcs, hrest⟩
  all_goals
    cases cs with
    | nil => simp_all
    | cons c cs =>
        obtain rfl := (List.cons.inj hrest).1
        simp_all

/-- The first line of a block, cut in one way. -/
theorem pathWords_unique {space first : String} {parts : List String}
    {ks ks' : List Kind}
    (h : pathWords space ++ .mark .lBrace :: ks
      = .ident first :: dottedKinds parts ++ .mark .lBrace :: ks') :
    joinPath first parts = space
      ∧ pathWords space = .ident first :: dottedKinds parts ∧ ks = ks' := by
  have hplain : (Kind.ident first :: dottedKinds parts).all Kind.isPlain
      = true :=
    isPlain_dottedKinds parts
  obtain ⟨hwords, hrest⟩ := cut_unique
    (lBrace_not_mem_of_isPlain (isPlain_pathWords space))
    (lBrace_not_mem_of_isPlain hplain) h
  exact ⟨joinPath_of_pathWords hwords, hwords, hrest⟩

/-- **A block that is not left.** When a clean unit starts with the first line
of a block, and a brace that leaves none open is its last token, then the
blocks of the unit have the name in that line. -/
theorem name_of_closesLast {u : SourceUnit} {space : String} {more : List Char}
    (htext : u.text.toList = ("namespace " ++ space ++ " \x7b").toList ++ more)
    (hspace : isNamePath space = true) (hclean : u.parse.isClean = true)
    (hlast : closesLast 0 ((Scan.ofText u.text).tokens.map Token.kind) = true)
    {b : Block} (hb : b ∈ u.parse.blocks) : b.name = space := by
  have htokens := Scan.kinds_ofText (errors_eq_nil_of_isClean hclean).1
  have hword := derives_of_isClean hclean
  have hkinds := kindsOf_namespace hspace more
  rw [← htext] at hkinds
  rw [hkinds] at htokens hword
  obtain ⟨path, items, rest, hcut, hpath, hitems⟩ := hword.exists_block
  cases hpath with
  | path first parts =>
      obtain ⟨hname, hwords, hbody⟩ := pathWords_unique hcut
      -- the brace of the block leaves none open, so nothing follows it
      have hrest : rest = [] := by
        rw [htokens, hbody, List.cons_append, closesLast_cons_of_isPlain rfl,
          List.append_assoc,
          closesLast_append_of_isPlain _ _ (isPlain_pathWords space),
          List.cons_append, closesLast, List.append_assoc, hitems.level,
          List.cons_append] at hlast
        have hend : (rest ++ [.eof] == [.eof]) = true := hlast
        simpa using hend
      obtain ⟨is, his⟩ := hitems.hasTree ⟨u.origin, joinPath first parts⟩
      have hform : TopsForm u.origin _ _ := .block [] first parts his (.nil [])
      rw [hwords, hbody, hrest] at htokens
      have hblocks := (parsed_of_form htokens hform).2
      have hmem : b.bare
        ∈ (Parsed.ofTokens (Scan.ofText u.text).tokens u.origin).blocks.map
          Block.bare := List.mem_map_of_mem hb
      rw [hblocks] at hmem
      have hbare := List.mem_singleton.mp hmem
      have hsame : b.bare.name = b.name := rfl
      rw [← hsame, hbare, Block.addItems_eq]
      exact hname

end Exemplar
