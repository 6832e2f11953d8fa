import Exemplar.Proofs.Grammar.BlockExtents
import Exemplar.Proofs.Token.Coverage

/-!
# Statements start one behind the other

In a body that was read from a text, no two statements of a block start at the
same place, however many faults the text has (`rises_of_mem_decls`). The spans
do not say so, as they need not nest where a body breaks off. But a statement
starts where the first of its tokens does, whatever is left out between the
statements, and the tokens of a text start one behind the other.
-/

namespace Exemplar

open Reading

/-! ## Statements in order -/

mutual

/-- In every block inside the statement, statements start one behind the
other. -/
def Stmt.Rises : Stmt → Prop
  | .expr .. | .bind .. | .assign .. | .ret .. => True
  | .ifThen _ _ body | .loop _ _ _ body => Stmt.RiseFrom 0 body
  | .ifElse _ _ body other => Stmt.RiseFrom 0 body ∧ Stmt.RiseFrom 0 other

/-- The statements of a block start one behind the other, the first one at
`low` or behind it, and so do those of the blocks inside them. -/
def Stmt.RiseFrom : Nat → List Stmt → Prop
  | _, [] => True
  | low, s :: ss =>
      low ≤ s.span.start ∧ s.Rises ∧ Stmt.RiseFrom (s.span.start + 1) ss

end

/-- The body of the declaration, if it has one. -/
def Declaration.Rises (d : Declaration) : Prop :=
  match d.detail with
  | .newtype .. => True
  | .callable c => ∀ body ∈ c.body, Stmt.RiseFrom 0 body
  | .specialization _ body => ∀ ss ∈ body, Stmt.RiseFrom 0 ss

/-! ## Tokens in order -/

/-- The tokens start one behind the other. -/
def Rising (ts : List Token) : Prop :=
  ts.Pairwise fun t t' => t.span.start < t'.span.start

namespace Rising

variable {ts us : List Token}

theorem left (h : Rising (ts ++ us)) : Rising ts :=
  (List.pairwise_append.mp h).1

theorem right (h : Rising (ts ++ us)) : Rising us :=
  (List.pairwise_append.mp h).2.1

theorem of_infix (h : Rising ts) (hus : us <:+: ts) : Rising us :=
  h.sublist hus.sublist

end Rising

theorem Scan.rising_ofText (text : String) : Rising (Scan.ofText text).tokens :=
  (Scan.pairwise_ofText text).imp And.left

/-- What is enclosed starts where one of its tokens does. -/
theorem Span.Encloses.exists_start {s : Span} {ts : List Token}
    (h : s.Encloses ts) :
    ∃ t ∈ ts, t.span.start = s.start := by
  obtain ⟨t, ht, hstart⟩ := Option.map_eq_some_iff.mp h.start
  exact ⟨t, List.mem_of_mem_head? ht, hstart⟩

/-! ## Statements and their tokens -/

/-- A statement rises. Statements in a row do so from wherever their tokens
do. -/
def StmtPart.Rises (ts : List Token) : StmtPart → Prop
  | .stmt s | .cond s => s.Rises
  | .body ss | .stmts ss =>
      ∀ low, (∀ t ∈ ts, low ≤ t.span.start) → Stmt.RiseFrom low ss

theorem StmtPart.Rises.body {ss : List Stmt} {ts : List Token}
    (h : StmtPart.Rises ts (.body ss)) : Stmt.RiseFrom 0 ss :=
  h 0 fun _ _ => Nat.zero_le _

theorem StmtTokens.rises {p : Proviso} {φ : StmtPart} {ts : List Token}
    (h : StmtTokens p φ ts) (hts : Rising ts) : φ.Rises ts := by
  induction h with
  | expr _ _ _ | bind _ _ _ | assign _ _ _ | ret _ _ _ | retValue _ _ _ _ =>
      trivial
  | loop _ _ _ _ _ _ body => exact (body hts.right).body
  | cond _ ih => exact ih hts
  | ifThen _ _ _ _ body => exact (body hts.right).body
  | ifElse _ _ _ _ _ _ body other =>
      exact ⟨(body hts.left.left.right).body, (other hts.right).body⟩
  | elseIf _ _ _ _ _ _ body other =>
      exact ⟨(body hts.left.left.right).body, Nat.zero_le _,
        other hts.right, trivial⟩
  | body _ _ _ stmts =>
      intro low hlow
      exact stmts hts.left.right low fun t ht =>
        hlow t (List.mem_append_left _ (List.mem_append_right _ ht))
  | nil _ => exact fun _ _ => trivial
  | @cons s ss gap ts us _ hstmt _ stmt stmts =>
      intro low hlow
      obtain ⟨first, hfirst, hstart⟩ := hstmt.encloses.exists_start
      have hfirst : first ∈ gap ++ ts := List.mem_append_right _ hfirst
      obtain ⟨-, -, hbehind⟩ := List.pairwise_append.mp hts
      refine ⟨hstart ▸ hlow first (List.mem_append_left _ hfirst),
        stmt hts.left.right, stmts hts.right _ fun t ht => ?_⟩
      exact hstart ▸ hbehind first hfirst t ht

/-! ## Declarations -/

theorem BodyTokens.rises {p : Proviso} {body : Option (List Stmt)}
    {ts : List Token} (h : BodyTokens p body ts) (hts : Rising ts) :
    ∀ ss ∈ body, Stmt.RiseFrom 0 ss := by
  cases h with
  | header _ => nofun
  | body h => exact fun ss hss => Option.some.inj hss ▸ (h.rises hts).body

theorem DeclTokens.rises {p : Proviso} {d : Declaration} {ts : List Token}
    (h : DeclTokens p d ts) (hts : Rising ts) : d.Rises := by
  cases h with
  | newtype => trivial
  | callable _ _ _ _ _ _ _ body _ => exact body.rises hts.right
  | specialization _ _ body _ => exact body.rises hts.right

/-- In the bodies of a text, statements start one behind the other. -/
theorem rises_of_mem_decls {text : String} {origin : Origin} {b : Block}
    {d : Declaration} (hb : b ∈ (parseText text origin).blocks)
    (hd : d ∈ b.decls) : d.Rises := by
  obtain ⟨is, us, hhas, hus, his⟩ := exists_items (p := .any) nofun trivial hb
  rw [hhas.decls, List.mem_filterMap] at hd
  obtain ⟨i, hi, hd⟩ := hd
  obtain ⟨vs, hvs, hitem⟩ := his.exists_of_mem hi
  have hrising := Scan.rising_ofText text
  rw [Scan.tokens_ofText] at hrising
  have hrising := hrising.left.of_infix (hvs.trans hus)
  cases hitem with
  | opening => cases hd
  | decl _ hdecl =>
      obtain rfl := Option.some.inj hd
      exact hdecl.rises hrising.right

end Exemplar
