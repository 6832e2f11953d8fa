import Exemplar.Proofs.Token.Spans
import Exemplar.Tree.Declaration

/-!
# The spans of trees

All spans that a syntax tree carries, as a list, for each kind of tree. The
span of a block as a whole is left out: nothing is ever reported there.
-/

namespace Exemplar

/-- All spans lie between two offsets. -/
def Inside (low high : Nat) (ss : List Span) : Prop :=
  ∀ s ∈ ss, s.Between low high

section

variable {low low' high : Nat} {s : Span} {ss ts : List Span}

theorem Inside.mono (h : Inside low high ss) (hlow : low' ≤ low) :
    Inside low' high ss :=
  fun s hs => (h s hs).mono hlow

theorem Inside.mono_high {high' : Nat} (h : Inside low high ss)
    (hhigh : high ≤ high') :
    Inside low high' ss :=
  fun s hs => (h s hs).mono_high hhigh

@[simp] theorem inside_nil : Inside low high [] := nofun

@[simp] theorem inside_cons :
    Inside low high (s :: ss) ↔ s.Between low high ∧ Inside low high ss :=
  List.forall_mem_cons

@[simp] theorem inside_append :
    Inside low high (ss ++ ts) ↔ Inside low high ss ∧ Inside low high ts :=
  List.forall_mem_append

end

/-! ## Expressions -/

mutual

def Expr.spans : Expr → List Span
  | .literal s _ | .path s _ => [s]
  | .binary s _ left right => s :: (left.spans ++ right.spans)
  | .unary s _ operand => s :: operand.spans
  | .call s callee args => s :: (callee.spans ++ Expr.spansAll args)
  | .index s target subscript => s :: (target.spans ++ subscript.spans)
  | .tuple s items | .array s items => s :: Expr.spansAll items

def Expr.spansAll : List Expr → List Span
  | [] => []
  | e :: es => e.spans ++ Expr.spansAll es

end

/-! ## Statements -/

mutual

def Stmt.spans : Stmt → List Span
  | .expr s value | .bind s _ _ value | .assign s _ value
      | .ret s (some value) =>
    s :: value.spans
  | .ret s none => [s]
  | .ifThen s test body => s :: (test.spans ++ Stmt.spansAll body)
  | .ifElse s test body other =>
    s :: (test.spans ++ Stmt.spansAll body ++ Stmt.spansAll other)
  | .loop s _ items body => s :: (items.spans ++ Stmt.spansAll body)

def Stmt.spansAll : List Stmt → List Span
  | [] => []
  | s :: ss => s.spans ++ Stmt.spansAll ss

end

/-! ## Declarations -/

def bodySpans (body : Option (List Stmt)) : List Span :=
  (body.map Stmt.spansAll).getD []

def Callable.spans (c : Callable) : List Span :=
  c.attributes.map Attribute.span ++ c.params.map Param.span ++ bodySpans c.body

def Detail.spans : Detail → List Span
  | .newtype _ attributes => attributes.map Attribute.span
  | .callable c => c.spans
  | .specialization _ body => bodySpans body

def Declaration.spans (d : Declaration) : List Span := d.span :: d.detail.spans

def Block.spans (b : Block) : List Span :=
  b.opens.map Open.span ++ b.decls.flatMap Declaration.spans

end Exemplar
