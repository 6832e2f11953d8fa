import Exemplar.Tree.Expr

/-!
# Statements

The syntax trees of callable bodies. An `else if` is an `else` branch of one
statement.
-/

namespace Exemplar

inductive Stmt where
  /-- An expression by itself: `value;`. -/
  | expr (span : Span) (value : Expr)
  /-- A binding: `let name = value;`, or `mutable name = value;`. -/
  | bind (span : Span) (name : String) (isMutable : Bool) (value : Expr)
  /-- An assignment: `set name = value;`. -/
  | assign (span : Span) (name : String) (value : Expr)
  /-- A return: `return;`, or `return value;`. -/
  | ret (span : Span) (value : Option Expr)
  /-- A conditional without alternative: `if test { body }`. -/
  | ifThen (span : Span) (test : Expr) (body : List Stmt)
  /-- A conditional: `if test { body } else { other }`. -/
  | ifElse (span : Span) (test : Expr) (body other : List Stmt)
  /-- A loop: `for name in items { body }`. -/
  | loop (span : Span) (name : String) (items : Expr) (body : List Stmt)
deriving Repr

namespace Stmt

def span : Stmt → Span
  | .expr s _ | .bind s .. | .assign s .. | .ret s _ | .ifThen s ..
  | .ifElse s .. | .loop s .. => s

mutual

def decEq : (a b : Stmt) → Decidable (a = b)
  | .expr s v, .expr t w =>
    decidable_of_iff (s = t ∧ v = w) (by simp)
  | .bind s n m v, .bind t o k w =>
    decidable_of_iff (s = t ∧ n = o ∧ m = k ∧ v = w) (by simp)
  | .assign s n v, .assign t o w =>
    decidable_of_iff (s = t ∧ n = o ∧ v = w) (by simp)
  | .ret s v, .ret t w =>
    decidable_of_iff (s = t ∧ v = w) (by simp)
  | .ifThen s v as, .ifThen t w bs =>
    have := decEqList as bs
    decidable_of_iff (s = t ∧ v = w ∧ as = bs) (by simp)
  | .ifElse s v as cs, .ifElse t w bs ds =>
    have := decEqList as bs
    have := decEqList cs ds
    decidable_of_iff (s = t ∧ v = w ∧ as = bs ∧ cs = ds) (by simp)
  | .loop s n v as, .loop t o w bs =>
    have := decEqList as bs
    decidable_of_iff (s = t ∧ n = o ∧ v = w ∧ as = bs) (by simp)
  | .expr .., .bind .. | .expr .., .assign .. | .expr .., .ret ..
  | .expr .., .ifThen .. | .expr .., .ifElse .. | .expr .., .loop ..
  | .bind .., .expr .. | .bind .., .assign .. | .bind .., .ret ..
  | .bind .., .ifThen .. | .bind .., .ifElse .. | .bind .., .loop ..
  | .assign .., .expr .. | .assign .., .bind .. | .assign .., .ret ..
  | .assign .., .ifThen .. | .assign .., .ifElse .. | .assign .., .loop ..
  | .ret .., .expr .. | .ret .., .bind .. | .ret .., .assign ..
  | .ret .., .ifThen .. | .ret .., .ifElse .. | .ret .., .loop ..
  | .ifThen .., .expr .. | .ifThen .., .bind .. | .ifThen .., .assign ..
  | .ifThen .., .ret .. | .ifThen .., .ifElse .. | .ifThen .., .loop ..
  | .ifElse .., .expr .. | .ifElse .., .bind .. | .ifElse .., .assign ..
  | .ifElse .., .ret .. | .ifElse .., .ifThen .. | .ifElse .., .loop ..
  | .loop .., .expr .. | .loop .., .bind .. | .loop .., .assign ..
  | .loop .., .ret .. | .loop .., .ifThen .. | .loop .., .ifElse .. =>
    isFalse (by simp)

def decEqList : (as bs : List Stmt) → Decidable (as = bs)
  | [], [] => isTrue rfl
  | [], _ :: _ | _ :: _, [] => isFalse (by simp)
  | a :: as, b :: bs =>
    have := decEq a b
    have := decEqList as bs
    decidable_of_iff (a = b ∧ as = bs) (by simp)

end

instance : DecidableEq Stmt := decEq

end Stmt

end Exemplar
