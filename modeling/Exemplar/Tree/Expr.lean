import Exemplar.Token.Basic

/-!
# Expressions

The syntax trees of expressions. Every node carries the span it was read
from; a parenthesised expression is the node inside with the span of the
parentheses.
-/

namespace Exemplar

/-- Operators between two operands. -/
inductive BinaryOp where
  | add
  | sub
  | mul
  | div
  | mod
  | eq
  | ne
  | lt
  | le
  | gt
  | ge
  | and
  | or
deriving Repr, DecidableEq

/-- Operators before one operand. -/
inductive UnaryOp where
  | neg
  | not
deriving Repr, DecidableEq

def BinaryOp.text : BinaryOp → String
  | .add => "+"
  | .sub => "-"
  | .mul => "*"
  | .div => "/"
  | .mod => "%"
  | .eq => "=="
  | .ne => "!="
  | .lt => "<"
  | .le => "<="
  | .gt => ">"
  | .ge => ">="
  | .and => "and"
  | .or => "or"

def UnaryOp.text : UnaryOp → String
  | .neg => "-"
  | .not => "not"

/-- An expression. A path is a name, dotted or not; the empty tuple is the
unit value. -/
inductive Expr where
  | literal (span : Span) (value : Literal)
  | path (span : Span) (name : String)
  | binary (span : Span) (op : BinaryOp) (left right : Expr)
  | unary (span : Span) (op : UnaryOp) (operand : Expr)
  | call (span : Span) (callee : Expr) (args : List Expr)
  | index (span : Span) (target subscript : Expr)
  | tuple (span : Span) (items : List Expr)
  | array (span : Span) (items : List Expr)
deriving Repr

namespace Expr

def span : Expr → Span
  | .literal s _ | .path s _ | .binary s .. | .unary s .. | .call s ..
  | .index s .. | .tuple s _ | .array s _ => s

def withSpan (s : Span) : Expr → Expr
  | .literal _ value => .literal s value
  | .path _ name => .path s name
  | .binary _ op left right => .binary s op left right
  | .unary _ op operand => .unary s op operand
  | .call _ callee args => .call s callee args
  | .index _ target subscript => .index s target subscript
  | .tuple _ items => .tuple s items
  | .array _ items => .array s items

@[simp] theorem span_withSpan (s : Span) (e : Expr) :
    (e.withSpan s).span = s := by
  cases e <;> rfl

mutual

def decEq : (a b : Expr) → Decidable (a = b)
  | .literal s v, .literal t w => decidable_of_iff (s = t ∧ v = w) (by simp)
  | .path s v, .path t w => decidable_of_iff (s = t ∧ v = w) (by simp)
  | .binary s p a b, .binary t q c d =>
    have := decEq a c
    have := decEq b d
    decidable_of_iff (s = t ∧ p = q ∧ a = c ∧ b = d) (by simp)
  | .unary s p a, .unary t q b =>
    have := decEq a b
    decidable_of_iff (s = t ∧ p = q ∧ a = b) (by simp)
  | .call s a as, .call t b bs =>
    have := decEq a b
    have := decEqList as bs
    decidable_of_iff (s = t ∧ a = b ∧ as = bs) (by simp)
  | .index s a b, .index t c d =>
    have := decEq a c
    have := decEq b d
    decidable_of_iff (s = t ∧ a = c ∧ b = d) (by simp)
  | .tuple s as, .tuple t bs =>
    have := decEqList as bs
    decidable_of_iff (s = t ∧ as = bs) (by simp)
  | .array s as, .array t bs =>
    have := decEqList as bs
    decidable_of_iff (s = t ∧ as = bs) (by simp)
  | .literal .., .path .. | .literal .., .binary .. | .literal .., .unary ..
  | .literal .., .call .. | .literal .., .index .. | .literal .., .tuple ..
  | .literal .., .array ..
  | .path .., .literal .. | .path .., .binary .. | .path .., .unary ..
  | .path .., .call .. | .path .., .index .. | .path .., .tuple ..
  | .path .., .array ..
  | .binary .., .literal .. | .binary .., .path .. | .binary .., .unary ..
  | .binary .., .call .. | .binary .., .index .. | .binary .., .tuple ..
  | .binary .., .array ..
  | .unary .., .literal .. | .unary .., .path .. | .unary .., .binary ..
  | .unary .., .call .. | .unary .., .index .. | .unary .., .tuple ..
  | .unary .., .array ..
  | .call .., .literal .. | .call .., .path .. | .call .., .binary ..
  | .call .., .unary .. | .call .., .index .. | .call .., .tuple ..
  | .call .., .array ..
  | .index .., .literal .. | .index .., .path .. | .index .., .binary ..
  | .index .., .unary .. | .index .., .call .. | .index .., .tuple ..
  | .index .., .array ..
  | .tuple .., .literal .. | .tuple .., .path .. | .tuple .., .binary ..
  | .tuple .., .unary .. | .tuple .., .call .. | .tuple .., .index ..
  | .tuple .., .array ..
  | .array .., .literal .. | .array .., .path .. | .array .., .binary ..
  | .array .., .unary .. | .array .., .call .. | .array .., .index ..
  | .array .., .tuple .. =>
    isFalse (by simp)

def decEqList : (as bs : List Expr) → Decidable (as = bs)
  | [], [] => isTrue rfl
  | [], _ :: _ | _ :: _, [] => isFalse (by simp)
  | a :: as, b :: bs =>
    have := decEq a b
    have := decEqList as bs
    decidable_of_iff (a = b ∧ as = bs) (by simp)

end

instance : DecidableEq Expr := decEq

end Expr

end Exemplar
