import Exemplar.Grammar.Reading
import Exemplar.Tree.Expr

/-!
# Reading expressions

Operators have binding powers, from `or`, which binds least, to `*`. An
operator's right operand is read with a power above its own, so operators of
equal power group to the left. Prefix operators bind tighter than all of
them, and calls and subscripts tighter still.
-/

namespace Exemplar

namespace BinaryOp

/-- How tightly an operator binds. Powers are two apart: the right operand
takes operators of the next power up. -/
def power : BinaryOp → Nat
  | .or => 1
  | .and => 3
  | .eq | .ne => 5
  | .lt | .le | .gt | .ge => 7
  | .add | .sub => 9
  | .mul | .div | .mod => 11

/-- The operator a token stands for. -/
def ofKind? : Kind → Option BinaryOp
  | .keyword .or => some .or
  | .keyword .and => some .and
  | .mark .eqEq => some .eq
  | .mark .bangEq => some .ne
  | .mark .lt => some .lt
  | .mark .ltEq => some .le
  | .mark .gt => some .gt
  | .mark .gtEq => some .ge
  | .mark .plus => some .add
  | .mark .minus => some .sub
  | .mark .star => some .mul
  | .mark .slash => some .div
  | .mark .percent => some .mod
  | _ => none

end BinaryOp

namespace UnaryOp

/-- How tightly prefix operators bind. -/
def power : Nat := 13

/-- The prefix operator a token stands for. -/
def ofKind? : Kind → Option UnaryOp
  | .mark .minus => some .neg
  | .keyword .not => some .not
  | _ => none

end UnaryOp

namespace Reading

mutual

/-- Read an expression whose operators bind at least as tightly as `least`,
with an allowance for nesting. -/
def exprWithin : Nat → Nat → Reading Expr
  | 0, _ => fault .tooDeep
  | n + 1, least => do
    let start ← offset
    let left ← operandWithin n
    operatorsWithin n least start left

/-- Go on after an operand: calls, subscripts, and operators that bind at
least as tightly as `least`. -/
def operatorsWithin : Nat → Nat → Nat → Expr → Reading Expr
  | 0, _, _, _ => fault .tooDeep
  | n + 1, least, start, left => do
    match ← peek with
    | .mark .lParen =>
      advance
      let args ← exprsWithin n .rParen
      mark .rParen
      let span ← spanFrom start
      operatorsWithin n least start (.call span left args)
    | .mark .lBracket =>
      advance
      let subscript ← exprWithin n 0
      mark .rBracket
      let span ← spanFrom start
      operatorsWithin n least start (.index span left subscript)
    | kind =>
      match BinaryOp.ofKind? kind with
      | some op =>
        if op.power < least then return left
        advance
        let right ← exprWithin n (op.power + 1)
        operatorsWithin n least start
          (.binary ⟨start, right.span.stop⟩ op left right)
      | none => return left

/-- Read what operators stand between. -/
def operandWithin : Nat → Reading Expr
  | 0 => fault .tooDeep
  | n + 1 => do
    let start ← offset
    match ← peek with
    | .literal value =>
      advance
      return .literal (← spanFrom start) value
    | .ident _ =>
      let name ← path
      return .path (← spanFrom start) name
    | .mark .lParen =>
      advance
      if ← eat (.mark .rParen) then
        return .tuple (← spanFrom start) []
      let first ← exprWithin n 0
      if (← peek) = .mark .comma then
        let others ← tupleRestWithin n
        mark .rParen
        return .tuple (← spanFrom start) (first :: others)
      mark .rParen
      return first.withSpan (← spanFrom start)
    | .mark .lBracket =>
      advance
      let items ← exprsWithin n .rBracket
      mark .rBracket
      return .array (← spanFrom start) items
    | kind =>
      match UnaryOp.ofKind? kind with
      | some op =>
        advance
        let operand ← exprWithin n UnaryOp.power
        return .unary (← spanFrom start) op operand
      | none => expected .expression

/-- Read expressions with commas between them, up to the closing mark. -/
def exprsWithin : Nat → Mark → Reading (List Expr)
  | 0, _ => fault .tooDeep
  | n + 1, close => do
    let kind ← peek
    if kind = .mark close ∨ kind = .eof then return []
    let item ← exprWithin n 0
    if ← eat (.mark .comma) then
      let items ← exprsWithin n close
      return item :: items
    return [item]

/-- Read the items of a tuple after the first, each after a comma. -/
def tupleRestWithin : Nat → Reading (List Expr)
  | 0 => fault .tooDeep
  | n + 1 => do
    if ← eat (.mark .comma) then
      if (← peek) = .mark .rParen then return []
      let item ← exprWithin n 0
      let items ← tupleRestWithin n
      return item :: items
    return []

end

def expr : Reading Expr := fun c => exprWithin (4 * c.ahead.length + 4) 0 c

end Reading

end Exemplar
