import Exemplar.Grammar.Exprs
import Exemplar.Tree.Stmt

/-!
# Reading statements

A body is a list of statements in braces. A statement that cannot be read is
recorded as a fault, and reading goes on after its semicolon or at the next
statement keyword. When the last fault that fits has been recorded, everything
that is left is skipped and the body ends there.

Documentation lines inside a body are plain comments.
-/

namespace Exemplar.Reading

def startsStatement : Kind → Bool
  | .keyword .let | .keyword .mutable | .keyword .set | .keyword .return
  | .keyword .if | .keyword .for => true
  | _ => false

/-- Skip the rest of a statement that failed and started when `start` tokens
had been read: past its semicolon, or up to the closing brace or the next
statement. -/
def skipStatement (start : Nat) : Reading Unit := fun c =>
  let c := c.skipWhile fun kind taken =>
    kind != .eof && kind != .mark .rBrace && kind != .mark .semi
      && !(startsStatement kind && decide (start < taken))
  .read () (if c.current.kind = .mark .semi then c.advance else c)

def skipDocs : Reading Unit := do
  let _ ← docs

/-- Read the name, the value and the semicolon of a binding or assignment. -/
def binding : Reading (String × Expr) := do
  let target ← name
  mark .eq
  let value ← expr
  mark .semi
  return (target, value)

mutual

/-- Read a body in braces, with an allowance for nesting. -/
def bodyWithin : Nat → Reading (List Stmt)
  | 0 => fault .tooDeep
  | n + 1 => do
    mark .lBrace
    stmtsWithin n

/-- Read statements and the closing brace. -/
def stmtsWithin : Nat → Reading (List Stmt)
  | 0 => fault .tooDeep
  | n + 1 => do
    skipDocs
    match ← peek with
    | .mark .rBrace =>
      advance
      return []
    | .eof => expected (.mark .rBrace)
    | _ =>
      let start ← taken
      match ← attempt (stmtWithin n) with
      | .ok stmt =>
        let stmts ← stmtsWithin n
        return stmt :: stmts
      | .error why =>
        if ← record why then
          skipStatement start
          stmtsWithin n
        else
          skipAll
          return []

def stmtWithin : Nat → Reading Stmt
  | 0 => fault .tooDeep
  | n + 1 => do
    let start ← offset
    match ← peek with
    | .keyword .let =>
      advance
      let (target, value) ← binding
      return .bind (← spanFrom start) target false value
    | .keyword .mutable =>
      advance
      let (target, value) ← binding
      return .bind (← spanFrom start) target true value
    | .keyword .set =>
      advance
      let (target, value) ← binding
      return .assign (← spanFrom start) target value
    | .keyword .return =>
      advance
      if ← eat (.mark .semi) then
        return .ret (← spanFrom start) none
      let value ← expr
      mark .semi
      return .ret (← spanFrom start) (some value)
    | .keyword .if => ifWithin n
    | .keyword .for =>
      advance
      let target ← name
      keyword .in
      let items ← expr
      let body ← bodyWithin n
      return .loop (← spanFrom start) target items body
    | _ =>
      let value ← expr
      mark .semi
      return .expr (← spanFrom start) value

def ifWithin : Nat → Reading Stmt
  | 0 => fault .tooDeep
  | n + 1 => do
    let start ← offset
    keyword .if
    let test ← expr
    let body ← bodyWithin n
    if ← eat (.keyword .else) then
      if (← peek) = .keyword .if then
        let other ← ifWithin n
        return .ifElse (← spanFrom start) test body [other]
      let other ← bodyWithin n
      return .ifElse (← spanFrom start) test body other
    return .ifThen (← spanFrom start) test body

end

def body : Reading (List Stmt) := fun c => bodyWithin (4 * c.ahead.length + 4) c

end Exemplar.Reading
