import Exemplar.Grammar.Reading
import Exemplar.Tree.TypeExpr

/-!
# Reading types

A type is a name, or a list of types in parentheses, followed by any number
of `[]`. An empty list is the unit type and a list of one is that type. A
trailing comma is allowed.
-/

namespace Exemplar.Reading

/-- The type that a list in parentheses stands for. -/
def typeOfList : List TypeExpr → TypeExpr
  | [] => .builtin .unit
  | [item] => item
  | items => .tuple items

/-- The `[]` that follow a type, at most as many as given. -/
def arraySuffixes : Nat → TypeExpr → Reading TypeExpr
  | 0, type => return type
  | n + 1, type => do
    if ← eat (.mark .lBracket) then
      mark .rBracket
      arraySuffixes n (.array type)
    else return type

mutual

/-- Read a type, with an allowance for nesting. -/
def typeWithin : Nat → Reading TypeExpr
  | 0 => fault .tooDeep
  | n + 1 => do
    match ← peek with
    | .ident _ =>
      let name ← path
      arraySuffixes n (.ofName name)
    | .mark .lParen =>
      advance
      let items ← typesWithin n
      mark .rParen
      arraySuffixes n (typeOfList items)
    | _ => expected .type

/-- Read types with commas between them, up to a closing parenthesis. -/
def typesWithin : Nat → Reading (List TypeExpr)
  | 0 => fault .tooDeep
  | n + 1 => do
    match ← peek with
    | .mark .rParen | .eof => return []
    | _ =>
      let item ← typeWithin n
      if ← eat (.mark .comma) then
        let items ← typesWithin n
        return item :: items
      return [item]

end

def type : Reading TypeExpr := fun c => typeWithin (4 * c.ahead.length + 4) c

end Exemplar.Reading
