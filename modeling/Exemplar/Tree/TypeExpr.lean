/-!
# Type expressions

Types as they are written in signatures and `newtype` declarations.
-/

namespace Exemplar

/-- The types every program has. -/
inductive Builtin where
  | unit
  | int
  | bool
  | double
  | string
deriving Repr, DecidableEq

namespace Builtin

def text : Builtin → String
  | .unit => "Unit"
  | .int => "Int"
  | .bool => "Bool"
  | .double => "Double"
  | .string => "String"

def all : List Builtin := [.unit, .int, .bool, .double, .string]

def ofText? (name : String) : Option Builtin :=
  all.find? fun b => b.text == name

theorem mem_all (b : Builtin) : b ∈ all := by
  cases b <;> decide

end Builtin

/-- A written type. The empty tuple is the unit type and a tuple of one item
is that item, so tuples that come from a text have at least two. -/
inductive TypeExpr where
  | builtin (type : Builtin)
  | named (path : String)
  | tuple (items : List TypeExpr)
  | array (item : TypeExpr)
deriving Repr

namespace TypeExpr

/-- The type a name stands for: built in, or declared somewhere. -/
def ofName (name : String) : TypeExpr :=
  match Builtin.ofText? name with
  | some b => .builtin b
  | none => .named name

mutual

def text : TypeExpr → String
  | .builtin b => b.text
  | .named path => path
  | .tuple [] => "()"
  | .tuple (item :: items) => "(" ++ text item ++ textRest items ++ ")"
  | .array item => text item ++ "[]"

/-- The items of a tuple after the first. -/
def textRest : List TypeExpr → String
  | [] => ""
  | item :: items => ", " ++ text item ++ textRest items

end

mutual

/-- The names of declared types, from left to right. -/
def names : TypeExpr → List String
  | .builtin _ => []
  | .named path => [path]
  | .tuple items => namesOfAll items
  | .array item => names item

def namesOfAll : List TypeExpr → List String
  | [] => []
  | item :: items => names item ++ namesOfAll items

end

mutual

def decEq : (a b : TypeExpr) → Decidable (a = b)
  | .builtin a, .builtin b => decidable_of_iff (a = b) (by simp)
  | .named a, .named b => decidable_of_iff (a = b) (by simp)
  | .tuple as, .tuple bs =>
    have := decEqList as bs
    decidable_of_iff (as = bs) (by simp)
  | .array a, .array b =>
    have := decEq a b
    decidable_of_iff (a = b) (by simp)
  | .builtin _, .named _ | .builtin _, .tuple _ | .builtin _, .array _
  | .named _, .builtin _ | .named _, .tuple _ | .named _, .array _
  | .tuple _, .builtin _ | .tuple _, .named _ | .tuple _, .array _
  | .array _, .builtin _ | .array _, .named _ | .array _, .tuple _ =>
    isFalse (by simp)

def decEqList : (as bs : List TypeExpr) → Decidable (as = bs)
  | [], [] => isTrue rfl
  | [], _ :: _ | _ :: _, [] => isFalse (by simp)
  | a :: as, b :: bs =>
    have := decEq a b
    have := decEqList as bs
    decidable_of_iff (a = b ∧ as = bs) (by simp)

end

instance : DecidableEq TypeExpr := decEq

end TypeExpr

end Exemplar
