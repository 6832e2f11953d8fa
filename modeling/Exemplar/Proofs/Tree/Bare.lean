import Exemplar.Tree.Declaration

/-!
# Trees without places

Two texts that differ in their layout only have the same syntax trees but for
spans. `bare` puts every node of a tree nowhere, so that trees agree up to
spans when their bare forms are equal.
-/

namespace Exemplar

/-! ## Expressions -/

namespace Expr

mutual

/-- The expression with every node nowhere. -/
def bare : Expr → Expr
  | .literal _ value => .literal .nowhere value
  | .path _ name => .path .nowhere name
  | .binary _ op left right => .binary .nowhere op (bare left) (bare right)
  | .unary _ op operand => .unary .nowhere op (bare operand)
  | .call _ callee args => .call .nowhere (bare callee) (bareAll args)
  | .index _ target subscript => .index .nowhere (bare target) (bare subscript)
  | .tuple _ items => .tuple .nowhere (bareAll items)
  | .array _ items => .array .nowhere (bareAll items)

def bareAll : List Expr → List Expr
  | [] => []
  | item :: items => bare item :: bareAll items

end

theorem bareAll_eq_map (items : List Expr) :
    bareAll items = items.map bare := by
  induction items with
  | nil => rfl
  | cons item items ih => rw [bareAll, ih, List.map_cons]

@[simp] theorem bare_withSpan (s : Span) (e : Expr) :
    (e.withSpan s).bare = e.bare := by
  cases e <;> rfl

end Expr

/-! ## Statements -/

namespace Stmt

mutual

/-- The statement with every node nowhere. -/
def bare : Stmt → Stmt
  | .expr _ value => .expr .nowhere value.bare
  | .bind _ name isMutable value => .bind .nowhere name isMutable value.bare
  | .assign _ name value => .assign .nowhere name value.bare
  | .ret _ value => .ret .nowhere (value.map Expr.bare)
  | .ifThen _ test body => .ifThen .nowhere test.bare (bareAll body)
  | .ifElse _ test body other =>
      .ifElse .nowhere test.bare (bareAll body) (bareAll other)
  | .loop _ name items body => .loop .nowhere name items.bare (bareAll body)

def bareAll : List Stmt → List Stmt
  | [] => []
  | stmt :: stmts => bare stmt :: bareAll stmts

end

theorem bareAll_eq_map (stmts : List Stmt) :
    bareAll stmts = stmts.map bare := by
  induction stmts with
  | nil => rfl
  | cons stmt stmts ih => rw [bareAll, ih, List.map_cons]

end Stmt

/-! ## Declarations and blocks -/

def Attribute.bare (a : Attribute) : Attribute := { a with span := .nowhere }

def Param.bare (p : Param) : Param := { p with span := .nowhere }

def Open.bare (o : Open) : Open := { o with span := .nowhere }

def Callable.bare (c : Callable) : Callable :=
  { c with
    params := c.params.map Param.bare
    attributes := c.attributes.map Attribute.bare
    body := c.body.map (List.map Stmt.bare) }

def Detail.bare : Detail → Detail
  | .newtype underlying attributes =>
      .newtype underlying (attributes.map Attribute.bare)
  | .callable c => .callable c.bare
  | .specialization variant body =>
      .specialization variant (body.map (List.map Stmt.bare))

def Declaration.bare (d : Declaration) : Declaration :=
  { d with span := .nowhere, detail := d.detail.bare }

def Block.bare (b : Block) : Block :=
  { b with
    opens := b.opens.map Open.bare
    decls := b.decls.map Declaration.bare
    span := .nowhere }

end Exemplar
