import Exemplar.Proofs.Grammar.Blocks

/-!
# Printing and reading back

`printBlocks` writes blocks as tokens, with parentheses only where the binding
powers ask for them: an operator is put in parentheses when it stands where
tighter ones are read, a prefix operator only before a call or a subscript,
and nothing else ever.

Reading gives back what was printed (`parsed_printBlocks`): no faults, and the
same blocks but for spans and for the origin, which is the reader's. The
printed text is one of the written forms of the tree (`form_print` and its
kin), and those are read as they are written.

The blocks must have the shape of blocks that were read (`inShape`): the
grammar has no text for a tuple type of one item, say.
-/

namespace Exemplar

open Reading

/-! ## Paths -/

def pathKinds (path : String) : List Kind :=
  match Chars.splitOn '.' path.toList with
  | [] => []
  | first :: parts =>
      .ident (String.ofList first) :: dottedKinds (parts.map String.ofList)

theorem toList_joinPath (path : String) (parts : List String) :
    (joinPath path parts).toList = path.toList ++ parts.flatMap fun part =>
      '.' :: part.toList := by
  induction parts generalizing path with
  | nil => simp [joinPath]
  | cons part parts ih =>
      have hstep : joinPath path (part :: parts)
        = joinPath (path ++ "." ++ part) parts := rfl
      rw [hstep, ih, String.toList_append, String.toList_append,
        List.flatMap_cons]
      simp

theorem intercalate_cons (sep : Char) (piece : List Char)
    (pieces : List (List Char)) :
    [sep].intercalate (piece :: pieces) = piece ++ pieces.flatMap fun p =>
      sep :: p := by
  induction pieces generalizing piece with
  | nil => simp [List.intercalate]
  | cons p ps ih =>
      have hstep : [sep].intercalate (piece :: p :: ps)
          = piece ++ ([sep] ++ [sep].intercalate (p :: ps)) := by
        simp [List.intercalate]
      rw [hstep, ih, List.flatMap_cons]
      rfl

/-- A path is written as its parts, whatever they are. -/
theorem exists_pathKinds (path : String) :
    ∃ first parts, pathKinds path = .ident first :: dottedKinds parts
      ∧ joinPath first parts = path := by
  obtain ⟨piece, pieces, hsplit⟩ :=
    List.exists_cons_of_ne_nil (Chars.splitOn_ne_nil '.' path.toList)
  refine ⟨String.ofList piece, pieces.map String.ofList, ?_, ?_⟩
  · rw [pathKinds, hsplit]
  · apply String.toList_inj.mp
    have hback := Chars.intercalate_splitOn '.' path.toList
    rw [hsplit, intercalate_cons] at hback
    rw [toList_joinPath, ← hback, List.flatMap_map]
    simp

/-- Without a dot there is nothing to cut. -/
theorem splitAtLast_eq_none {sep : Char} {cs : List Char} (h : sep ∉ cs) :
    Chars.splitAtLast sep cs = none := by
  induction cs with
  | nil => rfl
  | cons c cs ih =>
      rw [List.mem_cons, not_or] at h
      rw [Chars.splitAtLast, ih h.2]
      exact if_neg (Ne.symm h.1)

theorem splitAtLast_append {sep : Char} (before : List Char) {after : List Char}
    (h : sep ∉ after) :
    Chars.splitAtLast sep (before ++ sep :: after) = some (before, after) := by
  induction before with
  | nil =>
      rw [List.nil_append, Chars.splitAtLast, splitAtLast_eq_none h]
      exact if_pos rfl
  | cons c before ih => rw [List.cons_append, Chars.splitAtLast, ih]

theorem not_mem_of_not_isDotted {name : String} (h : isDotted name = false) :
    '.' ∉ name.toList := by
  intro hmem
  rw [isDotted, List.contains_iff_mem.mpr hmem] at h
  cases h

theorem toList_path {q : QualifiedName} (h : q.space ≠ "") :
    q.path.toList = q.space.toList ++ '.' :: q.name.toList := by
  rw [QualifiedName.path, if_neg h, String.toList_append, String.toList_append]
  simp

/-- A name is its path, cut at the last dot. -/
theorem ofPath_path {q : QualifiedName} (h : isDotted q.name = false) :
    .ofPath q.path = q := by
  have hname := not_mem_of_not_isDotted h
  by_cases hspace : q.space = ""
  · have hpath : q.path = q.name := if_pos hspace
    rw [QualifiedName.ofPath, hpath, splitAtLast_eq_none hname, ← hspace]
  · rw [QualifiedName.ofPath, toList_path hspace, splitAtLast_append _ hname]
    simp

theorem isDotted_path {q : QualifiedName} (h : q.space ≠ "") :
    isDotted q.path = true := by
  rw [isDotted, toList_path h, List.contains_iff_mem]
  simp

/-! ## Types -/

namespace TypeExpr

mutual

def print : TypeExpr → List Kind
  | .builtin b => [.ident b.text]
  | .named path => pathKinds path
  | .tuple items => .mark .lParen :: (printAll items ++ [.mark .rParen])
  | .array item => print item ++ [.mark .lBracket, .mark .rBracket]

def printAll : List TypeExpr → List Kind
  | [] => []
  | item :: items =>
    if items.isEmpty then print item else print item
      ++ .mark .comma :: printAll items

end

mutual

/-- The type can be read: tuples have two items or more, and no named type has
the name of a built-in one. -/
def inShape : TypeExpr → Bool
  | .builtin _ => true
  | .named path => (Builtin.ofText? path).isNone
  | .tuple items => decide (2 ≤ items.length) && allInShape items
  | .array item => inShape item

def allInShape : List TypeExpr → Bool
  | [] => true
  | item :: items => inShape item && allInShape items

end

mutual

theorem form_print : ∀ t : TypeExpr, t.inShape = true →
      TypeForm (.type t) t.print
  | .builtin b, _ => by
      have hname : TypeExpr.ofName (joinPath b.text []) = .builtin b := by
        cases b <;> rfl
      rw [print, ← hname]
      exact .path b.text []
  | .named path, h => by
      obtain ⟨first, parts, hkinds, hjoin⟩ := exists_pathKinds path
      have hname : TypeExpr.ofName (joinPath first parts) = .named path := by
        rw [hjoin, TypeExpr.ofName, Option.isNone_iff_eq_none.mp h]
      rw [print, hkinds, ← hname]
      exact .path first parts
  | .tuple items, h => by
      obtain ⟨hlength, hitems⟩ := Bool.and_eq_true_iff.mp h
      have hlist : typeOfList items = .tuple items := by
        match items, of_decide_eq_true hlength with
        | _ :: _ :: _, _ => rfl
      rw [print, ← hlist]
      exact .parens (form_printAll items hitems)
  | .array item, h => .array (form_print item h)

theorem form_printAll : ∀ ts : List TypeExpr, allInShape ts = true →
    TypeForm (.list ts) (printAll ts)
  | [], _ => .nil
  | t :: ts, h => by
      obtain ⟨ht, hts⟩ := Bool.and_eq_true_iff.mp h
      rw [printAll]
      cases ts with
      | nil => exact .one (form_print t ht)
      | cons t' ts =>
          exact .cons (form_print t ht) (form_printAll (t' :: ts) hts)

end

end TypeExpr

/-! ## Expressions -/

/-- The text in parentheses, if they are needed. -/
def parensIf (needed : Bool) (ks : List Kind) : List Kind :=
  if needed then .mark .lParen :: (ks ++ [.mark .rParen]) else ks

namespace Expr

mutual

def print : Expr → Nat → List Kind
  | .literal _ value, _ => [.literal value]
  | .path _ name, _ => pathKinds name
  | .binary _ op left right, p =>
    parensIf (decide (op.power < p))
      (print left op.power ++ op.kind :: print right (op.power + 1))
  | .unary _ op operand, p =>
    parensIf (decide (UnaryOp.power < p))
      (op.kind :: print operand UnaryOp.power)
  | .call _ callee args, _ =>
    print callee suffixPower
      ++ .mark .lParen :: (printAll args ++ [.mark .rParen])
  | .index _ target subscript, _ =>
    print target suffixPower
      ++ .mark .lBracket :: (print subscript 0 ++ [.mark .rBracket])
  | .tuple _ [], _ => [.mark .lParen, .mark .rParen]
  | .tuple _ (item :: items), _ =>
    -- the comma stays after a single item: it makes the tuple
    .mark .lParen :: (print item 0
      ++ .mark .comma :: (printAll items ++ [.mark .rParen]))
  | .array _ items, _ =>
      .mark .lBracket :: (printAll items ++ [.mark .rBracket])

def printAll : List Expr → List Kind
  | [] => []
  | item :: items =>
    if items.isEmpty then print item 0 else print item 0
      ++ .mark .comma :: printAll items

end

mutual

theorem form_print :
    ∀ (e : Expr) (p : Nat), ExprForm (.expr p e.bare) (e.print p)
  | .literal _ value, p => .literal p value
  | .path _ name, p => by
      obtain ⟨first, parts, hkinds, hjoin⟩ := exists_pathKinds name
      rw [print, hkinds, bare, ← hjoin]
      exact .path p first parts
  | .binary _ op left right, p => by
      have hl := form_print left op.power
      have hr := form_print right (op.power + 1)
      rw [print, bare, parensIf]
      by_cases hp : op.power < p
      · rw [if_pos (decide_eq_true hp)]
        exact .parens (.binary op (Nat.zero_le _) hl hr)
      · rw [if_neg (by simpa using hp)]
        exact .binary op (Nat.le_of_not_lt hp) hl hr
  | .unary _ op operand, p => by
      have h := form_print operand UnaryOp.power
      rw [print, bare, parensIf]
      by_cases hp : UnaryOp.power < p
      · rw [if_pos (decide_eq_true hp)]
        exact .parens (.unary op (Nat.zero_le _) h)
      · rw [if_neg (by simpa using hp)]
        exact .unary op (Nat.le_of_not_lt hp) h
  | .call _ callee args, p =>
      .call (form_print callee suffixPower) (form_printAll args)
  | .index _ target subscript, p =>
      .index (form_print target suffixPower) (form_print subscript 0)
  | .tuple _ [], p => .unit p
  | .tuple _ (item :: items), p =>
      .tuple (form_print item 0) (form_printAll items)
  | .array _ items, p => .array (form_printAll items)

theorem form_printAll :
    ∀ es : List Expr, ExprForm (.list (bareAll es)) (printAll es)
  | [] => .nil
  | e :: es => by
      rw [printAll]
      cases es with
      | nil => exact .one (form_print e 0)
      | cons e' es => exact .cons (form_print e 0) (form_printAll (e' :: es))

end

end Expr

/-! ## Statements -/

namespace Stmt

def isCond : Stmt → Bool
  | .ifThen .. | .ifElse .. => true
  | _ => false

mutual

def print : Stmt → List Kind
  | .expr _ value => value.print 0 ++ [.mark .semi]
  | .bind _ name isMutable value =>
    .keyword (bindingKeyword isMutable) :: .ident name :: .mark .eq
      :: (value.print 0 ++ [.mark .semi])
  | .assign _ name value =>
    .keyword .set :: .ident name :: .mark .eq
      :: (value.print 0 ++ [.mark .semi])
  | .ret _ none => [.keyword .return, .mark .semi]
  | .ret _ (some value) => .keyword .return :: (value.print 0 ++ [.mark .semi])
  | .ifThen _ test body =>
    .keyword .if :: (test.print 0
      ++ .mark .lBrace :: (printAll body ++ [.mark .rBrace]))
  | .ifElse _ test body other =>
    .keyword .if :: (test.print 0
      ++ (.mark .lBrace :: (printAll body ++ [.mark .rBrace])
      ++ .keyword .else :: printElse other))
  | .loop _ name items body =>
    .keyword .for :: .ident name :: .keyword .in
      :: (items.print 0 ++ .mark .lBrace :: (printAll body ++ [.mark .rBrace]))

def printAll : List Stmt → List Kind
  | [] => []
  | stmt :: stmts => print stmt ++ printAll stmts

/-- The text of what follows an `else`: a conditional needs no braces. -/
def printElse : List Stmt → List Kind
  | [] => [.mark .lBrace, .mark .rBrace]
  | stmt :: stmts =>
    if stmts.isEmpty && stmt.isCond then print stmt
    else .mark .lBrace :: (print stmt ++ printAll stmts ++ [.mark .rBrace])

end

def phrase (s : Stmt) : StmtPhrase :=
  if s.isCond then .cond s.bare else .stmt s.bare

theorem form_stmt {s : Stmt} {ks : List Kind} (h : StmtForm s.phrase ks) :
    StmtForm (.stmt s.bare) ks := by
  unfold phrase at h
  split at h
  · exact .cond h
  · exact h

mutual

theorem form_print : ∀ s : Stmt, StmtForm s.phrase s.print
  | .expr _ value => .expr (value.form_print 0)
  | .bind _ name isMutable value => .bind name isMutable (value.form_print 0)
  | .assign _ name value => .assign name (value.form_print 0)
  | .ret _ none => .ret
  | .ret _ (some value) => .retValue (value.form_print 0)
  | .ifThen _ test body =>
      .ifThen (test.form_print 0) (.body (form_printAll body))
  | .ifElse _ test body [] =>
      .ifElse (test.form_print 0) (.body (form_printAll body)) (.body (.nil []))
  | .ifElse _ test body (stmt :: stmts) => by
      have htest := test.form_print 0
      have hbody := StmtForm.body (form_printAll body)
      have hstmt := form_print stmt
      have hstmts := form_printAll stmts
      rw [print, printElse]
      by_cases h : (stmts.isEmpty && stmt.isCond) = true
      · obtain ⟨hnil, hcond⟩ := Bool.and_eq_true_iff.mp h
        obtain rfl := List.isEmpty_iff.mp hnil
        rw [phrase, if_pos hcond] at hstmt
        rw [if_pos h]
        exact .elseIf htest hbody hstmt
      · rw [if_neg h]
        exact .ifElse htest hbody (.body (.cons [] (form_stmt hstmt) hstmts))
  | .loop _ name items body =>
      .loop name (items.form_print 0) (.body (form_printAll body))

theorem form_printAll :
    ∀ ss : List Stmt, StmtForm (.stmts (bareAll ss)) (printAll ss)
  | [] => .nil []
  | s :: ss => .cons [] (form_stmt (form_print s)) (form_printAll ss)

end

end Stmt

/-! ## Declarations and blocks -/

def Attribute.print (a : Attribute) : List Kind :=
  .mark .at :: (pathKinds a.name.path
    ++ .mark .lParen :: (argumentKinds a.argument ++ [.mark .rParen]))

def printParams : List Param → List Kind
  | [] => []
  | [p] => .ident p.name :: .mark .colon :: p.type.print
  | p :: p' :: ps =>
    .ident p.name :: .mark .colon
      :: (p.type.print ++ .mark .comma :: printParams (p' :: ps))

/-- The text of a body, or the semicolon in its place. -/
def printBody : Option (List Stmt) → List Kind
  | none => [.mark .semi]
  | some stmts => .mark .lBrace :: (Stmt.printAll stmts ++ [.mark .rBrace])

/-- The text of the operation that a specialization in `space` is for. -/
def printParent (space : String) (q : QualifiedName) : List Kind :=
  if q.space = space then [.ident q.name] else pathKinds q.path

/-- The text of a declaration in `space`. -/
def Declaration.print (space : String) (d : Declaration) : List Kind :=
  docKinds d.doc
    ++ match d.detail with
      | .newtype underlying attributes =>
        attributes.flatMap Attribute.print
          ++ .keyword .newtype :: .ident d.name.name :: .mark .eq
            :: (underlying.print ++ [.mark .semi])
      | .callable c =>
        c.attributes.flatMap Attribute.print
          ++ .keyword c.kind.keyword :: .ident d.name.name :: .mark .lParen
            :: (printParams c.params ++ .mark .rParen :: .mark .colon
              :: (c.result.print ++ printBody c.body))
      | .specialization variant body =>
        .keyword variant.keyword :: (printParent space d.name ++ printBody body)

def Open.print (o : Open) : List Kind :=
  .keyword .open :: (pathKinds o.space
    ++ match o.asName with
      | none => [.mark .semi]
      | some asName => .keyword .as :: (pathKinds asName ++ [.mark .semi]))

def Block.printItems (b : Block) : List Kind :=
  b.opens.flatMap Open.print ++ b.decls.flatMap (Declaration.print b.name)

/-- The text of a block. A block without a name has no braces. -/
def Block.print (b : Block) : List Kind :=
  if b.name = "" then b.printItems
  else docKinds b.doc ++ .keyword .namespace
    :: (pathKinds b.name ++ .mark .lBrace :: (b.printItems ++ [.mark .rBrace]))

def printBlocks (blocks : List Block) : List Kind := blocks.flatMap Block.print

/-! ### Shapes -/

/-- The attribute can be read: its short name is one name. -/
def Attribute.inShape (a : Attribute) : Bool := !isDotted a.name.name

/-- The declaration can be read in `space`. What is declared there has its
name there; a specialization is for an operation in `space` or in another
namespace with a name. -/
def Declaration.inShape (space : String) (d : Declaration) : Bool :=
  match d.detail with
  | .newtype underlying attributes =>
    d.name.space == space && underlying.inShape
      && attributes.all Attribute.inShape
  | .callable c =>
    d.name.space == space && c.params.all (fun p => p.type.inShape)
      && c.result.inShape && c.attributes.all Attribute.inShape
  | .specialization .. =>
    !isDotted d.name.name && (d.name.space == space || d.name.space != "")

def Block.inShape (b : Block) : Bool := b.decls.all (Declaration.inShape b.name)

/-- The blocks can be read. Only the first may be without a name; it is then
not empty and without documentation. -/
def blocksInShape : List Block → Bool
  | [] => true
  | b :: bs =>
    b.inShape && (b.name != "" || !b.isEmpty && b.doc.isEmpty)
      && bs.all fun b => b.inShape && b.name != ""

/-! ### Printed forms -/

theorem form_attributes :
    ∀ {as : List Attribute}, as.all Attribute.inShape = true →
    AttrsForm (as.map Attribute.bare) [] (as.flatMap Attribute.print)
  | [], _ => .nil
  | a :: as, h => by
      obtain ⟨ha, has⟩ := Bool.and_eq_true_iff.mp h
      obtain ⟨first, parts, hkinds, hjoin⟩ := exists_pathKinds a.name.path
      have hbare : a.bare = ⟨.ofPath (joinPath first parts), a.argument,
          .nowhere⟩ := by
        rw [hjoin, ofPath_path (by simpa [Attribute.inShape] using ha)]
        rfl
      have hform :=
        AttrsForm.cons first parts a.argument [] (form_attributes has)
      rw [List.map_cons, List.flatMap_cons, hbare, Attribute.print, hkinds]
      simpa [docKinds] using hform

theorem form_params :
    ∀ {ps : List Param}, ps.all (fun p => p.type.inShape) = true →
    ParamsForm (ps.map Param.bare) (printParams ps)
  | [], _ => .nil
  | [p], h => .one p.name (p.type.form_print (by simpa using h))
  | p :: p' :: ps, h => by
      obtain ⟨hp, hps⟩ := Bool.and_eq_true_iff.mp h
      exact .cons p.name (p.type.form_print hp) (form_params hps)

theorem form_body (body : Option (List Stmt)) :
    BodyForm (body.map (List.map Stmt.bare)) (printBody body) := by
  cases body with
  | none => exact .header
  | some stmts =>
      rw [Option.map_some, ← Stmt.bareAll_eq_map]
      exact .body (.body (Stmt.form_printAll stmts))

/-- A specialization names its operation so that it is found again. -/
theorem exists_printParent {space : String} {q : QualifiedName}
    (hname : isDotted q.name = false)
    (hspace : q.space = space ∨ q.space ≠ "") :
    ∃ first parts, printParent space q = .ident first :: dottedKinds parts
      ∧ parentOf space (joinPath first parts) = q := by
  by_cases hhere : q.space = space
  · refine ⟨q.name, [], by rw [printParent, if_pos hhere]; rfl, ?_⟩
    have hjoin : joinPath q.name [] = q.name := rfl
    rw [hjoin, parentOf, hname, ← hhere]
    rfl
  · obtain ⟨first, parts, hkinds, hjoin⟩ := exists_pathKinds q.path
    refine ⟨first, parts, by rw [printParent, if_neg hhere, hkinds], ?_⟩
    rw [hjoin, parentOf, isDotted_path (hspace.resolve_left hhere), if_pos rfl,
      ofPath_path hname]

def Declaration.comingFrom (origin : Origin) (d : Declaration) : Declaration :=
  { d with origin := origin }

theorem form_declaration {space : String} {d : Declaration}
    (h : d.inShape space = true) (origin : Origin) :
    ∃ ks, d.print space = docKinds d.doc ++ ks
      ∧ ItemForm ⟨origin, space⟩ d.doc (.decl (d.comingFrom origin).bare)
        ks := by
  obtain ⟨name, doc, from', span, detail⟩ := d
  refine ⟨_, rfl, ?_⟩
  cases detail with
  | newtype underlying attributes =>
      simp only [Declaration.inShape, Bool.and_eq_true, beq_iff_eq] at h
      obtain ⟨⟨rfl, htype⟩, hattrs⟩ := h
      have hform : ItemForm ⟨origin, name.space⟩ doc _ _ :=
        .newtype (form_attributes hattrs) name.name
          (underlying.form_print htype)
      rw [List.append_nil] at hform
      exact hform
  | callable c =>
      simp only [Declaration.inShape, Bool.and_eq_true, beq_iff_eq] at h
      obtain ⟨⟨⟨rfl, hparams⟩, hresult⟩, hattrs⟩ := h
      have hform : ItemForm ⟨origin, name.space⟩ doc _ _ :=
        .callable (form_attributes hattrs) c.kind name.name
          (form_params hparams) (c.result.form_print hresult) (form_body c.body)
      rw [List.append_nil] at hform
      exact hform
  | specialization variant body =>
      simp only [Declaration.inShape, Bool.and_eq_true, Bool.not_eq_true',
        Bool.or_eq_true, beq_iff_eq, bne_iff_ne] at h
      obtain ⟨first, parts, hkinds, hparent⟩ := exists_printParent h.1 h.2
      have hform : ItemForm ⟨origin, space⟩ doc _ _ :=
        .specialization variant first parts (form_body body)
      rw [hparent] at hform
      dsimp only
      rw [hkinds]
      exact hform

theorem form_open (ctx : Context) (o : Open) :
    ItemForm ctx [] (.opening o.bare) o.print := by
  obtain ⟨space, asName, span⟩ := o
  obtain ⟨first, parts, hkinds, rfl⟩ := exists_pathKinds space
  cases asName with
  | none =>
      rw [Open.print, hkinds]
      exact .opening first parts
  | some asName =>
      obtain ⟨first', parts', hkinds', rfl⟩ := exists_pathKinds asName
      rw [Open.print, hkinds]
      dsimp only
      rw [hkinds']
      exact .openingAs first parts first' parts'

/-! ### Items one after the other -/

/-- The items of a block as they are read from `origin`, each with its text. -/
def Block.printedItems (origin : Origin) (b : Block) :
    List (Item × List Kind) :=
  b.opens.map (fun o => (.opening o.bare, o.print))
    ++ b.decls.map fun d => (.decl (d.comingFrom origin).bare, d.print b.name)

theorem flatMap_printedItems (origin : Origin) (b : Block) :
    (b.printedItems origin).flatMap Prod.snd = b.printItems := by
  rw [Block.printedItems, List.flatMap_append, List.flatMap_map,
    List.flatMap_map]
  rfl

/-- The text is documentation and then the item. -/
def IsItemText (ctx : Context) (p : Item × List Kind) : Prop :=
  ∃ lines ks, p.2 = docKinds lines ++ ks ∧ ItemForm ctx lines p.1 ks

theorem isItemText_of_mem {b : Block} (h : b.inShape = true) {origin : Origin}
    {p : Item × List Kind} (hp : p ∈ b.printedItems origin) :
    IsItemText ⟨origin, b.name⟩ p := by
  rcases List.mem_append.mp hp with hp | hp
  · obtain ⟨o, -, rfl⟩ := List.mem_map.mp hp
    exact ⟨[], o.print, rfl, form_open _ o⟩
  · obtain ⟨d, hd, rfl⟩ := List.mem_map.mp hp
    obtain ⟨ks, hkinds, hform⟩ :=
      form_declaration (List.all_eq_true.mp h d hd) origin
    exact ⟨d.doc, ks, hkinds, hform⟩

theorem itemsForm_of_texts {ctx : Context} : ∀ {ps : List (Item × List Kind)},
    (∀ p ∈ ps, IsItemText ctx p) →
    ItemsForm ctx (ps.map Prod.fst) (ps.flatMap Prod.snd)
  | [], _ => .nil []
  | p :: ps, h => by
      obtain ⟨lines, ks, hkinds, hform⟩ := h p (by simp)
      rw [List.flatMap_cons, hkinds, List.append_assoc]
      exact .cons lines hform (itemsForm_of_texts fun p' hp' =>
        h p' (List.mem_cons_of_mem _ hp'))

theorem topsForm_of_texts {origin : Origin} {ts : List Top} {ks : List Kind}
    (htops : TopsForm origin ts ks) : ∀ {ps : List (Item × List Kind)},
    (∀ p ∈ ps, IsItemText ⟨origin, ""⟩ p) →
      TopsForm origin ((ps.map Prod.fst).map Top.item ++ ts)
        (ps.flatMap Prod.snd ++ ks)
  | [], _ => htops
  | p :: ps, h => by
      obtain ⟨lines, ks', hkinds, hform⟩ := h p (by simp)
      rw [List.flatMap_cons, hkinds, List.append_assoc, List.append_assoc]
      exact .item lines hform
        (topsForm_of_texts htops fun p' hp' =>
          h p' (List.mem_cons_of_mem _ hp'))

def Block.comingFrom (origin : Origin) (b : Block) : Block :=
  { b with decls := b.decls.map (Declaration.comingFrom origin) }

theorem addItems_printedItems (origin : Origin) (b : Block) :
    Block.addItems ⟨b.name, b.doc, [], [], .nowhere⟩
      ((b.printedItems origin).map Prod.fst)
      = (b.comingFrom origin).bare := by
  have hitems : (b.printedItems origin).map Prod.fst
      = (b.opens.map Open.bare).map Item.opening
        ++ (b.decls.map fun d => (d.comingFrom origin).bare).map Item.decl := by
    simp [Block.printedItems, Function.comp_def]
  rw [hitems, Block.addItems_eq]
  simp [Block.comingFrom, Block.bare, Function.comp_def, Item.opening?,
    Item.decl?]

/-! ## The headline -/

theorem topsForm_printBlocks (origin : Origin) : ∀ {bs : List Block},
    (bs.all fun b => b.inShape && b.name != "") = true →
      TopsForm origin (bs.map fun b => .block (b.comingFrom origin).bare)
        (printBlocks bs)
  | [], _ => .nil []
  | b :: bs, h => by
      rw [List.all_cons, Bool.and_eq_true, Bool.and_eq_true, bne_iff_ne] at h
      obtain ⟨⟨hshape, hname⟩, hbs⟩ := h
      have htexts : ∀ p ∈ b.printedItems origin,
          IsItemText ⟨origin, b.name⟩ p :=
        fun p hp => isItemText_of_mem hshape hp
      have hitems := itemsForm_of_texts htexts
      have hrest := topsForm_printBlocks origin hbs
      have hblock := addItems_printedItems origin b
      obtain ⟨first, parts, hkinds, hjoin⟩ := exists_pathKinds b.name
      rw [flatMap_printedItems, ← hjoin] at hitems
      rw [← hjoin] at hblock
      have htops := TopsForm.block b.doc first parts hitems hrest
      rw [hblock] at htops
      have hprint : printBlocks (b :: bs) = docKinds b.doc
            ++ .keyword .namespace :: .ident first
          :: (dottedKinds parts ++ .mark .lBrace
            :: (b.printItems ++ .mark .rBrace :: printBlocks bs)) := by
        rw [printBlocks, List.flatMap_cons, Block.print, if_neg hname, hkinds]
        simp [printBlocks]
      rw [hprint]
      exact htops

theorem toBlocks_of_not_isEmpty {outside : Block} {bs : List Block}
    (h : outside.isEmpty = false) :
    Draft.toBlocks ⟨outside, bs⟩ = outside :: bs := by
  simp [Draft.toBlocks, h]

theorem isEmpty_comingFrom (origin : Origin) (b : Block) :
    (b.comingFrom origin).bare.isEmpty = b.isEmpty := by
  rw [isEmpty_bare]
  simp [Block.isEmpty, Block.comingFrom]

/-- **Printing and reading back.** For blocks in the shape of what is read, the
printed text closed by `eof`, wherever its tokens stand, is read without a
fault and as the same blocks, but for spans and for the origin, which is the
reader's. -/
theorem parsed_printBlocks {blocks : List Block} {tokens : List Token}
    (origin : Origin) (hshape : blocksInShape blocks = true)
    (htokens : tokens.map Token.kind = printBlocks blocks ++ [.eof]) :
    (Parsed.ofTokens tokens origin).faults = []
      ∧ (Parsed.ofTokens tokens origin).blocks.map Block.bare
        = blocks.map fun b => (b.comingFrom origin).bare := by
  -- what stands outside namespaces is written as items, the rest as blocks
  suffices h : ∃ (is : List Item) (bs : List Block),
      TopsForm origin (is.map Top.item ++ bs.map Top.block) (printBlocks blocks)
        ∧ (Draft.toBlocks ⟨emptyDraft.outside.addItems is, bs⟩)
          = blocks.map fun b => (b.comingFrom origin).bare by
    obtain ⟨is, bs, hform, hblocks⟩ := h
    obtain ⟨hfaults, hread⟩ := parsed_of_form htokens hform
    have hdraft : (is.map Top.item ++ bs.map Top.block).foldl Top.addTo
      emptyDraft
        = ⟨emptyDraft.outside.addItems is, bs⟩ := by
      have hnone : bs.filterMap (fun _ => (none : Option Item)) = [] := by simp
      rw [foldl_addTo]
      simp [emptyDraft, Function.comp_def, Top.item?, Top.block?, hnone]
    rw [hdraft] at hread
    exact ⟨hfaults, hread.trans hblocks⟩
  cases blocks with
  | nil => exact ⟨[], [], .nil [], rfl⟩
  | cons b bs =>
      simp only [blocksInShape, Bool.and_eq_true, Bool.or_eq_true,
        bne_iff_ne] at hshape
      obtain ⟨⟨hb, hfirst⟩, hbs⟩ := hshape
      by_cases hname : b.name = ""
      · obtain ⟨hne, hdoc⟩ := hfirst.resolve_left (not_not_intro hname)
        have houtside : emptyDraft.outside.addItems
          ((b.printedItems origin).map Prod.fst)
            = (b.comingFrom origin).bare := by
          rw [← addItems_printedItems, hname, List.isEmpty_iff.mp hdoc]
          rfl
        have htexts : ∀ p ∈ b.printedItems origin, IsItemText ⟨origin, ""⟩ p :=
          fun p hp => hname ▸ isItemText_of_mem hb hp
        have hform := topsForm_of_texts (topsForm_printBlocks origin hbs) htexts
        rw [flatMap_printedItems] at hform
        refine ⟨(b.printedItems origin).map Prod.fst, bs.map fun b =>
          (b.comingFrom origin).bare, ?_, ?_⟩
        · rw [List.map_map (f := fun b : Block => (b.comingFrom origin).bare),
            printBlocks, List.flatMap_cons, Block.print, if_pos hname]
          exact hform
        · rw [houtside, toBlocks_of_not_isEmpty, List.map_cons]
          rw [isEmpty_comingFrom]
          simpa using hne
      · refine ⟨[], (b :: bs).map fun b => (b.comingFrom origin).bare, ?_, rfl⟩
        rw [List.map_map]
        exact topsForm_printBlocks origin (by
          rw [List.all_cons, hb, hbs]
          simpa using hname)

/-- Two blocks: a directive outside namespaces, and a documented function that
returns `(-f)(a, (b,))[0] * (a - (b - 1))`. -/
def sampleBlocks : List Block :=
  let path (name : String) : Expr := .path .nowhere name
  let int (value : Nat) : Expr := .literal .nowhere (.int value)
  let difference (left right : Expr) : Expr := .binary .nowhere .sub left right
  let call : Expr := .call .nowhere (.unary .nowhere .neg (path "f"))
    [path "a", .tuple .nowhere [path "b"]]
  let value : Expr := .binary .nowhere .mul (.index .nowhere call (int 0))
    (difference (path "a") (difference (path "b") (int 1)))
  [⟨"", [], [⟨"Std.Core", some "Core", .nowhere⟩], [], .nowhere⟩,
    ⟨"Demo.Math", ["Sample."], [],
      [⟨⟨"Demo.Math", "F"⟩, ["A function."], .primary "main.vl", .nowhere,
        .callable ⟨.function,
          [⟨"a", .tuple [.builtin .int, .array (.named "Core.T")], .nowhere⟩],
          .builtin .int, [⟨⟨"Core", "Mark"⟩, some "x", .nowhere⟩],
          some [.ifElse .nowhere (path "b") [] [.ifThen .nowhere (path "c") []],
            .ret .nowhere (some value)]⟩⟩],
      .nowhere⟩]

theorem parsed_printBlocks_sample :
    blocksInShape sampleBlocks = true
      ∧ (Parsed.ofTokens (Cursor.tokensNowhere (printBlocks sampleBlocks))
          (.primary "other.vl")).faults = []
      ∧ (Parsed.ofTokens (Cursor.tokensNowhere (printBlocks sampleBlocks))
          (.primary "other.vl")).blocks.map Block.bare
        = sampleBlocks.map fun b =>
        (b.comingFrom (.primary "other.vl")).bare := by
  have hshape : blocksInShape sampleBlocks = true := by decide +kernel
  exact ⟨hshape, parsed_printBlocks _ hshape (Cursor.map_kind_tokensNowhere _)⟩

end Exemplar
