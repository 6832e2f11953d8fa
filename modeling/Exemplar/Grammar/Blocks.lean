import Exemplar.Grammar.Stmts
import Exemplar.Grammar.Types
import Exemplar.Tree.Declaration

/-!
# Reading source texts

A source text is a list of namespace blocks and of items outside them. The
latter go into a block without a name, which stands first and is left out
when it would be empty.

An item that cannot be read is recorded as a fault and reading goes on at the
next item. No more than twenty faults are recorded for one text.
-/

namespace Exemplar

namespace Reading

/-! ## Items -/

def openDirective : Reading Open := do
  let start ← offset
  keyword .open
  let space ← path
  let asName ← if ← eat (.keyword .as) then some <$> path else pure none
  mark .semi
  return ⟨space, asName, ← spanFrom start⟩

def attr : Reading Attribute := do
  let start ← offset
  mark .at
  let name ← path
  mark .lParen
  let argument ←
    match ← peek with
    | .literal (.string text) => do
      advance
      pure (some text)
    | .mark .rParen => pure none
    | _ => expected .string
  mark .rParen
  return ⟨.ofPath name, argument, ← spanFrom start⟩

/-- Read attributes, at most as many as given, and the documentation between
and after them. -/
def attributesUpTo : Nat → Reading (List Attribute × Doc)
  | 0 => return ([], [])
  | n + 1 => do
    if (← peek) = .mark .at then
      let first ← attr
      let doc ← docs
      let (others, moreDoc) ← attributesUpTo n
      return (first :: others, doc ++ moreDoc)
    return ([], [])

def attributes : Reading (List Attribute × Doc) := fun c =>
  attributesUpTo c.ahead.length c

/-- Read a body, or the semicolon of a header without one. -/
def bodyOrHeader : Reading (Option (List Stmt)) := do
  if ← eat (.mark .semi) then return none
  if (← peek) = .mark .lBrace then
    let stmts ← body
    return some stmts
  expected .body

/-- Read the parameters of a callable, at most as many as given. -/
def paramsUpTo : Nat → Reading (List Param)
  | 0 => return []
  | n + 1 => do
    match ← peek with
    | .mark .rParen | .eof => return []
    | _ =>
      let start ← offset
      let target ← name
      mark .colon
      let type ← type
      let param : Param := ⟨target, type, ← spanFrom start⟩
      if ← eat (.mark .comma) then
        let params ← paramsUpTo n
        return param :: params
      return [param]

def params : Reading (List Param) := fun c => paramsUpTo c.ahead.length c

/-- What a declaration takes from its surroundings. -/
structure Context where
  origin : Origin
  space : String
deriving Repr, DecidableEq

def newtype (ctx : Context) (doc : Doc) (attributes : List Attribute) :
    Reading Declaration := do
  let start ← offset
  keyword .newtype
  let target ← name
  mark .eq
  let underlying ← type
  mark .semi
  return ⟨⟨ctx.space, target⟩, doc, ctx.origin, ← spanFrom start,
    .newtype underlying attributes⟩

/-- Read a function or operation, whose keyword comes next. -/
def callable (ctx : Context) (kind : CallableKind) (doc : Doc)
    (attributes : List Attribute) : Reading Declaration := do
  let start ← offset
  advance
  let target ← name
  mark .lParen
  let params ← params
  mark .rParen
  mark .colon
  let result ← type
  let body ← bodyOrHeader
  return ⟨⟨ctx.space, target⟩, doc, ctx.origin, ← spanFrom start,
    .callable ⟨kind, params, result, attributes, body⟩⟩

/-- Read a specialization, whose keyword comes next. An operation named
without dots is one of the same namespace. -/
def specialization (ctx : Context) (variant : Variant) (doc : Doc) :
    Reading Declaration := do
  let start ← offset
  advance
  let target ← path
  let parent := if isDotted target then .ofPath target else ⟨ctx.space, target⟩
  let body ← bodyOrHeader
  return ⟨parent, doc, ctx.origin, ← spanFrom start,
    .specialization variant body⟩

/-- Read a declaration after its attributes. -/
def attributed (ctx : Context) (doc : Doc) : Reading Declaration := do
  let (attributes, moreDoc) ← attributes
  match ← peek with
  | .keyword .newtype => newtype ctx (doc ++ moreDoc) attributes
  | .keyword .function => callable ctx .function (doc ++ moreDoc) attributes
  | .keyword .operation => callable ctx .operation (doc ++ moreDoc) attributes
  | _ => expected .declaration

inductive Item where
  | opening (o : Open)
  | decl (d : Declaration)
deriving Repr, DecidableEq

/-- Read an item after its documentation. -/
def item (ctx : Context) (doc : Doc) : Reading Item := do
  match ← peek with
  | .keyword .open => return .opening (← openDirective)
  | .keyword .namespace => fault .nested
  | .keyword .adjoint => return .decl (← specialization ctx .adjoint doc)
  | .keyword .controlled => return .decl (← specialization ctx .controlled doc)
  | .mark .at | .keyword .newtype | .keyword .function | .keyword .operation =>
    return .decl (← attributed ctx doc)
  | _ => expected .declaration

/-! ## Going on after a fault -/

/-- A token that starts an item. -/
def startsItem : Kind → Bool
  | .keyword .namespace | .keyword .open | .keyword .function
  | .keyword .operation
  | .keyword .newtype | .keyword .adjoint | .keyword .controlled | .mark .at
  | .doc _ => true
  | _ => false

/-- Skip over tokens of the list, which is what lies ahead, with the given
number of braces open: past the brace that closes the last of them, or up to
a closing brace or a new item outside braces. -/
def skipItemFrom (start : Nat) : Nat → List Token → Cursor → Cursor
  | _, [], c => c
  | depth, t :: rest, c =>
    match t.kind, depth with
    | .eof, _ => c
    | .mark .lBrace, depth => skipItemFrom start (depth + 1) rest c.advance
    | .mark .rBrace, 0 => c
    | .mark .rBrace, 1 => c.advance
    | .mark .rBrace, depth + 2 => skipItemFrom start (depth + 1) rest c.advance
    | kind, depth =>
      if depth = 0 ∧ startsItem kind ∧ start < c.taken then c
      else skipItemFrom start depth rest c.advance

/-- Skip the rest of an item that failed and started when `start` tokens had
been read, and at least one token of it. -/
def skipItem (start : Nat) : Reading Unit := fun c =>
  let c := skipItemFrom start 0 c.ahead c
  .read () (if c.taken = start then c.advance else c)

/-! ## Blocks -/

def Item.addTo (block : Block) : Item → Block
  | .opening o => { block with opens := block.opens ++ [o] }
  | .decl d => { block with decls := block.decls ++ [d] }

/-- How a list of items ended. -/
inductive Ending where
  /-- At a closing brace or at the end of the text. -/
  | closed
  /-- There is no room for another fault. -/
  | spent
deriving Repr, DecidableEq

/-- Read items into a block, at most as many as given. -/
def itemsUpTo (origin : Origin) : Nat → Block → Reading (Block × Ending)
  | 0, block => return (block, .closed)
  | n + 1, block => do
    let start ← taken
    let doc ← docs
    match ← peek with
    | .mark .rBrace | .eof => return (block, .closed)
    | _ =>
      match ← attempt (item ⟨origin, block.name⟩ doc) with
      | .ok i => itemsUpTo origin n (i.addTo block)
      | .error why =>
        if ← record why then
          skipItem start
          itemsUpTo origin n block
        else return (block, .spent)

/-- Read a namespace block after its documentation. When there is no room for
another fault the block ends where the last one was found. -/
def namespaceBlock (origin : Origin) (doc : Doc) : Reading Block := do
  let start ← offset
  keyword .namespace
  let name ← path
  mark .lBrace
  let empty : Block := ⟨name, doc, [], [], ⟨start, start⟩⟩
  let (block, ending) ← fun c => itemsUpTo origin (c.ahead.length + 1) empty c
  match ending with
  | .spent => return block
  | .closed =>
    mark .rBrace
    return { block with span := ← spanFrom start }

/-- The blocks of a text so far: what stands outside namespaces, and the
namespace blocks in order. -/
structure Draft where
  outside : Block
  blocks : List Block
deriving Repr, DecidableEq

/-- Read a namespace block or an item outside namespaces. -/
def topLevel (origin : Origin) (draft : Draft) (doc : Doc) : Reading Draft := do
  if (← peek) = .keyword .namespace then
    let block ← namespaceBlock origin doc
    return { draft with blocks := draft.blocks ++ [block] }
  let i ← item ⟨origin, ""⟩ doc
  return { draft with outside := i.addTo draft.outside }

/-- Read a whole text, in at most the given number of steps. -/
def topLevelsUpTo (origin : Origin) : Nat → Draft → Reading Draft
  | 0, draft => return draft
  | n + 1, draft => do
    let start ← taken
    let doc ← docs
    match ← peek with
    | .eof => return draft
    | _ =>
      match ← attempt (topLevel origin draft doc) with
      | .ok draft => topLevelsUpTo origin n draft
      | .error why =>
        if ← record why then
          skipItem start
          topLevelsUpTo origin n draft
        else return draft

end Reading

/-- The blocks of a text and its syntax errors. -/
structure Parsed where
  blocks : List Block
  faults : List Fault
deriving Repr, DecidableEq

namespace Parsed

open Reading in
/-- Read the blocks of a list of tokens. -/
def ofTokens (tokens : List Token) (origin : Origin) : Parsed :=
  let start := Cursor.ofTokens tokens
  let empty : Draft := ⟨⟨"", [], [], [], .nowhere⟩, []⟩
  match topLevelsUpTo origin (start.ahead.length + 1) empty start with
  | .read draft c =>
    if draft.outside.isEmpty then ⟨draft.blocks, c.faults⟩
    else
      let outside := { draft.outside with span := ⟨0, c.current.span.stop⟩ }
      ⟨outside :: draft.blocks, c.faults⟩
  | .failed fault c => ⟨[], c.faults ++ [fault]⟩

end Parsed

end Exemplar
