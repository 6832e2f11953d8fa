import Exemplar.Token.Basic

/-!
# Syntax errors

A syntax error says what was expected and what stood there instead. Its
message and its hint are functions of those two alone.
-/

namespace Exemplar

/-- What the grammar asks for at some point. -/
inductive Expected where
  | keyword (word : Keyword)
  | mark (sign : Mark)
  | name
  | string
  | type
  | expression
  | declaration
  /-- A body in braces, or the semicolon of a header without one. -/
  | body
deriving Repr, DecidableEq

/-- The words messages use for it. -/
def Expected.text : Expected → String
  | .keyword word => "'" ++ word.text ++ "'"
  | .mark sign => "'" ++ sign.text ++ "'"
  | .name => "name"
  | .string => "a string"
  | .type => "type"
  | .expression => "expression"
  | .declaration => "declaration"
  | .body => "'\x7b' or ';'"

/-- Why a text does not follow the grammar. -/
inductive Cause where
  /-- Something else stands where the grammar asks for `what`. -/
  | expected (what : Expected) (found : Kind)
  /-- A `namespace` inside another. -/
  | nested
  /-- The nesting is deeper than the allowance of the reader. Allowances are
  computed from the tokens ahead and are never spent. -/
  | tooDeep
deriving Repr, DecidableEq

/-- A syntax error and the token it is found at. -/
structure Fault where
  span : Span
  cause : Cause
deriving Repr, DecidableEq

/-- The bracket a closing bracket belongs to. -/
def Mark.opener? : Mark → Option Mark
  | .rBrace => some .lBrace
  | .rParen => some .lParen
  | .rBracket => some .lBracket
  | _ => none

namespace Cause

/-- The message for something else than was expected. A closing bracket that
is missing at the end of the text is reported as unclosed. -/
def expectedMessage (what : Expected) (found : Kind) : String :=
  let plain := "Expected " ++ what.text ++ ", found " ++ found.describe
  match what with
  | .mark sign =>
    match sign.opener?, found with
    | some opener, .eof =>
      "Unclosed '" ++ opener.text ++ "' - missing " ++ what.text
    | _, _ =>
      match sign with
      | .lBrace => "Expected '\x7b' to start block, found " ++ found.describe
      | .rBrace => "Expected '\x7d' to close block, found " ++ found.describe
      | _ => plain
  | _ => plain

def message : Cause → String
  | .expected what found => expectedMessage what found
  | .nested => "Namespaces cannot be nested"
  | .tooDeep => "Nesting is too deep"

def markHint (sign : Mark) (found : Kind) : Option String :=
  match sign, found with
  | .colon, .mark .eq => some "use ':' for types, '=' for values"
  | .colon, .mark .lBrace =>
    some "callables declare a return type: `function F() : Unit \x7b ... \x7d`"
  | .colon, _ => some "syntax: name : Type"
  | .lBrace, _ => some "blocks start with '\x7b'"
  | .rBrace, .eof => some "every '\x7b' needs a matching '\x7d'"
  | .lParen, _ =>
      some "attributes and callables need parentheses, even when empty"
  | .rParen, .eof => some "add ')' to close the parenthesis"
  | .rParen, .mark .semi => some "add ')' before ';'"
  | .rBracket, .eof => some "add ']' to close the bracket"
  | .semi, .mark .rBrace => some "statements end with ';'"
  | .semi, _ => some "end statements and headers with ';'"
  | .eq, .mark .colon => some "bindings are written `let name = value;`"
  | _, _ => none

def expectedHint (what : Expected) (found : Kind) : Option String :=
  match what, found with
  | .mark sign, _ => markHint sign found
  | .keyword _, _ => none
  | .body, _ => some "write a body in '\x7b \x7d' or end a header with ';'"
  | .expression, .mark .semi => some "statement is incomplete"
  | .expression, .mark .eq => some "put the value after '='"
  | .expression, _ => some "try a value, variable, or call"
  | .name, .literal (.int _) => some "names can't start with a number"
  | .name, _ => some "names start with a letter or '_'"
  | .string, _ => some "expected a quoted string like \"Simulator\""
  | .type, _ => some "try a type like 'Int', 'Bool', '(Int, Double)' or 'Int[]'"
  | .declaration, .keyword .let | .declaration, .keyword .mutable
  | .declaration, .keyword .set =>
      some "statements belong inside a callable body"
  | .declaration, _ =>
    some "start with 'function', 'operation', 'newtype', 'open' or '@'"

def hint : Cause → Option String
  | .expected what found => expectedHint what found
  | .nested => some "close the enclosing namespace first"
  | .tooDeep => none

end Cause

end Exemplar
