import Exemplar.Double
import Exemplar.Text.Span

/-!
# Tokens

The words of the language: literals, names, documentation lines, keywords and
marks. A documentation line is a token of its own because declarations keep
it; other comments never become tokens.
-/

namespace Exemplar

/-- A literal value. Integers are below `2 ^ 63` when they come from a text. -/
inductive Literal where
  | int (value : Nat)
  | double (value : Double)
  | string (value : String)
  | bool (value : Bool)
deriving Repr, DecidableEq

/-- The reserved words, apart from the two truth values. -/
inductive Keyword where
  | namespace
  | open
  | as
  | function
  | operation
  | newtype
  | adjoint
  | controlled
  | let
  | mutable
  | set
  | return
  | if
  | else
  | for
  | in
  | and
  | or
  | not
deriving Repr, DecidableEq

namespace Keyword

/-- The word itself. -/
def text : Keyword → String
  | .namespace => "namespace"
  | .open => "open"
  | .as => "as"
  | .function => "function"
  | .operation => "operation"
  | .newtype => "newtype"
  | .adjoint => "adjoint"
  | .controlled => "controlled"
  | .let => "let"
  | .mutable => "mutable"
  | .set => "set"
  | .return => "return"
  | .if => "if"
  | .else => "else"
  | .for => "for"
  | .in => "in"
  | .and => "and"
  | .or => "or"
  | .not => "not"

def all : List Keyword :=
  [.namespace, .open, .as, .function, .operation, .newtype, .adjoint,
    .controlled, .let, .mutable, .set, .return, .if, .else, .for, .in, .and,
    .or, .not]

def ofText? (word : String) : Option Keyword :=
  all.find? fun k => k.text == word

theorem mem_all (k : Keyword) : k ∈ all := by
  cases k <;> decide

end Keyword

/-- Operators, separators and brackets. -/
inductive Mark where
  | plus
  | minus
  | star
  | slash
  | percent
  | eq
  | eqEq
  | bangEq
  | lt
  | gt
  | ltEq
  | gtEq
  | at
  | dot
  | lBrace
  | rBrace
  | lParen
  | rParen
  | lBracket
  | rBracket
  | colon
  | semi
  | comma
deriving Repr, DecidableEq

namespace Mark

/-- The characters of the mark. -/
def text : Mark → String
  | .plus => "+"
  | .minus => "-"
  | .star => "*"
  | .slash => "/"
  | .percent => "%"
  | .eq => "="
  | .eqEq => "=="
  | .bangEq => "!="
  | .lt => "<"
  | .gt => ">"
  | .ltEq => "<="
  | .gtEq => ">="
  | .at => "@"
  | .dot => "."
  | .lBrace => "\x7b"
  | .rBrace => "\x7d"
  | .lParen => "("
  | .rParen => ")"
  | .lBracket => "["
  | .rBracket => "]"
  | .colon => ":"
  | .semi => ";"
  | .comma => ","

/-- The mark of a single character. -/
def ofChar? : Char → Option Mark
  | '+' => some .plus
  | '-' => some .minus
  | '*' => some .star
  | '/' => some .slash
  | '%' => some .percent
  | '=' => some .eq
  | '<' => some .lt
  | '>' => some .gt
  | '@' => some .at
  | '.' => some .dot
  | '{' => some .lBrace
  | '}' => some .rBrace
  | '(' => some .lParen
  | ')' => some .rParen
  | '[' => some .lBracket
  | ']' => some .rBracket
  | ':' => some .colon
  | ';' => some .semi
  | ',' => some .comma
  | _ => none

/-- The mark of a character followed by an equals sign. -/
def ofCharEq? : Char → Option Mark
  | '=' => some .eqEq
  | '!' => some .bangEq
  | '<' => some .ltEq
  | '>' => some .gtEq
  | _ => none

end Mark

/-- What a token is. -/
inductive Kind where
  | literal (value : Literal)
  | ident (name : String)
  | doc (line : String)
  | keyword (word : Keyword)
  | mark (sign : Mark)
  | eof
deriving Repr, DecidableEq

/-- The words messages use for a token. -/
def Kind.describe : Kind → String
  | .literal (.int n) => "number `" ++ Nat.repr n ++ "`"
  | .literal (.double x) => "number `" ++ x.text ++ "`"
  | .literal (.string _) => "string"
  | .literal (.bool true) => "`true`"
  | .literal (.bool false) => "`false`"
  | .ident name => "`" ++ name ++ "`"
  | .doc _ => "doc comment"
  | .keyword word => "`" ++ word.text ++ "`"
  | .mark sign => "'" ++ sign.text ++ "'"
  | .eof => "end of file"

structure Token where
  kind : Kind
  span : Span
deriving Repr, DecidableEq

end Exemplar
