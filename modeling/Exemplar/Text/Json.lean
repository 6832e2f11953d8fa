/-!
# JSON documents

The documents of the machine-readable reports, and their one written form:
two blanks of indentation a level, one field or item a line, empty lists and
objects closed at once. Only quotes, backslashes and control characters are
escaped; everything else stands for itself.
-/

namespace Exemplar

/-- A JSON document. Object fields keep their order. -/
inductive Json where
  | null
  | bool (b : Bool)
  | num (n : Nat)
  | str (s : String)
  | arr (items : List Json)
  | obj (fields : List (String × Json))
deriving Repr

namespace Json

def hexDigit (n : Nat) : Char :=
  if n < 10 then Char.ofNat (48 + n) else Char.ofNat (87 + n)

/-- How a character is written inside quotes. -/
def escapeChar (c : Char) : List Char :=
  if c = '"' then ['\\', '"']
  else if c = '\\' then ['\\', '\\']
  else if c = '\x08' then ['\\', 'b']
  else if c = '\t' then ['\\', 't']
  else if c = '\n' then ['\\', 'n']
  else if c = '\x0c' then ['\\', 'f']
  else if c = '\r' then ['\\', 'r']
  else if c.toNat < 0x20 then
    ['\\', 'u', '0', '0', hexDigit (c.toNat / 16), hexDigit (c.toNat % 16)]
  else [c]

def quote (s : String) : String :=
  String.ofList ('"' :: s.toList.flatMap escapeChar ++ ['"'])

/-- The line break before an item at the given depth. -/
def newline (depth : Nat) : String :=
  String.ofList ('\n' :: List.replicate (2 * depth) ' ')

mutual

def write (depth : Nat) : Json → String
  | .null => "null"
  | .bool true => "true"
  | .bool false => "false"
  | .num n => Nat.repr n
  | .str s => quote s
  | .arr [] => "[]"
  | .arr (item :: items) =>
    "[" ++ newline (depth + 1) ++ write (depth + 1) item
      ++ writeItems (depth + 1) items ++ newline depth ++ "]"
  | .obj [] => "\x7b\x7d"
  | .obj ((key, value) :: fields) =>
    "\x7b" ++ newline (depth + 1) ++ quote key ++ ": "
      ++ write (depth + 1) value
      ++ writeFields (depth + 1) fields ++ newline depth ++ "\x7d"

/-- The items after the first, each on a line of its own. -/
def writeItems (depth : Nat) : List Json → String
  | [] => ""
  | item :: items =>
    "," ++ newline depth ++ write depth item ++ writeItems depth items

/-- The fields after the first, each on a line of its own. -/
def writeFields (depth : Nat) : List (String × Json) → String
  | [] => ""
  | (key, value) :: fields =>
    "," ++ newline depth ++ quote key ++ ": " ++ write depth value
      ++ writeFields depth fields

end

def pretty (doc : Json) : String := write 0 doc

/-- An optional string, `null` when there is none. -/
def ofOption : Option String → Json
  | none => .null
  | some s => .str s

/-- The field, unless there is nothing to put into it. -/
def optional (key : String) : Option Json → List (String × Json)
  | none => []
  | some value => [(key, value)]

end Json

end Exemplar
