/-!
# The words of a configuration file

The lowest level of the file format: blanks, comments and line ends, keys, and
the four kinds of strings. A reader takes the characters that are left and
returns what it read and what is left then.

A string is read in two steps. The first finds its end, where a backslash
hides the character after it; the second replaces the escapes.
-/

namespace Exemplar.Toml

/-! ## Blanks and comments -/

/-- A blank between two words of a line. -/
def isSpace (c : Char) : Bool := c = ' ' || c = '\t'

/-- The character may stand in a comment or a string: it is a tab or no
control character. -/
def isPlain (c : Char) : Bool := c = '\t' || (0x20 ≤ c.toNat && c.toNat ≠ 0x7F)

def skipSpaces (cs : List Char) : List Char := cs.dropWhile isSpace

/-- Past a comment, up to the end of its line. -/
def skipComment : List Char → List Char
  | '#' :: cs => cs.dropWhile isPlain
  | cs => cs

def newline? : List Char → Option (List Char)
  | '\n' :: cs => some cs
  | '\r' :: '\n' :: cs => some cs
  | _ => none

/-- Past the end of a line on which only a comment may follow. The last line
needs no line end. -/
def endLine? (cs : List Char) : Option (List Char) :=
  match skipComment (skipSpaces cs) with
  | [] => some []
  | rest => newline? rest

/-- Past blanks, comments and line ends; `comment` says that a comment is going
on. -/
def skipBlankFrom (comment : Bool) : List Char → List Char
  | [] => []
  | '\n' :: cs => skipBlankFrom false cs
  | '\r' :: '\n' :: cs => skipBlankFrom false cs
  | c :: cs =>
    if comment then (if isPlain c then skipBlankFrom true cs else c :: cs)
    else if isSpace c then skipBlankFrom false cs
    else if c = '#' then skipBlankFrom true cs
    else c :: cs

/-- Past blanks, comments and line ends. -/
def skipBlank (cs : List Char) : List Char := skipBlankFrom false cs

/-! ## Escapes -/

def hexValue? (c : Char) : Option Nat :=
  if c.isDigit then some (c.toNat - 48)
  else if 'a' ≤ c && c ≤ 'f' then some (c.toNat - 87)
  else if 'A' ≤ c && c ≤ 'F' then some (c.toNat - 55)
  else none

/-- The character with the given code in hexadecimal digits. -/
def charOfHex? (digits : List Char) : Option Char := do
  let values ← digits.mapM hexValue?
  let code := values.foldl (fun n v => 16 * n + v) 0
  if code.isValidChar then some (Char.ofNat code) else none

/-- The character that a letter after a backslash stands for. -/
def escapeOf? : Char → Option Char
  | 'b' => some '\x08'
  | 't' => some '\t'
  | 'n' => some '\n'
  | 'f' => some '\x0c'
  | 'r' => some '\r'
  | 'e' => some '\x1b'
  | '"' => some '"'
  | '\\' => some '\\'
  | _ => none

/-- Replace the escapes of a string. Where strings may have several lines, a
backslash at the end of one hides the blanks and line ends after it;
`joining` says that this is going on. -/
def unescape (multi joining : Bool) : List Char → Option (List Char)
  | [] => some []
  | '\\' :: 'x' :: a :: b :: cs => do
    return (← charOfHex? [a, b]) :: (← unescape multi false cs)
  | '\\' :: 'u' :: a :: b :: c :: d :: cs => do
    return (← charOfHex? [a, b, c, d]) :: (← unescape multi false cs)
  | '\\' :: 'U' :: a :: b :: c :: d :: e :: f :: g :: h :: cs => do
    return (← charOfHex? [a, b, c, d, e, f, g, h])
      :: (← unescape multi false cs)
  | '\\' :: c :: cs =>
    match escapeOf? c with
    | some c => (unescape multi false cs).map (c :: ·)
    | none =>
      if multi && (newline? (skipSpaces (c :: cs))).isSome then
        unescape multi true (c :: cs)
      else none
  | ['\\'] => none
  | c :: cs =>
    if joining && (isSpace c || c = '\n' || c = '\r') then
      unescape multi true cs
    else (unescape multi false cs).map (c :: ·)

/-! ## Strings -/

/-- Up to the quote that ends a string on one line. -/
def toQuote : List Char → Option (List Char × List Char)
  | [] => none
  | '"' :: cs => some ([], cs)
  | '\\' :: c :: cs =>
    if isPlain c then
      (toQuote cs).map fun (body, rest) => ('\\' :: c :: body, rest)
    else none
  | c :: cs =>
    if isPlain c then (toQuote cs).map fun (body, rest) => (c :: body, rest)
    else none

/-- Up to the three quotes that end a string on several lines. Up to two more
quotes before them belong to the string. Backslashes hide what follows only
if `escapes` says so. -/
def toQuotes (quote : Char) (escapes : Bool) :
    List Char → Option (List Char × List Char)
  | [] => none
  | '\r' :: '\n' :: cs =>
    (toQuotes quote escapes cs).map fun (body, rest) =>
      ('\r' :: '\n' :: body, rest)
  | c :: cs =>
    if [c] ++ cs.take 4 = List.replicate 5 quote then
      some ([quote, quote], cs.drop 4)
    else if [c] ++ cs.take 3 = List.replicate 4 quote then
      some ([quote], cs.drop 3)
    else if [c] ++ cs.take 2 = List.replicate 3 quote then some ([], cs.drop 2)
    else if isPlain c || c = '\n' then
      match escapes && c = '\\', cs with
      | true, d :: cs =>
        if isPlain d || d = '\n' then
          (toQuotes quote escapes cs).map fun (body, rest) =>
            (c :: d :: body, rest)
        else if d = '\r' then
          (toQuotes quote escapes (d :: cs)).map fun (body, rest) =>
            (c :: body, rest)
        else none
      | _, cs =>
          (toQuotes quote escapes cs).map fun (body, rest) => (c :: body, rest)
    else none

/-- Past a line end right after the opening quotes. -/
def skipFirstNewline (cs : List Char) : List Char := (newline? cs).getD cs

/-- Read a string on one line, with escapes in double quotes and without in
single ones. -/
def lineString? : List Char → Option (String × List Char)
  | '"' :: cs => do
    let (body, rest) ← toQuote cs
    let text ← unescape false false body
    return (String.ofList text, rest)
  | '\x27' :: cs =>
    match cs.dropWhile fun c => isPlain c && c ≠ '\x27' with
    | '\x27' :: rest =>
      some (String.ofList (cs.takeWhile fun c => isPlain c && c ≠ '\x27'), rest)
    | _ => none
  | _ => none

def string? : List Char → Option (String × List Char)
  | '"' :: '"' :: '"' :: cs => do
    let (body, rest) ← toQuotes '"' true (skipFirstNewline cs)
    let text ← unescape true false body
    return (String.ofList text, rest)
  | '\x27' :: '\x27' :: '\x27' :: cs => do
    let (body, rest) ← toQuotes '\x27' false (skipFirstNewline cs)
    return (String.ofList body, rest)
  | cs => lineString? cs

/-! ## Keys -/

/-- The character may stand in a key without quotes. -/
def isBare (c : Char) : Bool := c.isAlphanum || c = '_' || c = '-'

/-- Read a key without dots. -/
def key? (cs : List Char) : Option (String × List Char) :=
  match cs.takeWhile isBare with
  | [] => lineString? cs
  | name => some (String.ofList name, cs.dropWhile isBare)

def keys? (fuel : Nat) (cs : List Char) : Option (List String × List Char) :=
  match fuel with
  | 0 => none
  | fuel + 1 => do
    let (name, rest) ← key? cs
    match skipSpaces rest with
    | '.' :: rest =>
      let (names, rest) ← keys? fuel (skipSpaces rest)
      return (name :: names, rest)
    | rest => return ([name], rest)

/-- How many keys a path can have, and how many brackets can be open at
once. -/
def nestingLimit : Nat := 80

/-- Read a path: keys with dots between them, and blanks around the dots. -/
def keyPath? (cs : List Char) : Option (List String × List Char) := do
  let (names, rest) ← keys? cs.length cs
  if names.length ≤ nestingLimit then some (names, rest) else none

end Exemplar.Toml
