import Exemplar.Text.Chars
import Exemplar.Token.Basic

/-!
# Lexemes

A text is a sequence of lexemes without gaps: blanks, comments, tokens, and
the stretches where no token can start. `lexemes` finds them; which of them
become tokens and which become errors is decided in `Exemplar.Token.Scan`.

At each place the longest lexeme wins. `classify` looks at the first
character and says how many of the following ones belong to the same lexeme,
so nothing can be lost or read twice (`flatten_lexemes`).
-/

namespace Exemplar

/-- Why a stretch of text is no token. -/
inductive ScanFault where
  /-- No token starts with this character; for a quote, the string it starts
  is never closed. -/
  | unexpected (c : Char)
  /-- A string holds a backslash that starts no known escape. -/
  | badEscape
  /-- An integer is too large. -/
  | badNumber
deriving Repr, DecidableEq

/-- What a stretch of text is. -/
inductive Shape where
  | skipped
  | token (kind : Kind)
  | fault (why : ScanFault)
deriving Repr, DecidableEq

/-- A stretch of text and what it is. -/
structure Lexeme where
  shape : Shape
  chars : List Char
deriving Repr, DecidableEq

namespace Lexeme

/-! ## Character classes -/

/-- The characters between tokens. -/
def isGap (c : Char) : Bool :=
  c == ' ' || c == '\t' || c == '\r' || c == '\n' || c == '\x0c'

/-- A decimal digit or a digit separator. -/
def isDigitOrBar (c : Char) : Bool := c.isDigit || c == '_'

def isNameStart (c : Char) : Bool := c.isAlpha || c == '_'

def isNameRest (c : Char) : Bool := c.isAlphanum || c == '_'

/-! ## Numbers -/

/-- The value of decimal digits, separators left out. -/
def decimalValue (cs : List Char) : Nat :=
  (cs.filter Char.isDigit).foldl (fun n c => 10 * n + (c.toNat - 48)) 0

/-- The largest integer literal: one less than the 63rd power of two. -/
def greatestInt : Nat := 9223372036854775807

/-- An exponent part `e`, optional sign, digits; none when no digit follows. -/
def exponentPart : List Char → List Char
  | e :: sign :: cs =>
    if e == 'e' || e == 'E' then
      if sign == '+' || sign == '-' then
        match cs.takeWhile Char.isDigit with
        | [] => []
        | digits => e :: sign :: digits
      else
        match (sign :: cs).takeWhile Char.isDigit with
        | [] => []
        | digits => e :: digits
    else []
  | _ => []

def exponentValue : List Char → Int
  | _ :: '-' :: digits => -(decimalValue digits : Int)
  | _ :: digits => decimalValue digits
  | [] => 0

/-- A point, the digits after it, and an exponent part; none unless a digit
follows the point. -/
def fractionPart : List Char → Option (List Char × List Char)
  | '.' :: d :: cs =>
    if d.isDigit then
      let digits := d :: cs.takeWhile isDigitOrBar
      some (digits, exponentPart (cs.dropWhile isDigitOrBar))
    else none
  | _ => none

/-- The number that starts with the digit `c`, and how many of the following
characters it takes. -/
def number (c : Char) (cs : List Char) : Shape × Nat :=
  let whole := cs.takeWhile isDigitOrBar
  match fractionPart (cs.drop whole.length) with
  | some (digits, exponent) =>
    let places : Nat := (digits.filter Char.isDigit).length
    let value := Double.ofDecimal (decimalValue (c :: whole ++ digits))
      (exponentValue exponent - places)
    (.token (.literal (.double value)),
      whole.length + 1 + digits.length + exponent.length)
  | none =>
    let value := decimalValue (c :: whole)
    (if value ≤ greatestInt then .token (.literal (.int value))
      else .fault .badNumber, whole.length)

/-! ## Strings -/

/-- The body of a string up to its closing quote, and whether there is one.
An unclosed body ends where it cannot go on: at the end of the text, or at a
backslash that a newline or the end of the text follows. -/
def stringBody : List Char → List Char × Bool
  | [] => ([], false)
  | '"' :: _ => ([], true)
  | ['\\'] => ([], false)
  | '\\' :: c :: cs =>
    if c = '\n' then ([], false)
    else
      let (body, closed) := stringBody cs
      ('\\' :: c :: body, closed)
  | c :: cs =>
    let (body, closed) := stringBody cs
    (c :: body, closed)

def escaped? : Char → Option Char
  | 'n' => some '\n'
  | 'r' => some '\r'
  | 't' => some '\t'
  | '0' => some '\x00'
  | '\\' => some '\\'
  | '"' => some '"'
  | _ => none

/-- The text a string body stands for. -/
def unescape? : List Char → Option (List Char)
  | [] => some []
  | ['\\'] => none
  | '\\' :: c :: cs => do
    let e ← escaped? c
    let rest ← unescape? cs
    return e :: rest
  | c :: cs => do
    let rest ← unescape? cs
    return c :: rest

def string (cs : List Char) : Shape × Nat :=
  match stringBody cs with
  | (body, false) => (.fault (.unexpected '"'), body.length)
  | (body, true) =>
    (match unescape? body with
      | some value => .token (.literal (.string (String.ofList value)))
      | none => .fault .badEscape,
      body.length + 1)

/-! ## Words and comments -/

def word (name : String) : Kind :=
  if name = "true" then .literal (.bool true)
  else if name = "false" then .literal (.bool false)
  else
    match Keyword.ofText? name with
    | some k => .keyword k
    | none => .ident name

/-- The documentation in a line after its three slashes: carriage returns at
the end go, and so does one blank at the start. -/
def docText (cs : List Char) : String :=
  match Chars.dropTrailing (· == '\r') cs with
  | ' ' :: rest => String.ofList rest
  | rest => String.ofList rest

/-- A comment to the end of the line, after its two slashes. -/
def comment (cs : List Char) : Shape × Nat :=
  let line := cs.takeWhile (· != '\n')
  match line with
  | '/' :: doc => (.token (.doc (docText doc)), line.length + 1)
  | _ => (.skipped, line.length + 1)

/-- A mark of two characters or of one, or nothing that can start a token. -/
def mark (c : Char) (cs : List Char) : Shape × Nat :=
  match cs.head?, Mark.ofCharEq? c, Mark.ofChar? c with
  | some '=', some m, _ => (.token (.mark m), 1)
  | _, _, some m => (.token (.mark m), 0)
  | _, _, none => (.fault (.unexpected c), 0)

/-! ## The sequence -/

/-- What the lexeme at `c :: cs` is, and how many characters of `cs` belong
to it. -/
def classify (c : Char) (cs : List Char) : Shape × Nat :=
  if isGap c then (.skipped, (cs.takeWhile isGap).length)
  else if c == '/' && cs.head? == some '/' then comment cs.tail
  else if c.isDigit then number c cs
  else if c == '"' then string cs
  else if isNameStart c then
    let rest := cs.takeWhile isNameRest
    (.token (word (String.ofList (c :: rest))), rest.length)
  else mark c cs

end Lexeme

/-- The lexemes of a text, without gaps. -/
def lexemes : List Char → List Lexeme
  | [] => []
  | c :: cs =>
    let (shape, taken) := Lexeme.classify c cs
    ⟨shape, c :: cs.take taken⟩ :: lexemes (cs.drop taken)
termination_by cs => cs.length
decreasing_by
  simp only [List.length_drop, List.length_cons]
  omega

/-- Every character of the text is in exactly one lexeme, in order. -/
theorem flatten_lexemes (cs : List Char) :
    ((lexemes cs).map Lexeme.chars).flatten = cs := by
  induction hn : cs.length using Nat.strongRecOn generalizing cs with
  | _ n ih =>
    subst hn
    cases cs with
    | nil => simp [lexemes]
    | cons c cs =>
      rw [lexemes]
      simp only [List.map_cons, List.flatten_cons, List.cons_append]
      rw [ih _ (by simp only [List.length_drop, List.length_cons]; omega) _ rfl,
        List.take_append_drop]

/-- No lexeme is empty. -/
theorem ne_nil_of_mem_lexemes {cs : List Char} {l : Lexeme}
    (h : l ∈ lexemes cs) :
    l.chars ≠ [] := by
  induction hn : cs.length using Nat.strongRecOn generalizing cs with
  | _ n ih =>
    subst hn
    cases cs with
    | nil => simp [lexemes] at h
    | cons c cs =>
      rw [lexemes] at h
      rcases List.mem_cons.mp h with rfl | h
      · simp
      · exact ih _ (by simp only [List.length_drop, List.length_cons]; omega) h
          rfl

end Exemplar
