import Exemplar.Text.Chars
import Exemplar.Toml.Text

/-!
# Numbers

The written forms of a number. No setting is a number, so a number is only
judged here, and its text is kept as it stands.

An underscore may stand between two digits. `groupsFit` looks at the text from
underscore to underscore, and only at the two characters that touch each of
them; that the rest of a number is made of digits is for the form to say.
-/

namespace Exemplar.Toml

def isAnyDigit (c : Char) : Bool := (hexValue? c).isSome

/-- Each underscore stands between two digits. -/
def groupsFit (isDigit : Char → Bool) (cs : List Char) : Bool :=
  match Chars.splitOn '_' cs with
  | [_] => true
  | groups =>
    groups.tail.all (fun group => group.head?.any isDigit)
      && groups.dropLast.all (fun group => group.getLast?.any isDigit)

def skipSign : List Char → List Char
  | '+' :: cs => cs
  | '-' :: cs => cs
  | cs => cs

/-! ## Bases other than ten -/

/-- The base of a number that starts with zero and this letter. -/
def baseOf? : Char → Option Nat
  | 'x' => some 16
  | 'o' => some 8
  | 'b' => some 2
  | _ => none

/-- The characters are digits in the given base, with underscores between
them. -/
def isDigitsIn (base : Nat) (cs : List Char) : Bool :=
  cs.all (fun c => c = '_' || (hexValue? c).any (· < base))
    && groupsFit isAnyDigit cs

/-! ## Base ten -/

/-- The character may stand in a run of digits. -/
def isRunChar (c : Char) : Bool := c.isDigit || c = '_'

/-- Past a run with at least one digit. Unless it is `padded`, a zero before
other digits may not lead it. -/
def digits? (padded : Bool) (cs : List Char) : Option (List Char) :=
  let run := cs.takeWhile isRunChar
  let count := (run.filter Char.isDigit).length
  if count = 0 || (1 < count && !padded && run.head? = some '0') then none
  else some (cs.dropWhile isRunChar)

/-- Past a fraction, if there is one. -/
def fraction? : List Char → Option (List Char)
  | '.' :: cs => digits? true cs
  | cs => some cs

def exponent? : List Char → Option (List Char)
  | 'e' :: cs => digits? true (skipSign cs)
  | 'E' :: cs => digits? true (skipSign cs)
  | cs => some cs

/-- The characters are digits, then perhaps a fraction and an exponent. -/
def isFloat (cs : List Char) : Bool :=
  match (digits? false cs).bind fraction? |>.bind exponent? with
  | some rest => rest.isEmpty
  | none => false

/-- The character makes a number more than an integer. -/
def isFloatMark (c : Char) : Bool := c = '.' || c = 'e' || c = 'E'

/-- The number in base ten, with or without a sign. An integer has no leading
zero. -/
def isDecimal (word : List Char) : Bool :=
  let body := skipSign word
  let rest := body.dropWhile Char.isDigit
  if rest.any isFloatMark then isFloat body && groupsFit Char.isDigit word
  else
    match body, rest with
    | [], _ => false
    | ['0'], [] => true
    | c :: _, [] => c != '0'
    | c :: _, '_' :: _ => c != '0' && groupsFit isAnyDigit word
    | _, _ => false

/-! ## All numbers -/

def isNumber (word : List Char) : Bool :=
  isDecimal word || skipSign word == "inf".toList || skipSign word
    == "nan".toList
    || match word with
      | '0' :: letter :: digits => (baseOf? letter).any (isDigitsIn · digits)
      | _ => false

end Exemplar.Toml
