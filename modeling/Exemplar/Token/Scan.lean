import Exemplar.Token.Lexeme

/-!
# Scanning

`Scan.ofText` turns a text into tokens and errors. Bad input is recorded and
passed over, so that later errors are still found; after the twentieth error
the rest of the text is left unread. The last token is always `eof`, at the
end of the text.
-/

namespace Exemplar

structure ScanError where
  why : ScanFault
  span : Span
deriving Repr, DecidableEq

namespace ScanFault

/-- Where the fault is shown, in a lexeme that starts at `start`: an
unexpected character at the character, a bad escape at the opening quote, and
a bad number as a whole. -/
def spanIn (why : ScanFault) (start : Nat) (chars : List Char) : Span :=
  match why with
  | .unexpected c => ⟨start, start + c.utf8Size⟩
  | .badEscape => ⟨start, start + 1⟩
  | .badNumber => ⟨start, start + Chars.byteLength chars⟩

def message : ScanFault → String
  | .unexpected c => "Unexpected character '" ++ String.singleton c ++ "'"
  | .badEscape => "Invalid escape sequence"
  | .badNumber => "Invalid number"

def hint : ScanFault → Option String
  | .unexpected c => if c = '"' then some "Add a closing '\"'" else none
  | .badEscape => some "Valid: \\n \\r \\t \\\\ \\0 \\\""
  | .badNumber => none

end ScanFault

/-- The tokens and errors of a text. -/
structure Scan where
  tokens : List Token
  errors : List ScanError
deriving Repr, DecidableEq

namespace Scan

/-- As many errors as are reported for one text. -/
def errorLimit : Nat := 20

/-- The tokens and errors among lexemes that start at `offset`, up to and
including the error that spends the budget. -/
def collect : Nat → Nat → List Lexeme → Scan
  | 0, _, _ => ⟨[], []⟩
  | _ + 1, _, [] => ⟨[], []⟩
  | budget + 1, offset, l :: ls =>
    let next := offset + Chars.byteLength l.chars
    match l.shape with
    | .skipped => collect (budget + 1) next ls
    | .token kind =>
      let rest := collect (budget + 1) next ls
      ⟨⟨kind, ⟨offset, next⟩⟩ :: rest.tokens, rest.errors⟩
    | .fault why =>
      let rest := collect budget next ls
      ⟨rest.tokens, ⟨why, why.spanIn offset l.chars⟩ :: rest.errors⟩

def ofText (text : String) : Scan :=
  let found := collect errorLimit 0 (lexemes text.toList)
  let stop := text.utf8ByteSize
  ⟨found.tokens ++ [⟨.eof, ⟨stop, stop⟩⟩], found.errors⟩

/-- No more errors than the budget allows. -/
theorem length_errors_collect_le (budget offset : Nat) (ls : List Lexeme) :
    (collect budget offset ls).errors.length ≤ budget := by
  induction ls generalizing budget offset with
  | nil => cases budget <;> simp [collect]
  | cons l ls ih =>
    cases budget with
    | zero => simp [collect]
    | succ b =>
      simp only [collect]
      split
      · exact ih ..
      · exact ih ..
      · simpa using ih ..

end Scan

end Exemplar
