/-!
# Requests

What can be asked on the command line: one of three commands, on some files,
with a few options.
-/

namespace Exemplar

/-- What to do with the files. -/
inductive Command where
  /-- Compile the files and their examples. -/
  | check
  /-- Print the examples. -/
  | extract
  /-- List the tests made from examples. -/
  | tests
deriving Repr, DecidableEq

def Command.text : Command → String
  | .check => "check"
  | .extract => "extract"
  | .tests => "tests"

def Command.ofText? (name : String) : Option Command :=
  [check, extract, tests].find? fun c => c.text == name

theorem Command.ofText?_text (c : Command) : ofText? c.text = some c := by
  cases c <;> decide

/-- What the output is written for. -/
inductive OutputFormat where
  /-- People. -/
  | text
  /-- Programs. -/
  | json
deriving Repr, DecidableEq

def OutputFormat.key : OutputFormat → String
  | .text => "text"
  | .json => "json"

def OutputFormat.ofKey? (name : String) : Option OutputFormat :=
  [text, json].find? fun f => f.key == name

/-- A command with its files and options. -/
structure Request where
  command : Command
  /-- At least one, when it comes from the command line. -/
  files : List String
  /-- The configuration file; if there is none, one is looked for. -/
  config : Option String := none
  format : OutputFormat := .text
  logLevel : String := "warn"
deriving Repr, DecidableEq

end Exemplar
