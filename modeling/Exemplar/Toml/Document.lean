import Exemplar.Example.Settings
import Exemplar.Toml.Moment
import Exemplar.Toml.Number
import Exemplar.Toml.Table
import Exemplar.Toml.Text

/-!
# Configuration files

A file is a sequence of lines: headers, which open a table, and keys with
their values, which go into the table opened last. Values in brackets may
cover several lines.

The examples of a program are configured by the table `doctest`, and nothing
else may be in the file.
-/

namespace Exemplar.Toml

/-! ## Values -/

/-- The character may stand in a word, which is a value without quotes or
brackets. -/
def isWordChar (c : Char) : Bool := !"=,[]\x7b\x7d \t#\r\n".toList.contains c

/-- The word at the start, and what is left. The two parts of a moment may have
a blank between them. -/
def splitWord (cs : List Char) : List Char × List Char :=
  let word := cs.takeWhile isWordChar
  match cs.dropWhile isWordChar with
  | ' ' :: rest =>
    let joined := word ++ ' ' :: rest.takeWhile isWordChar
    if isMoment joined then (joined, rest.dropWhile isWordChar)
    else (word, ' ' :: rest)
  | rest => (word, rest)

def wordValue? (word : List Char) : Option Value :=
  if word = "true".toList then some (.bool true)
  else if word = "false".toList then some (.bool false)
  else if isNumber word || isMoment word then some (.scalar
    (String.ofList word))
  else none

mutual

/-- Read a value in which at most `depth` brackets are open at once: no word
starts with a bracket. -/
def value? (fuel depth : Nat) (cs : List Char) : Option (Value × List Char) :=
  match fuel with
  | 0 => none
  | fuel + 1 =>
    match cs, depth with
    | '[' :: rest, depth + 1 => do
      let (items, rest) ← items? fuel depth (skipBlank rest)
      return (.list items, rest)
    | '{' :: rest, depth + 1 => do
      let (fields, rest) ← fields? fuel depth [] (skipBlank rest)
      return (.table (fieldValues fields), rest)
    | '"' :: _, _ | '\x27' :: _, _ =>
        (string? cs).map fun (s, rest) => (.text s, rest)
    | _, _ => (wordValue? (splitWord cs).1).map fun v => (v, (splitWord cs).2)

/-- Read the items of a list that are left, and the bracket after them. -/
def items? (fuel depth : Nat) (cs : List Char) :
    Option (List Value × List Char) :=
  match fuel with
  | 0 => none
  | fuel + 1 =>
    match cs with
    | ']' :: rest => some ([], rest)
    | _ => do
      let (v, rest) ← value? fuel depth cs
      match skipBlank rest with
      | ',' :: rest =>
        let (items, rest) ← items? fuel depth (skipBlank rest)
        return (v :: items, rest)
      | ']' :: rest => return ([v], rest)
      | _ => none

/-- Read the fields of a table that are left, and the brace after them. Unlike
on a line of its own, a key may be on another line than its value. -/
def fields? (fuel depth : Nat) (fields : Fields) (cs : List Char) :
    Option (Fields × List Char) :=
  match fuel with
  | 0 => none
  | fuel + 1 =>
    match cs with
    | '}' :: rest => some (fields, rest)
    | _ => do
      let (path, rest) ← keyPath? cs
      match skipBlank rest with
      | '=' :: rest =>
        let (v, rest) ← value? fuel depth (skipBlank rest)
        let fields ← fields.insert? path v
        match skipBlank rest with
        | ',' :: rest => fields? fuel depth fields (skipBlank rest)
        | '}' :: rest => return (fields, rest)
        | _ => none
      | _ => none

end

/-! ## Lines -/

/-- A line that says something. -/
inductive Line where
  /-- Open a table. -/
  | header (path : List String)
  /-- Open the next table of a list of tables. -/
  | next (path : List String)
  /-- Give a key its value. -/
  | entry (path : List String) (v : Value)

/-- Read what a line says. Each value is read with steps enough: a character
takes at most two. -/
def line? : List Char → Option (Line × List Char)
  | '[' :: '[' :: cs => do
    let (path, rest) ← keyPath? (skipSpaces cs)
    match rest with
    | ']' :: ']' :: rest => return (.next path, rest)
    | _ => none
  | '[' :: cs => do
    let (path, rest) ← keyPath? (skipSpaces cs)
    match rest with
    | ']' :: rest => return (.header path, rest)
    | _ => none
  | cs => do
    let (path, rest) ← keyPath? cs
    match rest with
    | '=' :: rest =>
      let (v, rest) ← value? (2 * cs.length + 2) nestingLimit (skipSpaces rest)
      return (.entry path v, rest)
    | _ => none

def lines? (fuel : Nat) (cs : List Char) : Option (List Line) :=
  match fuel, skipBlank cs with
  | _, [] => some []
  | 0, _ => none
  | fuel + 1, cs => do
    let (line, rest) ← line? cs
    let rest ← endLine? rest
    return line :: (← lines? fuel rest)

/-! ## Documents -/

/-- A file that has been read up to some line: its fields, and the path of the
table opened last. -/
structure Draft where
  fields : Fields
  current : List String

/-- Do what a line says. -/
def Draft.add? (d : Draft) : Line → Option Draft
  | .header path => (d.fields.openTable? path).map fun fields => ⟨fields, path⟩
  | .next path => (d.fields.openNext? path).map fun fields => ⟨fields, path⟩
  | .entry path v =>
    (d.fields.changeAt false (fun fields => fields.insert? path v)
      d.current).map fun fields => ⟨fields, d.current⟩

/-- Read a file, past a byte order mark. -/
def document? (text : String) : Option (List (String × Value)) := do
  let cs := match text.toList with
    | '\uFEFF' :: cs => cs
    | cs => cs
  let lines ← lines? cs.length cs
  let draft ← lines.foldlM Draft.add? ⟨[], []⟩
  return fieldValues draft.fields

end Exemplar.Toml

namespace Exemplar

def Settings.ofToml? (text : String) : Option Settings := do
  match ← Toml.document? text with
  | [] => return {}
  | [("doctest", v)] => ofValue? .file v
  | _ => none

end Exemplar
