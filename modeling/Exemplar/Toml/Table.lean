import Exemplar.Value

/-!
# Tables under construction

A configuration file fills its tables from several places: a header opens one,
dotted keys reach into those below it. What may still be added to a table
depends on how it came to be, so that is kept until the file has been read;
`Node.toValue` then forgets it.

Nothing is ever defined twice: an addition that would change or reopen what is
there fails.
-/

namespace Exemplar.Toml

/-- How a table came to be. -/
inductive Making where
  /-- It stands on the way to the table of some header. Its own header may
  still come. -/
  | implied
  /-- It stands on the way to the value of a dotted key. -/
  | dotted
  /-- It has had its header. -/
  | headed
deriving Repr, DecidableEq

/-- What a key of an unfinished table has. -/
inductive Node where
  /-- A value; nothing can be added to it. -/
  | leaf (v : Value)
  | table (making : Making) (fields : List (String × Node))
  /-- A list with one table for each header: the finished ones, and the
  fields of the last. -/
  | series (done : List Value) (last : List (String × Node))

abbrev Fields := List (String × Node)

mutual

def Node.toValue : Node → Value
  | .leaf v => v
  | .table _ fields => .table (fieldValues fields)
  | .series done last => .list (done ++ [.table (fieldValues last)])

def fieldValues : List (String × Node) → List (String × Value)
  | [] => []
  | (key, node) :: rest => (key, node.toValue) :: fieldValues rest

end

namespace Fields

def get? (fields : Fields) (key : String) : Option Node :=
  List.lookup key fields

/-- Give a key something, in the place of what it has or at the end. -/
def set (key : String) (node : Node) : Fields → Fields
  | [] => [(key, node)]
  | (k, n) :: rest =>
      if k = key then (key, node) :: rest else (k, n) :: set key node rest

/-- Change the fields of the table at a path. Missing tables on the way are
made; dotted keys do not reach into a table that has a header. -/
def changeAt (dotted : Bool) (change : Fields → Option Fields) :
    List String → Fields → Option Fields
  | [], fields => change fields
  | key :: path, fields =>
    match fields.get? key with
    | none => do
      let sub ← changeAt dotted change path []
      return fields.set key (.table (if dotted then .dotted else .implied) sub)
    | some (.table making sub) =>
      if dotted && making == .headed then none
      else do
        return fields.set key
          (.table making (← changeAt dotted change path sub))
    | some (.series done last) =>
      if dotted then none
      else do
        return fields.set key
          (.series done (← changeAt dotted change path last))
    | some (.leaf _) => none

/-- Split a path before its last key. -/
def splitPath (path : List String) : Option (List String × String) :=
  path.getLast?.map fun key => (path.dropLast, key)

/-- Give a new key, which may be dotted, a value. -/
def insert? (fields : Fields) (path : List String) (v : Value) :
    Option Fields := do
  let (path, key) ← splitPath path
  fields.changeAt true (fun fields =>
    match fields.get? key with
    | none => some (fields.set key (.leaf v))
    | some _ => none) path

def openTable? (fields : Fields) (path : List String) : Option Fields := do
  let (path, key) ← splitPath path
  fields.changeAt false (fun fields =>
    match fields.get? key with
    | none => some (fields.set key (.table .headed []))
    | some (.table .implied sub) => some (fields.set key (.table .headed sub))
    | some _ => none) path

/-- Open the next table of a list of tables. -/
def openNext? (fields : Fields) (path : List String) : Option Fields := do
  let (path, key) ← splitPath path
  fields.changeAt false (fun fields =>
    match fields.get? key with
    | none => some (fields.set key (.series [] []))
    | some (.series done last) =>
      some (fields.set key (.series (done ++ [.table (fieldValues last)]) []))
    | some _ => none) path

end Fields

end Exemplar.Toml
