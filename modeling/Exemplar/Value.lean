/-!
# Values

What a configuration file or a request can say about a setting.
-/

namespace Exemplar

/-- A value as it stands in a configuration file or a request. -/
inductive Value where
  | null
  | bool (b : Bool)
  /-- A number or date, as written. No setting has such a value. -/
  | scalar (text : String)
  | text (s : String)
  | list (items : List Value)
  | table (fields : List (String × Value))
deriving Repr, Inhabited

namespace Value

def text? : Value → Option String
  | .text s => some s
  | _ => none

def bool? : Value → Option Bool
  | .bool b => some b
  | _ => none

def texts? : Value → Option (List String)
  | .list items => items.mapM text?
  | _ => none

end Value

end Exemplar
