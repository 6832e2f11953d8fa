/-!
# Diagnostic codes

The table of codes, with a title and a category for each.
-/

namespace Exemplar

/-- The kind of problem a code is about. -/
inductive Category where
  | syntactic
  | resolution
  | semantic
  | lint
  | example
deriving Repr, DecidableEq

def Category.text : Category → String
  | .syntactic => "Syntax"
  | .resolution => "Resolution"
  | .semantic => "Semantic"
  | .lint => "Lint"
  | .example => "DocTest"

structure CodeInfo where
  code : String
  title : String
  category : Category
deriving Repr, DecidableEq

namespace CodeInfo

/-- Every code, in order. -/
def table : List CodeInfo :=
  [⟨"E0001", "unexpected character", .syntactic⟩,
    ⟨"E0100", "unexpected token", .syntactic⟩,
    ⟨"E0200", "unresolved identifier", .resolution⟩,
    ⟨"E0201", "duplicate definition", .resolution⟩,
    ⟨"E0202", "specialization of unknown callable", .resolution⟩,
    ⟨"E0203", "unknown type", .resolution⟩,
    ⟨"E0207", "unknown namespace", .resolution⟩,
    ⟨"E0300", "arity mismatch", .semantic⟩,
    ⟨"E0301", "assignment to immutable binding", .semantic⟩,
    ⟨"E0302", "specialization of a function", .semantic⟩,
    ⟨"W0001", "unused binding", .lint⟩,
    ⟨"W0100", "unterminated example fence", .example⟩]

def find? (code : String) : Option CodeInfo :=
  table.find? fun info => info.code == code

end CodeInfo

end Exemplar
