/-!
# Origins

Where a declaration comes from: the name of a source text and the role it
plays. Primary sources are the user's own files, references are headers that
can be linked against, and synthetic sources are generated.

Origins are ordered by role and then by name, code point by code point; the
sets and tables keyed by origins follow that order.
-/

namespace Exemplar

/-- The part a source plays in a build. -/
inductive Role where
  | primary
  | reference
  | synthetic
deriving Repr, DecidableEq

def Role.rank : Role → Nat
  | .primary => 0
  | .reference => 1
  | .synthetic => 2

/-- A source by role and name. -/
structure Origin where
  role : Role
  name : String
deriving Repr, DecidableEq

namespace Origin

/-- One of the user's own files. -/
def primary (name : String) : Origin := ⟨.primary, name⟩

/-- A header to link against. -/
def reference (name : String) : Origin := ⟨.reference, name⟩

/-- A generated source. -/
def synthetic (name : String) : Origin := ⟨.synthetic, name⟩

def asReference (o : Origin) : Origin := ⟨.reference, o.name⟩

def isPrimary (o : Origin) : Bool := o.role == .primary

def isReference (o : Origin) : Bool := o.role == .reference

def isSynthetic (o : Origin) : Bool := o.role == .synthetic

/-- The name as shown to the user, marked with the role. -/
def text (o : Origin) : String :=
  match o.role with
  | .primary => o.name
  | .reference => o.name ++ " (reference)"
  | .synthetic => "<" ++ o.name ++ ">"

/-- Strictly before, by role and then by name. -/
def before (a b : Origin) : Bool :=
  a.role.rank < b.role.rank
    || (a.role.rank == b.role.rank && decide (a.name < b.name))

/-! ## Sets -/

/-- Add an origin to a strictly increasing list, once. -/
def insert (o : Origin) : List Origin → List Origin
  | [] => [o]
  | p :: ps =>
    if o = p then p :: ps
    else if o.before p then o :: p :: ps
    else p :: insert o ps

/-- The distinct origins of a list, in order. -/
def sorted (os : List Origin) : List Origin := os.foldr insert []

theorem mem_insert {o p : Origin} {ps : List Origin} :
    p ∈ insert o ps ↔ p = o ∨ p ∈ ps := by
  induction ps with
  | nil => simp [insert]
  | cons q qs ih =>
    simp only [insert]
    split
    · simp_all
    · split <;> simp_all [or_left_comm]

/-- Sorting keeps exactly the members. -/
theorem mem_sorted {p : Origin} {os : List Origin} :
    p ∈ sorted os ↔ p ∈ os := by
  induction os with
  | nil => simp [sorted]
  | cons o os ih =>
    have h : sorted (o :: os) = insert o (sorted os) := rfl
    rw [h, mem_insert, ih, List.mem_cons]

end Origin

end Exemplar
