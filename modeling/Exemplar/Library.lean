import Exemplar.Grammar.Blocks
import Exemplar.Program
import Exemplar.Token.Scan

/-!
# Libraries

What a program is linked against: for each reference, the namespaces whose
headers it provides. Entries stand in the order of their origins, each origin
once.
-/

namespace Exemplar

def parseText (text : String) (origin : Origin) : Parsed :=
  .ofTokens (Scan.ofText text).tokens origin

/-- The namespaces provided by references, by origin. -/
structure Library where
  entries : List (Origin × List Namespace)
deriving Repr, DecidableEq

namespace Library

def empty : Library := ⟨[]⟩

/-- Add namespaces to an ordered table, after those of the same origin. -/
def insertEntry (origin : Origin) (namespaces : List Namespace) :
    List (Origin × List Namespace) → List (Origin × List Namespace)
  | [] => [(origin, namespaces)]
  | (o, nss) :: rest =>
    if origin = o then (o, nss ++ namespaces) :: rest
    else if origin.before o then (origin, namespaces) :: (o, nss) :: rest
    else (o, nss) :: insertEntry origin namespaces rest

/-- Add namespaces, after those already there for the same origin. -/
def insert (library : Library) (origin : Origin) (namespaces : List Namespace) :
    Library :=
  ⟨insertEntry origin namespaces library.entries⟩

def single (origin : Origin) (namespaces : List Namespace) : Library :=
  ⟨[(origin, namespaces)]⟩

/-- Add what a header text declares. What cannot be read of it is left out. -/
def insertText (library : Library) (origin : Origin) (text : String) :
    Library :=
  library.insert origin (namespacesOfBlocks (parseText text origin).blocks)

def origins (library : Library) : List Origin := library.entries.map Prod.fst

def get? (library : Library) (origin : Origin) : Option (List Namespace) :=
  library.entries.lookup origin

/-- All namespaces, reference by reference. -/
def namespaces (library : Library) : List Namespace :=
  library.entries.flatMap Prod.snd

theorem mem_origins_insert {library : Library} {origin o : Origin}
    {nss : List Namespace} :
    o ∈ (library.insert origin nss).origins
      ↔ o = origin ∨ o ∈ library.origins := by
  obtain ⟨entries⟩ := library
  simp only [insert, origins]
  induction entries with
  | nil => simp [insertEntry]
  | cons e rest ih =>
    obtain ⟨p, qs⟩ := e
    simp only [insertEntry]
    split
    · simp_all
    · split
      · simp
      · simp only [List.map_cons, List.mem_cons, ih]
        exact or_left_comm

end Library

end Exemplar
