import Exemplar.Grammar.Fault

/-!
# Reading tokens

A `Reading α` takes a `Cursor` and either reads an `α` or fails with a
`Fault`. Both ways it says where it stopped: after a failure the reader goes
on from the token the fault was found at, with the faults recorded so far.

The end of the text is never passed: at the end, `advance` stays.
-/

namespace Exemplar

/-- A place in a list of tokens, and the faults recorded on the way there. -/
structure Cursor where
  /-- The tokens not yet read, the closing one left out. -/
  ahead : List Token
  /-- The token that closes the list. -/
  last : Token
  /-- Where the token read last stops. -/
  lastStop : Nat
  /-- How many tokens have been read. -/
  taken : Nat
  /-- The faults recorded, in order. -/
  faults : List Fault
deriving Repr, DecidableEq

namespace Cursor

/-- The start of a list of tokens. A list without a closing `eof` gets one,
where its last token stops. -/
def ofTokens (tokens : List Token) : Cursor :=
  let stop := (tokens.getLast?.map (·.span.stop)).getD 0
  match tokens.getLast? with
  | some ⟨.eof, span⟩ => ⟨tokens.dropLast, ⟨.eof, span⟩, 0, 0, []⟩
  | _ => ⟨tokens, ⟨.eof, ⟨stop, stop⟩⟩, 0, 0, []⟩

def current (c : Cursor) : Token := c.ahead.headD c.last

def advance (c : Cursor) : Cursor :=
  match c.ahead with
  | [] => c
  | t :: rest =>
      { c with ahead := rest, lastStop := t.span.stop, taken := c.taken + 1 }

/-- At the last token, with all others read. -/
def toLast (c : Cursor) : Cursor :=
  { c with
    ahead := []
    lastStop := (c.ahead.getLast?.map (·.span.stop)).getD c.lastStop
    taken := c.taken + c.ahead.length }

/-- Past tokens as long as `keep` asks for it; `keep` sees the next token and
how many have been read. -/
def skipWhile (keep : Kind → Nat → Bool) (c : Cursor) : Cursor :=
  go c.ahead c
where
  /-- Skip over tokens of the list, which is what lies ahead. -/
  go : List Token → Cursor → Cursor
    | [], c => c
    | t :: rest, c => if keep t.kind c.taken then go rest c.advance else c

@[simp] theorem advance_nil {c : Cursor} (h : c.ahead = []) :
    c.advance = c := by
  simp [advance, h]

theorem length_ahead_advance_le (c : Cursor) :
    c.advance.ahead.length ≤ c.ahead.length := by
  unfold advance
  split
  · exact Nat.le_refl _
  · next h => simp [h]

end Cursor

/-- How reading ends. -/
inductive Outcome (α : Type) where
  | read (value : α) (next : Cursor)
  | failed (fault : Fault) (next : Cursor)
deriving Repr

/-- Something that can be read from tokens. -/
def Reading (α : Type) : Type := Cursor → Outcome α

namespace Reading

/-- Nothing is read. -/
protected def pure {α : Type} (value : α) : Reading α := fun c => .read value c

/-- One after the other; a failure ends both. -/
protected def bind {α β : Type} (first : Reading α) (next : α → Reading β) :
    Reading β :=
  fun c =>
    match first c with
    | .read value c => next value c
    | .failed fault c => .failed fault c

instance : Monad Reading where
  pure := Reading.pure
  bind := Reading.bind

def peek : Reading Kind := fun c => .read c.current.kind c

def offset : Reading Nat := fun c => .read c.current.span.start c

/-- The span from `start` to the end of the token read last. -/
def spanFrom (start : Nat) : Reading Span :=
  fun c => .read ⟨start, c.lastStop⟩ c

/-- How many tokens have been read. -/
def taken : Reading Nat := fun c => .read c.taken c

def advance : Reading Unit := fun c => .read () c.advance

def fault {α : Type} (cause : Cause) : Reading α := fun c =>
  .failed ⟨c.current.span, cause⟩ c

def expected {α : Type} (what : Expected) : Reading α := fun c =>
  .failed ⟨c.current.span, .expected what c.current.kind⟩ c

/-- Whether the next token is the given one; if so it is read. -/
def eat (kind : Kind) : Reading Bool := do
  if (← peek) = kind then
    advance
    return true
  return false

def mark (sign : Mark) : Reading Unit := do
  if ← eat (.mark sign) then return ()
  expected (.mark sign)

def keyword (word : Keyword) : Reading Unit := do
  if ← eat (.keyword word) then return ()
  expected (.keyword word)

/-- Read a name without dots. -/
def name : Reading String := do
  match ← peek with
  | .ident text =>
    advance
    return text
  | _ => expected .name

/-- The dotted parts that follow a name, at most as many as given. -/
def pathRest : Nat → String → Reading String
  | 0, path => return path
  | n + 1, path => do
    if ← eat (.mark .dot) then
      let part ← name
      pathRest n (path ++ "." ++ part)
    else return path

/-- Read names with dots between them, as one string. -/
def path : Reading String := do
  let first ← name
  fun c => pathRest c.ahead.length first c

/-- The documentation lines ahead, at most as many as given. -/
def docsUpTo : Nat → Reading (List String)
  | 0 => return []
  | n + 1 => do
    match ← peek with
    | .doc line =>
      advance
      let rest ← docsUpTo n
      return line :: rest
    | _ => return []

def docs : Reading (List String) := fun c => docsUpTo c.ahead.length c

/-! ## Recording faults -/

/-- As many faults as are recorded for one text. -/
def faultLimit : Nat := 20

/-- Try to read; a failure is given back and does not end the reading. -/
def attempt {α : Type} (r : Reading α) : Reading (Except Fault α) := fun c =>
  match r c with
  | .read value c => .read (.ok value) c
  | .failed fault c => .read (.error fault) c

/-- Record a fault, if there is room, and say whether there is room for
another. -/
def record (fault : Fault) : Reading Bool := fun c =>
  if c.faults.length < faultLimit then
    .read (decide (c.faults.length + 1 < faultLimit))
      { c with faults := c.faults ++ [fault] }
  else .read false c

def skipAll : Reading Unit := fun c => .read () c.toLast

end Reading

end Exemplar
