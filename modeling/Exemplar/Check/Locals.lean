import Exemplar.Text.Span

/-!
# Local bindings

The names bound inside a body, as a stack of frames with the innermost first.
Binding a name again in the same frame replaces the earlier binding; a name
refers to the binding in the innermost frame that has one. A frame remembers
which of its bindings have been referred to.
-/

namespace Exemplar

/-- A local name: a parameter, a `let` or `mutable`, or a loop variable. -/
structure Local where
  isMutable : Bool
  span : Span
  used : Bool
  /-- Only `let` and `mutable` are reported when nothing refers to them. -/
  reported : Bool
deriving Repr, DecidableEq

/-- The bindings of one block, each name once. -/
abbrev Frame := List (String × Local)

namespace Frame

/-- Bind a name, replacing the binding it had. -/
def define (name : String) (binding : Local) : Frame → Frame
  | [] => [(name, binding)]
  | (n, b) :: rest =>
    if n = name then (name, binding) :: rest
    else (n, b) :: define name binding rest

/-- The binding of a name, and the frame with that binding referred to. -/
def use? (name : String) : Frame → Option (Local × Frame)
  | [] => none
  | (n, b) :: rest =>
    if n = name then
      let b := { b with used := true }
      some (b, (n, b) :: rest)
    else (use? name rest).map fun (found, rest) => (found, (n, b) :: rest)

/-- A name that starts with an underscore may go unused. -/
def isExempt (name : String) : Bool := name.toList.head? == some '_'

/-- The bindings to report as unused, in the order of the text. -/
def unused (frame : Frame) : List (String × Span) :=
  let idle := frame.filter fun (name, b) =>
    b.reported && !b.used && !isExempt name
  (idle.map fun (name, b) => (name, b.span)).mergeSort fun a b =>
    a.2.start ≤ b.2.start

end Frame

/-- The frames around a place, the innermost first. -/
abbrev Locals := List Frame

namespace Locals

/-- Bind a name in the innermost frame. -/
def define (locals : Locals) (name : String) (binding : Local) : Locals :=
  match locals with
  | [] => []
  | frame :: outer => frame.define name binding :: outer

/-- The binding a name refers to, and the frames with that binding referred
to. -/
def use? (locals : Locals) (name : String) : Option (Local × Locals) :=
  match locals with
  | [] => none
  | frame :: outer =>
    match frame.use? name with
    | some (found, frame) => some (found, frame :: outer)
    | none =>
        (use? outer name).map fun (found, outer) => (found, frame :: outer)

end Locals

end Exemplar
