import Exemplar.Check.Finding
import Exemplar.Check.Locals
import Exemplar.View

/-!
# Checking bodies

A body is walked once, from left to right, with the local bindings around each
place. A path without dots refers to a local binding if there is one; any
other path must refer to a declaration that the block sees. Calls of declared
callables and types must have the right number of arguments, and only mutable
bindings can be assigned to. At the end of a block, the bindings of that block
that nothing has referred to are reported.
-/

namespace Exemplar

/-- What a body is checked against. -/
structure Surroundings where
  view : View
  origin : Origin
deriving Repr, DecidableEq

/-- The local bindings at a place, and the findings so far. -/
structure Walk where
  locals : Locals
  findings : List Finding
deriving Repr, DecidableEq

namespace Walk

variable (around : Surroundings)

def report (problem : Problem) (span : Span) (w : Walk) : Walk :=
  { w with findings := w.findings ++ [⟨problem, span, around.origin⟩] }

def enter (w : Walk) : Walk := { w with locals := [] :: w.locals }

/-- End a block without a word about its bindings. -/
def leave (w : Walk) : Walk := { w with locals := w.locals.tail }

/-- End a block and report the bindings nothing has referred to. -/
def leaveReporting (w : Walk) : Walk :=
  match w.locals with
  | [] => w
  | frame :: outer =>
    frame.unused.foldl (fun w (name, span) =>
      report around (.unused name) span w) { w with locals := outer }

/-- Bind a name in the innermost block. -/
def define (name : String) (binding : Local) (w : Walk) : Walk :=
  { w with locals := w.locals.define name binding }

/-- Refer to a local binding, if the path can mean one and there is one. -/
def useLocal? (path : String) (w : Walk) : Option (Local × Walk) :=
  if isDotted path then none
  else (w.locals.use? path).map fun (found, locals) =>
    (found, { w with locals := locals })

/-- The number of arguments a declaration is called with. A type is called
with the items of its underlying tuple. Specializations are not called. -/
def arity? (d : Declaration) : Option Nat :=
  match d.detail with
  | .callable c => some c.params.length
  | .newtype (.builtin .unit) _ => some 0
  | .newtype (.tuple items) _ => some items.length
  | .newtype .. => some 1
  | .specialization .. => none

/-- A path by itself. -/
def path (name : String) (span : Span) (w : Walk) : Walk :=
  match w.useLocal? name with
  | some (_, w) => w
  | none =>
    match around.view.resolve? name with
    | some _ => w
    | none => w.report around (.unresolved name) span

/-- A path that is called with `found` arguments. Local bindings can be called
with any number. -/
def callee (name : String) (calleeSpan callSpan : Span) (found : Nat)
    (w : Walk) : Walk :=
  match w.useLocal? name with
  | some (_, w) => w
  | none =>
    match around.view.resolve? name with
    | none => w.report around (.unresolved name) calleeSpan
    | some d =>
      match arity? d with
      | none => w
      | some wanted =>
        if wanted = found then w
        else w.report around (.wrongArity name wanted found) callSpan

mutual

/-- An expression. The arguments of a call come before what is called. -/
def expr : Expr → Walk → Walk
  | .literal .., w => w
  | .path span name, w => w.path around name span
  | .binary _ _ left right, w => expr right (expr left w)
  | .unary _ _ operand, w => expr operand w
  | .call span (.path calleeSpan name) args, w =>
    (exprs args w).callee around name calleeSpan span args.length
  | .call _ callee args, w => expr callee (exprs args w)
  | .index _ target subscript, w => expr subscript (expr target w)
  | .tuple _ items, w | .array _ items, w => exprs items w

def exprs : List Expr → Walk → Walk
  | [], w => w
  | e :: es, w => exprs es (expr e w)

end

/-- An assignment, after its value. -/
def assign (name : String) (span : Span) (w : Walk) : Walk :=
  match w.locals.use? name with
  | none => w.report around (.unresolved name) span
  | some (found, locals) =>
    let w := { w with locals := locals }
    if found.isMutable then w
    else w.report around (.immutable name found.span) span

mutual

/-- A statement. A binding is visible after its value, and a loop variable in
the body of its loop. -/
def stmt : Stmt → Walk → Walk
  | .expr _ value, w => expr around value w
  | .bind span name isMutable value, w =>
    (expr around value w).define name ⟨isMutable, span, false, true⟩
  | .assign span name value, w => (expr around value w).assign around name span
  | .ret _ none, w => w
  | .ret _ (some value), w => expr around value w
  | .ifThen _ test body, w =>
    (stmts body (expr around test w).enter).leaveReporting around
  | .ifElse _ test body other, w =>
    let w := (stmts body (expr around test w).enter).leaveReporting around
    (stmts other w.enter).leaveReporting around
  | .loop span name items body, w =>
    let w := (expr around items w).enter.define name ⟨false, span, false, false⟩
    ((stmts body w.enter).leaveReporting around).leave

def stmts : List Stmt → Walk → Walk
  | [], w => w
  | s :: ss, w => stmts ss (stmt s w)

end

def block (body : List Stmt) (w : Walk) : Walk :=
  (stmts around body w.enter).leaveReporting around

def ofParams (params : List Param) : Walk :=
  params.foldl (fun w p => w.define p.name ⟨false, p.span, false, false⟩)
    ⟨[[]], []⟩

end Walk

def checkBody (around : Surroundings) (params : List Param) (body : List Stmt) :
    List Finding :=
  (Walk.block around body (Walk.ofParams params)).findings

end Exemplar
