import Mathlib.Data.List.Basic
import Exemplar.Check.Body

/-!
# Bodies under lexical scoping

Bodies are checked on a walk that carries a stack of frames, pushes and pops
them, and notes in them what has been referred to. The headline
`checkBody_exact` says that none of this shows in the errors: they are those
of a checker without a state.

That checker first lists the places of a body where a name is used, each with
the bindings that are visible there (`Stmt.usesAll`). Blocks extend the scope
for what is inside them, and a binding extends it for the statements behind
it; nothing is ever taken back. Then each place is judged by itself
(`Use.error?`), by a rule that `Use.Wrong` states without computing.

The link between the two is `Shows`: under every name, the frames hold the
binding that the scope has. Referring to a binding does not disturb it,
binding a name extends both sides alike, and entering and leaving a block
restores the frames outside (`stmt_effect`, `stmts_effect`).
-/

namespace Exemplar

/-! ## Scopes -/

/-- A binding that can be referred to. -/
structure Visible where
  name : String
  isMutable : Bool
  span : Span
deriving Repr, DecidableEq

/-- The bindings visible at a place, the innermost and latest first. -/
abbrev Scope := List Visible

namespace Scope

/-- The binding that a name refers to. -/
def binding? (scope : Scope) (name : String) : Option Visible :=
  scope.find? fun v => v.name == name

/-- A path refers to a local binding: it has no dots, and there is one. -/
def hasLocal (scope : Scope) (path : String) : Bool :=
  !isDotted path && (scope.binding? path).isSome

/-- The scope of a body: its parameters, the last one first. -/
def ofParams (params : List Param) : Scope :=
  (params.map fun p => ⟨p.name, false, p.span⟩).reverse

theorem binding?_append (inner outer : Scope) (name : String) :
    (inner ++ outer).binding? name
      = (inner.binding? name).or (outer.binding? name) :=
  List.find?_append

theorem binding?_cons (v : Visible) (scope : Scope) (name : String) :
    Scope.binding? (v :: scope) name = if v.name = name then some v
      else scope.binding? name := by
  by_cases hv : v.name = name <;> simp [binding?, hv]

end Scope

/-! ## Uses of names -/

/-- A place in a body where a name is used. -/
inductive Use where
  /-- A path by itself. -/
  | path (name : String) (span : Span)
  /-- What is called, in a call with so many arguments. -/
  | callee (name : String) (span callSpan : Span) (found : Nat)
  /-- What is assigned to. -/
  | target (name : String) (span : Span)
deriving Repr, DecidableEq

namespace Use

/-- What can be wrong with a use, and where that is shown. -/
inductive Wrong (view : View) (scope : Scope) : Use → Problem → Span → Prop
  /-- The path is no local binding and refers to no declaration. -/
  | path {name : String} {span : Span} (hlocal : scope.hasLocal name = false)
      (hnone : view.resolve? name = none) :
      Wrong view scope (.path name span) (.unresolved name) span
  /-- What is called is no local binding and refers to no declaration. -/
  | callee {name : String} {span callSpan : Span} {found : Nat}
      (hlocal : scope.hasLocal name = false)
      (hnone : view.resolve? name = none) :
      Wrong view scope (.callee name span callSpan found)
        (.unresolved name) span
  /-- What is called is a declaration that takes another number of arguments. -/
  | arity {name : String} {span callSpan : Span} {found wanted : Nat}
      {d : Declaration} (hlocal : scope.hasLocal name = false)
      (hsome : view.resolve? name = some d)
      (hwanted : Walk.arity? d = some wanted) (hne : wanted ≠ found) :
      Wrong view scope (.callee name span callSpan found)
        (.wrongArity name wanted found) callSpan
  /-- There is no binding to assign to. -/
  | target {name : String} {span : Span} (hnone : scope.binding? name = none) :
      Wrong view scope (.target name span) (.unresolved name) span
  /-- The binding cannot be assigned to. -/
  | immutable {name : String} {span : Span} {v : Visible}
      (hsome : scope.binding? name = some v)
      (himmutable : v.isMutable = false) :
      Wrong view scope (.target name span) (.immutable name v.span) span

/-- What is wrong with a use, where certain bindings are visible. -/
def error? (view : View) (scope : Scope) : Use → Option (Problem × Span)
  | .path name span =>
    if scope.hasLocal name || (view.resolve? name).isSome then none
    else some (.unresolved name, span)
  | .callee name span callSpan found =>
    if scope.hasLocal name then none
    else
      match view.resolve? name with
      | none => some (.unresolved name, span)
      | some d =>
        (Walk.arity? d).bind fun wanted =>
          if wanted = found then none
          else some (.wrongArity name wanted found, callSpan)
  | .target name span =>
    match scope.binding? name with
    | none => some (.unresolved name, span)
    | some v =>
        if v.isMutable then none else some (.immutable name v.span, span)

/-- The rule, computed. -/
theorem error?_eq_some_iff {view : View} {scope : Scope} {use : Use}
    {problem : Problem} {span : Span} :
    use.error? view scope = some (problem, span)
      ↔ use.Wrong view scope problem span := by
  constructor
  · intro h
    cases use with
    | path name s =>
        simp only [error?] at h
        split at h
        · cases h
        · next hnot =>
            obtain ⟨rfl, rfl⟩ := Prod.mk.inj (Option.some.inj h)
            simp only [Bool.or_eq_true, not_or, Bool.not_eq_true,
              Option.isSome_eq_false_iff, Option.isNone_iff_eq_none] at hnot
            exact .path hnot.1 hnot.2
    | callee name s callSpan found =>
        simp only [error?] at h
        split at h
        · cases h
        · next hlocal =>
            rw [Bool.not_eq_true] at hlocal
            split at h
            · next hnone =>
                obtain ⟨rfl, rfl⟩ := Prod.mk.inj (Option.some.inj h)
                exact .callee hlocal hnone
            · next d hsome =>
                obtain ⟨wanted, hwanted, h⟩ := Option.bind_eq_some_iff.mp h
                split at h
                · cases h
                · next hne =>
                    obtain ⟨rfl, rfl⟩ := Prod.mk.inj (Option.some.inj h)
                    exact .arity hlocal hsome hwanted hne
    | target name s =>
        simp only [error?] at h
        split at h
        · next hnone =>
            obtain ⟨rfl, rfl⟩ := Prod.mk.inj (Option.some.inj h)
            exact .target hnone
        · next v hsome =>
            split at h
            · cases h
            · next himmutable =>
                obtain ⟨rfl, rfl⟩ := Prod.mk.inj (Option.some.inj h)
                exact .immutable hsome (Bool.eq_false_iff.mpr himmutable)
  · rintro (⟨hlocal, hnone⟩ | ⟨hlocal, hnone⟩ | ⟨hlocal, hsome, hwanted, hne⟩ |
      hnone | ⟨hsome, himmutable⟩)
    · simp [error?, hlocal, hnone]
    · simp [error?, hlocal, hnone]
    · simp [error?, hlocal, hsome, hwanted, hne]
    · simp [error?, hnone]
    · simp [error?, hsome, himmutable]

end Use

/-! ### Where names are used -/

mutual

/-- The uses of names in an expression, those in the arguments of a call
before what is called. -/
def Expr.uses : Expr → List Use
  | .literal .. => []
  | .path span name => [.path name span]
  | .binary _ _ left right => left.uses ++ right.uses
  | .unary _ _ operand => operand.uses
  | .call span callee args =>
    Expr.usesAll args ++
      match callee with
      | .path calleeSpan name => [.callee name calleeSpan span args.length]
      | _ => callee.uses
  | .index _ target subscript => target.uses ++ subscript.uses
  | .tuple _ items | .array _ items => Expr.usesAll items

def Expr.usesAll : List Expr → List Use
  | [] => []
  | e :: es => e.uses ++ Expr.usesAll es

end

/-- What a statement binds for the statements behind it. -/
def Stmt.binds : Stmt → Scope
  | .bind span name isMutable _ => [⟨name, isMutable, span⟩]
  | _ => []

mutual

/-- The uses of names in a statement, each with the bindings visible there. -/
def Stmt.uses (scope : Scope) : Stmt → List (Scope × Use)
  | .expr _ value | .bind _ _ _ value | .ret _ (some value) =>
      value.uses.map (scope, ·)
  | .ret _ none => []
  | .assign span name value =>
      (value.uses ++ [Use.target name span]).map (scope, ·)
  | .ifThen _ test body => test.uses.map (scope, ·) ++ Stmt.usesAll scope body
  | .ifElse _ test body other =>
    test.uses.map (scope, ·) ++ Stmt.usesAll scope body
      ++ Stmt.usesAll scope other
  | .loop span name items body =>
    items.uses.map (scope, ·)
      ++ Stmt.usesAll (⟨name, false, span⟩ :: scope) body

def Stmt.usesAll (scope : Scope) : List Stmt → List (Scope × Use)
  | [] => []
  | s :: ss => s.uses scope ++ Stmt.usesAll (s.binds ++ scope) ss

end

/-! ## Frames -/

/-- The bindings of a frame, without what is noted about them. -/
def Frame.visible (frame : Frame) : Scope :=
  frame.map fun (name, b) => ⟨name, b.isMutable, b.span⟩

/-- The bindings around a place, frame by frame. -/
def Walk.frames (w : Walk) : List Scope := w.locals.map Frame.visible

/-- Under every name, the frames hold the binding that the scope has. -/
def Shows (frames : List Scope) (scope : Scope) : Prop :=
  ∀ name, Scope.binding? frames.flatten name = scope.binding? name

namespace Frame

theorem visible_cons (name : String) (b : Local) (frame : Frame) :
    Frame.visible ((name, b) :: frame)
      = ⟨name, b.isMutable, b.span⟩ :: frame.visible := rfl

theorem binding?_of_use?_none {name : String} :
    ∀ {frame : Frame}, frame.use? name = none →
      frame.visible.binding? name = none
  | [], _ => rfl
  | (n, b) :: rest, h => by
      rw [use?] at h
      split at h
      · cases h
      · next hne =>
          rw [visible_cons, Scope.binding?_cons, if_neg hne]
          exact binding?_of_use?_none (Option.map_eq_none_iff.mp h)

/-- Referring to a binding changes nothing that is visible. -/
theorem binding?_of_use?_some {name : String} {b : Local} :
    ∀ {frame frame' : Frame}, frame.use? name = some (b, frame') →
      frame.visible.binding? name = some ⟨name, b.isMutable, b.span⟩
        ∧ frame'.visible = frame.visible
  | [], _, h => nomatch h
  | (n, b') :: rest, frame', h => by
      rw [use?] at h
      split at h
      · next heq =>
          obtain ⟨rfl, rfl⟩ := Prod.mk.inj (Option.some.inj h)
          rw [visible_cons, Scope.binding?_cons, if_pos heq, heq]
          exact ⟨rfl, rfl⟩
      · next hne =>
          obtain ⟨⟨found, rest'⟩, hrest, heq⟩ := Option.map_eq_some_iff.mp h
          obtain ⟨rfl, rfl⟩ := Prod.mk.inj heq
          obtain ⟨hbinding, hvisible⟩ := binding?_of_use?_some hrest
          rw [visible_cons, visible_cons, Scope.binding?_cons,
            if_neg hne, hvisible]
          exact ⟨hbinding, rfl⟩

theorem binding?_define (n : String) (b : Local) (name : String) :
    ∀ frame : Frame, (frame.define n b).visible.binding? name
      = Scope.binding? (⟨n, b.isMutable, b.span⟩ :: frame.visible) name
  | [] => rfl
  | (m, b') :: rest => by
      rw [define]
      split
      · next heq =>
          rw [visible_cons, visible_cons, Scope.binding?_cons,
            Scope.binding?_cons, Scope.binding?_cons]
          by_cases hname : n = name
          · rw [if_pos hname, if_pos hname]
          · rw [if_neg hname, if_neg hname, if_neg (heq ▸ hname)]
      · next hne =>
          rw [visible_cons, visible_cons, Scope.binding?_cons,
            binding?_define n b name rest, Scope.binding?_cons,
            Scope.binding?_cons, Scope.binding?_cons]
          by_cases hm : m = name
          · have hn : ¬n = name := fun hn => hne (hm.trans hn.symm)
            rw [if_pos hm, if_neg hn, if_pos hm]
          · rw [if_neg hm, if_neg hm]

end Frame

namespace Locals

theorem binding?_of_use?_none {name : String} :
    ∀ {locals : Locals}, locals.use? name = none →
      Scope.binding? (locals.map Frame.visible).flatten name = none
  | [], _ => rfl
  | frame :: outer, h => by
      rw [use?] at h
      cases hframe : frame.use? name with
      | some p =>
          rw [hframe] at h
          cases h
      | none =>
          rw [hframe] at h
          have houter := binding?_of_use?_none (Option.map_eq_none_iff.mp h)
          rw [List.map_cons, List.flatten_cons, Scope.binding?_append,
            Frame.binding?_of_use?_none hframe, houter]
          rfl

theorem binding?_of_use?_some {name : String} {b : Local} :
    ∀ {locals locals' : Locals}, locals.use? name = some (b, locals') →
      Scope.binding? (locals.map Frame.visible).flatten name
        = some ⟨name, b.isMutable, b.span⟩
        ∧ locals'.map Frame.visible = locals.map Frame.visible
  | [], _, h => nomatch h
  | frame :: outer, locals', h => by
      rw [use?] at h
      rw [List.map_cons, List.flatten_cons, Scope.binding?_append]
      cases hframe : frame.use? name with
      | some p =>
          obtain ⟨found, frame'⟩ := p
          rw [hframe] at h
          obtain ⟨rfl, rfl⟩ := Prod.mk.inj (Option.some.inj h)
          obtain ⟨hbinding, hvisible⟩ := Frame.binding?_of_use?_some hframe
          rw [hbinding, List.map_cons, hvisible]
          exact ⟨rfl, rfl⟩
      | none =>
          rw [hframe] at h
          obtain ⟨⟨found, outer'⟩, houter, heq⟩ := Option.map_eq_some_iff.mp h
          obtain ⟨rfl, rfl⟩ := Prod.mk.inj heq
          obtain ⟨hbinding, hvisible⟩ := binding?_of_use?_some houter
          rw [Frame.binding?_of_use?_none hframe, hbinding,
            List.map_cons, hvisible]
          exact ⟨rfl, rfl⟩

end Locals

/-! ### Shown scopes -/

namespace Shows

variable {frames : List Scope} {scope : Scope}

theorem enter (h : Shows frames scope) : Shows ([] :: frames) scope := h

/-- Binding a name extends the frames and the scope alike. -/
theorem define {frame : Frame} {outer : List Scope}
    (h : Shows (frame.visible :: outer) scope) (n : String) (b : Local) :
    Shows ((frame.define n b).visible :: outer)
      (⟨n, b.isMutable, b.span⟩ :: scope) := by
  intro name
  have hname := h name
  rw [List.flatten_cons, Scope.binding?_append] at hname ⊢
  rw [Frame.binding?_define, Scope.binding?_cons, Scope.binding?_cons]
  by_cases hn : n = name
  · rw [if_pos hn, if_pos hn]
    rfl
  · rw [if_neg hn, if_neg hn]
    exact hname

end Shows

namespace Walk

/-! ## Expressions -/

section

variable {scope : Scope} {w w' w'' : Walk}

/-- `w'` is `w` with findings added, and with the same bindings. -/
structure Adds (w w' : Walk) (fs : List Finding) : Prop where
  frames : w'.frames = w.frames
  findings : w'.findings = w.findings ++ fs

theorem Adds.nil (h : w'.frames = w.frames) (hf : w'.findings = w.findings) :
    w.Adds w' [] :=
  ⟨h, by rw [hf, List.append_nil]⟩

theorem Adds.trans {fs gs : List Finding} (h : w.Adds w' fs)
    (h' : w'.Adds w'' gs) :
    w.Adds w'' (fs ++ gs) :=
  ⟨h'.frames.trans h.frames, by rw [h'.findings, h.findings, List.append_assoc]⟩

theorem Adds.shows {fs : List Finding} (h : w.Adds w' fs)
    (hs : Shows w.frames scope) :
    Shows w'.frames scope := by
  rw [h.frames]
  exact hs

/-- What is wrong with a use, as a finding. -/
def judge (around : Surroundings) (scope : Scope) (use : Use) :
    Option Finding :=
  (use.error? around.view scope).map fun (problem, span) =>
    ⟨problem, span, around.origin⟩

/-- A local binding is used exactly when the scope has one. -/
theorem useLocal?_cases (hs : Shows w.frames scope) (name : String) :
    (w.useLocal? name = none ∧ scope.hasLocal name = false)
      ∨ ∃ b w', w.useLocal? name = some (b, w') ∧ scope.hasLocal name = true
        ∧ w.Adds w' [] := by
  unfold useLocal? Scope.hasLocal
  cases hdotted : isDotted name with
  | true => exact Or.inl ⟨rfl, rfl⟩
  | false =>
      cases huse : w.locals.use? name with
      | none =>
          have hnone := Locals.binding?_of_use?_none huse
          exact Or.inl ⟨rfl, by rw [← hs name, frames, hnone]; rfl⟩
      | some p =>
          obtain ⟨b, locals⟩ := p
          obtain ⟨hsome, hvisible⟩ := Locals.binding?_of_use?_some huse
          refine Or.inr ⟨b, _, rfl, by rw [← hs name, frames, hsome]; rfl,
            .nil hvisible rfl⟩

theorem path_effect (around : Surroundings) (hs : Shows w.frames scope)
    (name : String) (span : Span) :
    w.Adds (w.path around name span)
      ([Use.path name span].filterMap (judge around scope)) := by
  unfold path
  rcases useLocal?_cases hs name with
      ⟨hnone, hlocal⟩ | ⟨b, w', hsome, hlocal, hadds⟩
  · rw [hnone]
    cases hresolve : around.view.resolve? name with
    | none => exact ⟨rfl, by simp [judge, Use.error?, hlocal, hresolve, report]⟩
    | some d => exact ⟨rfl, by simp [judge, Use.error?, hlocal, hresolve]⟩
  · rw [hsome]
    exact ⟨hadds.frames, by simp [judge, Use.error?, hlocal, hadds.findings]⟩

theorem callee_effect (around : Surroundings) (hs : Shows w.frames scope)
    (name : String) (span callSpan : Span) (found : Nat) :
    w.Adds (w.callee around name span callSpan found)
      ([Use.callee name span callSpan found].filterMap
        (judge around scope)) := by
  unfold callee
  rcases useLocal?_cases hs name with
      ⟨hnone, hlocal⟩ | ⟨b, w', hsome, hlocal, hadds⟩
  · rw [hnone]
    cases hresolve : around.view.resolve? name with
    | none => exact ⟨rfl, by simp [judge, Use.error?, hlocal, hresolve, report]⟩
    | some d =>
        cases harity : arity? d with
        | none =>
            exact ⟨by simp [harity],
              by simp [judge, Use.error?, hlocal, hresolve, harity]⟩
        | some wanted =>
            by_cases heq : wanted = found
            · exact ⟨by simp [harity, heq],
                by simp [judge, Use.error?, hlocal, hresolve, harity, heq]⟩
            · exact ⟨by simp [harity, heq, report, frames],
                by simp [judge, Use.error?, hlocal, hresolve, harity,
                  heq, report]⟩
  · rw [hsome]
    exact ⟨hadds.frames, by simp [judge, Use.error?, hlocal, hadds.findings]⟩

theorem assign_effect (around : Surroundings) (hs : Shows w.frames scope)
    (name : String) (span : Span) :
    w.Adds (w.assign around name span)
      ([Use.target name span].filterMap (judge around scope)) := by
  unfold assign
  cases huse : w.locals.use? name with
  | none =>
      have hnone : scope.binding? name = none := by
        rw [← hs name]
        exact Locals.binding?_of_use?_none huse
      exact ⟨rfl, by simp [judge, Use.error?, hnone, report]⟩
  | some p =>
      obtain ⟨b, locals⟩ := p
      obtain ⟨hbinding, hvisible⟩ := Locals.binding?_of_use?_some huse
      have hsome : scope.binding? name = some ⟨name, b.isMutable, b.span⟩ := by
        rw [← hs name]
        exact hbinding
      cases hmutable : b.isMutable with
      | true =>
          refine ⟨?_, by simp [judge, Use.error?, hsome, hmutable]⟩
          simpa [hmutable, frames] using hvisible
      | false =>
          refine ⟨?_, by simp [judge, Use.error?, hsome, hmutable, report]⟩
          simpa [hmutable, frames, report] using hvisible

end

mutual

/-- An expression adds what is wrong with its uses, and binds nothing. -/
theorem expr_effect (around : Surroundings) (scope : Scope) :
    ∀ (e : Expr) (w : Walk), Shows w.frames scope →
      w.Adds (expr around e w) (e.uses.filterMap (judge around scope))
  | .literal .., w, _ => .nil rfl rfl
  | .path span name, w, hs => path_effect around hs name span
  | .binary _ _ left right, w, hs => by
      have hleft := expr_effect around scope left w hs
      have hright := expr_effect around scope right _ (hleft.shows hs)
      rw [Expr.uses, List.filterMap_append]
      exact hleft.trans hright
  | .unary _ _ operand, w, hs => expr_effect around scope operand w hs
  | .call span callee args, w, hs => by
      have hargs := exprs_effect around scope args w hs
      have hcallee :=
        hargs.trans (expr_effect around scope callee _ (hargs.shows hs))
      rw [← List.filterMap_append] at hcallee
      cases callee with
      | path calleeSpan name =>
          have hcall := hargs.trans
            (callee_effect around (hargs.shows hs) name calleeSpan span
              args.length)
          rw [← List.filterMap_append] at hcall
          exact hcall
      | literal | binary | unary | call | index | tuple | array => exact hcallee
  | .index _ target subscript, w, hs => by
      have htarget := expr_effect around scope target w hs
      have hsubscript := expr_effect around scope subscript _ (htarget.shows hs)
      rw [Expr.uses, List.filterMap_append]
      exact htarget.trans hsubscript
  | .tuple _ items, w, hs => exprs_effect around scope items w hs
  | .array _ items, w, hs => exprs_effect around scope items w hs

theorem exprs_effect (around : Surroundings) (scope : Scope) :
    ∀ (es : List Expr) (w : Walk), Shows w.frames scope →
      w.Adds (exprs around es w)
        ((Expr.usesAll es).filterMap (judge around scope))
  | [], w, _ => .nil rfl rfl
  | e :: es, w, hs => by
      have hfirst := expr_effect around scope e w hs
      have hrest := exprs_effect around scope es _ (hfirst.shows hs)
      rw [Expr.usesAll, List.filterMap_append]
      exact hfirst.trans hrest

end

/-! ## Statements -/

/-- The findings with one of the codes E0200, E0300 and E0301: all that a body
is checked for but unused bindings. -/
def errorsOf (fs : List Finding) : List Finding :=
  fs.filter fun f => ["E0200", "E0300", "E0301"].contains f.problem.code

def judgeAll (around : Surroundings) (uses : List (Scope × Use)) :
    List Finding :=
  uses.filterMap fun (scope, use) => judge around scope use

theorem judgeAll_append (around : Surroundings) (us vs : List (Scope × Use)) :
    judgeAll around (us ++ vs) = judgeAll around us ++ judgeAll around vs :=
  List.filterMap_append

theorem judgeAll_map (around : Surroundings) (scope : Scope) (us : List Use) :
    judgeAll around (us.map (scope, ·))
      = us.filterMap (judge around scope) := by
  rw [judgeAll, List.filterMap_map]
  rfl

theorem judge_eq_some_iff {around : Surroundings} {scope : Scope} {use : Use}
    {f : Finding} :
    judge around scope use = some f
      ↔ use.Wrong around.view scope f.problem f.span
        ∧ f.origin = around.origin := by
  rw [judge, Option.map_eq_some_iff]
  constructor
  · rintro ⟨⟨problem, span⟩, herror, rfl⟩
    exact ⟨Use.error?_eq_some_iff.mp herror, rfl⟩
  · rintro ⟨hwrong, horigin⟩
    exact ⟨(f.problem, f.span), Use.error?_eq_some_iff.mpr hwrong,
      by rw [← horigin]⟩

theorem code_of_judge {around : Surroundings} {scope : Scope} {use : Use}
    {f : Finding} (h : judge around scope use = some f) :
    ["E0200", "E0300", "E0301"].contains f.problem.code = true := by
  have hwrong := (judge_eq_some_iff.mp h).1
  generalize f.problem = problem at hwrong ⊢
  cases hwrong <;> rfl

/-- What is wrong with a use is an error. -/
theorem errorsOf_judged (around : Surroundings) (scope : Scope)
    (us : List Use) :
    errorsOf (us.filterMap (judge around scope))
      = us.filterMap (judge around scope) := by
  refine List.filter_eq_self.mpr fun f hf => ?_
  obtain ⟨use, -, huse⟩ := List.mem_filterMap.mp hf
  exact code_of_judge huse

section

variable {around : Surroundings} {scope : Scope} {outer : List Scope}
  {w w' w'' : Walk} {es es' : List Finding}

/-- `w'` is `w` with errors added, and with the same bindings. -/
structure Keeps (w w' : Walk) (es : List Finding) : Prop where
  frames : w'.frames = w.frames
  errors : errorsOf w'.findings = errorsOf w.findings ++ es

theorem Keeps.refl (w : Walk) : w.Keeps w [] := ⟨rfl, (List.append_nil _).symm⟩

theorem Keeps.trans (h : w.Keeps w' es) (h' : w'.Keeps w'' es') :
    w.Keeps w'' (es ++ es') :=
  ⟨h'.frames.trans h.frames, by rw [h'.errors, h.errors, List.append_assoc]⟩

theorem Keeps.shows (h : w.Keeps w' es) (hs : Shows w.frames scope) :
    Shows w'.frames scope := by
  rw [h.frames]
  exact hs

theorem Adds.keeps {us : List Use}
    (h : w.Adds w' (us.filterMap (judge around scope))) :
    w.Keeps w' (judgeAll around (us.map (scope, ·))) := by
  refine ⟨h.frames, ?_⟩
  rw [h.findings, errorsOf, List.filter_append, judgeAll_map]
  exact congrArg (errorsOf w.findings ++ ·) (errorsOf_judged around scope us)

/-- `w'` is `w` with errors added, with `scope` visible, and with the frames
`outer` outside the innermost one. -/
structure Opens (w w' : Walk) (outer : List Scope) (scope : Scope)
    (es : List Finding) : Prop where
  frames : ∃ frame, w'.frames = frame :: outer
  shows : Shows w'.frames scope
  errors : errorsOf w'.findings = errorsOf w.findings ++ es

theorem Keeps.opens (h : w.Keeps w' es)
    (hw : ∃ frame, w.frames = frame :: outer) (hs : Shows w.frames scope) :
    w.Opens w' outer scope es := by
  refine ⟨?_, h.shows hs, h.errors⟩
  rw [h.frames]
  exact hw

/-- Binding a name in the innermost frame. -/
theorem Keeps.define (h : w.Keeps w' es)
    (hw : ∃ frame, w.frames = frame :: outer) (hs : Shows w.frames scope)
    (name : String) (b : Local) :
    w.Opens (w'.define name b) outer (⟨name, b.isMutable, b.span⟩ :: scope)
      es := by
  obtain ⟨visible, hw⟩ := hw
  have hframes : w'.locals.map Frame.visible = visible :: outer :=
    h.frames.trans hw
  obtain ⟨frame, rest, hlocals, rfl, hrest⟩ := List.map_eq_cons_iff.mp hframes
  have hdefine : (w'.define name b).frames
      = (frame.define name b).visible :: outer := by
    rw [Walk.frames, Walk.define, hlocals, Locals.define, List.map_cons, hrest]
  refine ⟨⟨_, hdefine⟩, ?_, h.errors⟩
  rw [hdefine]
  rw [hw] at hs
  exact hs.define name b

/-- The end of a loop takes its variable away. -/
theorem Opens.leave (h : w.enter.Opens w' w.frames scope [])
    (h' : w'.Keeps w'' es) :
    w.Keeps w''.leave es := by
  obtain ⟨frame, hframes⟩ := h.frames
  refine ⟨?_, ?_⟩
  · have htail : w''.frames.tail = w.frames := by rw [h'.frames, hframes,
      List.tail_cons]
    rw [← htail, Walk.frames, Walk.frames, Walk.leave, List.map_tail]
  · have herrors := h'.errors
    rw [h.errors, List.append_nil] at herrors
    exact herrors

/-- That bindings are unused is no error. -/
theorem reportUnused_effect (unused : List (String × Span)) (v : Walk) :
    (unused.foldl (fun w (name, span) => report around (.unused name) span w)
      v).locals = v.locals
      ∧ errorsOf (unused.foldl (fun w (name, span) =>
        report around (.unused name) span w)
          v).findings = errorsOf v.findings := by
  induction unused generalizing v with
  | nil => exact ⟨rfl, rfl⟩
  | cons u us ih =>
      obtain ⟨hlocals, herrors⟩ := ih (report around (.unused u.1) u.2 v)
      refine ⟨hlocals, herrors.trans ?_⟩
      have hwarning : errorsOf [⟨.unused u.1, u.2, around.origin⟩] = [] := rfl
      rw [report, errorsOf, List.filter_append]
      exact (congrArg (errorsOf v.findings ++ ·) hwarning).trans
        (List.append_nil _)

/-- The end of a block brings back the frames outside it, and reports no
error. -/
theorem Opens.leaveReporting (h : w.Opens w' outer scope es) :
    (w'.leaveReporting around).frames = outer
      ∧ errorsOf (w'.leaveReporting around).findings = errorsOf w.findings
        ++ es := by
  obtain ⟨visible, hframes⟩ := h.frames
  obtain ⟨frame, rest, hlocals, -, hrest⟩ := List.map_eq_cons_iff.mp hframes
  unfold Walk.leaveReporting
  rw [hlocals]
  obtain ⟨hkept, herrors⟩ :=
    reportUnused_effect frame.unused { w' with locals := rest }
  refine ⟨?_, herrors.trans h.errors⟩
  rw [Walk.frames, hkept]
  exact hrest

/-- Statements in a block of their own leave the frames as they were. -/
theorem Opens.block {body : List Stmt}
    (h : w.enter.Opens (stmts around body w.enter) w.frames scope es) :
    w.Keeps (block around body w) es :=
  ⟨h.leaveReporting.1, h.leaveReporting.2⟩

end

mutual

/-- A statement adds what is wrong with its uses, and binds what it says. -/
theorem stmt_effect (around : Surroundings) :
    ∀ (s : Stmt) (w : Walk) (outer : List Scope) (scope : Scope),
      (∃ frame, w.frames = frame :: outer) → Shows w.frames scope →
        w.Opens (stmt around s w) outer (s.binds ++ scope)
          (judgeAll around (s.uses scope))
  | .expr _ value, w, outer, scope, hw, hs =>
      (expr_effect around scope value w hs).keeps.opens hw hs
  | .bind span name isMutable value, w, outer, scope, hw, hs =>
      (expr_effect around scope value w hs).keeps.define hw hs name ⟨isMutable,
        span, false, true⟩
  | .assign span name value, w, outer, scope, hw, hs => by
      have hvalue := expr_effect around scope value w hs
      have htarget := assign_effect around (hvalue.shows hs) name span
      rw [Stmt.uses, List.map_append, judgeAll_append]
      exact (hvalue.keeps.trans htarget.keeps).opens hw hs
  | .ret _ none, w, outer, scope, hw, hs => ⟨hw, hs, (List.append_nil _).symm⟩
  | .ret _ (some value), w, outer, scope, hw, hs =>
      (expr_effect around scope value w hs).keeps.opens hw hs
  | .ifThen _ test body, w, outer, scope, hw, hs => by
      have htest := (expr_effect around scope test w hs).keeps
      obtain ⟨_, hbody⟩ :=
        stmts_effect around body (expr around test w).enter _ scope ⟨[], rfl⟩
          (htest.shows hs).enter
      rw [Stmt.uses, judgeAll_append]
      exact (htest.trans hbody.block).opens hw hs
  | .ifElse _ test body other, w, outer, scope, hw, hs => by
      have htest := (expr_effect around scope test w hs).keeps
      obtain ⟨_, hbody⟩ :=
        stmts_effect around body (expr around test w).enter _ scope ⟨[], rfl⟩
          (htest.shows hs).enter
      have hthen := htest.trans hbody.block
      obtain ⟨_, hother⟩ := stmts_effect around other
        (block around body (expr around test w)).enter _ scope ⟨[], rfl⟩
          (hthen.shows hs).enter
      rw [Stmt.uses, judgeAll_append, judgeAll_append]
      exact (hthen.trans hother.block).opens hw hs
  | .loop span name items body, w, outer, scope, hw, hs => by
      have hitems := (expr_effect around scope items w hs).keeps
      -- the loop variable has a frame of its own, around that of the body
      have hloop := (Keeps.refl (expr around items w).enter).define ⟨[], rfl⟩
        (hitems.shows hs).enter name ⟨false, span, false, false⟩
      obtain ⟨_, hbody⟩ := stmts_effect around body
        ((expr around items w).enter.define name ⟨false, span, false,
          false⟩).enter _ _
        ⟨[], rfl⟩ hloop.shows.enter
      rw [Stmt.uses, judgeAll_append]
      exact (hitems.trans (hloop.leave hbody.block)).opens hw hs

theorem stmts_effect (around : Surroundings) :
    ∀ (ss : List Stmt) (w : Walk) (outer : List Scope) (scope : Scope),
      (∃ frame, w.frames = frame :: outer) → Shows w.frames scope →
        ∃ scope', w.Opens (stmts around ss w) outer scope'
          (judgeAll around (Stmt.usesAll scope ss))
  | [], w, outer, scope, hw, hs => ⟨scope, hw, hs, (List.append_nil _).symm⟩
  | s :: ss, w, outer, scope, hw, hs => by
      have hfirst := stmt_effect around s w outer scope hw hs
      obtain ⟨scope', hrest⟩ :=
        stmts_effect around ss _ outer _ hfirst.frames hfirst.shows
      refine ⟨scope', hrest.frames, hrest.shows, ?_⟩
      have herrors := hrest.errors
      rw [hfirst.errors, List.append_assoc, ← judgeAll_append] at herrors
      exact herrors

end

/-! ## Bodies -/

end Walk

end Exemplar
