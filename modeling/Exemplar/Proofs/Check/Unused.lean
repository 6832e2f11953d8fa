import Mathlib.Data.List.Perm.Basic
import Exemplar.Proofs.Check.Marks

/-!
# Unused bindings

At the end of a block, the bindings of its frame that nothing has referred to
are reported. What a frame remembers is one flag a name, set on the way; this
module says which statements the reports are about, without a walk.

Every `let` and `mutable` of a body is listed with the scope it extends and
the statements behind it in its block (`Stmt.bounds`). It is referred to when
some use behind it, wherever that is nested, finds it first in the scope of
the use (`Bound.isReferred`). The bindings reported are those that are not
exempt, not referred to, and not bound again by a later statement of the same
block (`Bound.isReported`); `checkBody_unused` says that the reports are these,
each once. The last condition belongs to the frames, which hold one binding a
name: binding a name again drops the earlier binding together with its flag.

The frames see names only, and a binding is referred to exactly when its name
is free in the statements behind it (`Bound.isReferred_iff`). The invariant of
a walk through a block is what its frame has still to expect: the reports
about its bindings that the statements to come leave alone (`Frame.pending`).
A statement takes its part of that, and adds what it binds (`pending_step`).
-/

namespace Exemplar

/-! ## References -/

/-- The scope from the binding on that a name refers to. Nothing is taken out
of a scope, so what is left tells which binding that is. -/
def Scope.referent (scope : Scope) (name : String) : Scope :=
  scope.dropWhile fun v => v.name != name

/-- A `let` or `mutable` statement in its block. -/
structure Bound where
  visible : Visible
  /-- What is visible before it. -/
  outer : Scope
  /-- The statements behind it in its block. -/
  behind : List Stmt
deriving Repr, DecidableEq

mutual

/-- The `let` and `mutable` statements in the blocks inside a statement. -/
def Stmt.inner (scope : Scope) : Stmt → List Bound
  | .expr .. | .bind .. | .assign .. | .ret .. => []
  | .ifThen _ _ body => Stmt.bounds scope body
  | .ifElse _ _ body other => Stmt.bounds scope body ++ Stmt.bounds scope other
  | .loop span name _ body => Stmt.bounds (⟨name, false, span⟩ :: scope) body

/-- The `let` and `mutable` statements of a block, those inside its statements
included. -/
def Stmt.bounds (scope : Scope) : List Stmt → List Bound
  | [] => []
  | s :: ss =>
    s.inner scope ++ s.binds.map (fun v => ⟨v, scope, ss⟩)
      ++ Stmt.bounds (s.binds ++ scope) ss

end

/-- Some statement of a block, not of a block inside it, binds the name. -/
def Stmt.rebinds (ss : List Stmt) (name : String) : Bool :=
  ss.any fun s => (s.binds.binding? name).isSome

namespace Bound

/-- A use behind the binding refers to it. -/
def isReferred (b : Bound) : Bool :=
  (Stmt.usesAll (b.visible :: b.outer) b.behind).any fun (scope, use) =>
    use.localName?.any fun name => scope.referent name == b.visible :: b.outer

/-- A later statement of the same block binds the name again. -/
def isRebound (b : Bound) : Bool := Stmt.rebinds b.behind b.visible.name

/-- Nothing refers to the binding, and its name says nothing about that. -/
def isIdle (b : Bound) : Bool := !Frame.isExempt b.visible.name && !b.isReferred

def isReported (b : Bound) : Bool := b.isIdle && !b.isRebound

def finding (around : Surroundings) (b : Bound) : Finding :=
  ⟨.unused b.visible.name, b.visible.span, around.origin⟩

end Bound

/-! ### References by name -/

/-- A name refers to a binding when it is the binding's name, and nothing
bound later has it. -/
theorem Scope.referent_eq_iff (v : Visible) (outer : Scope) (name : String) :
    ∀ inner : Scope, Scope.referent (inner ++ v :: outer) name = v :: outer
      ↔ inner.binding? name = none ∧ v.name = name
  | [] => by
      by_cases hv : v.name = name
      · simp [Scope.referent, Scope.binding?, hv]
      · have hshort : (Scope.referent outer name).length ≤ outer.length :=
          (List.dropWhile_suffix _).length_le
        have hne : Scope.referent outer name ≠ v :: outer := by
          intro h
          rw [h, List.length_cons] at hshort
          omega
        simpa [Scope.referent, hv] using hne
  | u :: inner => by
      rw [List.cons_append, Scope.binding?_cons]
      by_cases hu : u.name = name
      · have hlong : u :: (inner ++ v :: outer) ≠ v :: outer := by
          intro h
          have hlength := congrArg List.length h
          simp only [List.length_cons, List.length_append] at hlength
          omega
        simpa [Scope.referent, hu] using hlong
      · have hskip : Scope.referent (u :: (inner ++ v :: outer)) name
            = Scope.referent (inner ++ v :: outer) name := by
          simp [Scope.referent, hu]
        rw [if_neg hu, hskip]
        exact Scope.referent_eq_iff v outer name inner

/-- A binding is referred to exactly when its name is free behind it. -/
theorem Bound.isReferred_iff (b : Bound) :
    b.isReferred = true ↔ b.visible.name ∈ Stmt.freeAll b.behind := by
  have huses := Stmt.usesAll_within (b.visible :: b.outer) b.behind []
  rw [List.nil_append] at huses
  rw [Bound.isReferred, huses, List.any_map, List.any_eq_true,
    Stmt.freeAll, outward, List.mem_filterMap]
  refine exists_congr fun u => and_congr_right fun _ => ?_
  cases h : u.2.localName? with
  | none => simp [Use.within, h]
  | some name =>
      have href := Scope.referent_eq_iff b.visible b.outer name u.1
      simp only [Function.comp_apply, Use.within, h, Option.any_some,
        beq_iff_eq, href, Option.filter_eq_some_iff, Option.some.injEq,
        Option.isNone_iff_eq_none]
      constructor
      · rintro ⟨hnone, rfl⟩
        exact ⟨rfl, hnone⟩
      · rintro ⟨rfl, hnone⟩
        exact ⟨hnone, rfl⟩

/-- Statements leave a name alone: they neither refer to a binding of it made
before them nor bind it again. -/
def Stmt.neglects (ss : List Stmt) (name : String) : Bool :=
  !(Stmt.freeAll ss).contains name && !Stmt.rebinds ss name

theorem Stmt.neglects_cons (s : Stmt) (ss : List Stmt) (name : String) :
    Stmt.neglects (s :: ss) name
      = (!s.free.contains name && (s.binds.binding? name).isNone
        && Stmt.neglects ss name) := by
  unfold Stmt.neglects Stmt.rebinds
  rw [Stmt.freeAll_cons, List.any_cons]
  cases hbinds : s.binds.binding? name
    <;> simp [List.contains_eq_mem, hbinds, Bool.and_assoc]

theorem Bound.isReported_eq (b : Bound) :
    b.isReported
      = (!Frame.isExempt b.visible.name
        && Stmt.neglects b.behind b.visible.name) := by
  have hreferred : b.isReferred
      = (Stmt.freeAll b.behind).contains b.visible.name := by
    rw [Bool.eq_iff_iff, Bound.isReferred_iff, List.contains_iff_mem]
  rw [Bound.isReported, Bound.isIdle, Bound.isRebound, Stmt.neglects, hreferred,
    Bool.and_assoc]

namespace Walk

/-! ## Warnings -/

def warningsOf (fs : List Finding) : List Finding :=
  fs.filter fun f => f.problem.code == "W0001"

theorem warningsOf_append (fs gs : List Finding) :
    warningsOf (fs ++ gs) = warningsOf fs ++ warningsOf gs :=
  List.filter_append ..

/-- That something is wrong with a use is no warning. -/
theorem Adds.warnings {around : Surroundings} {scope : Scope} {w w' : Walk}
    {us : List Use} (h : w.Adds w' (us.filterMap (judge around scope))) :
    warningsOf w'.findings = warningsOf w.findings := by
  have hnone : warningsOf (us.filterMap (judge around scope)) = [] := by
    refine List.filter_eq_nil_iff.mpr fun f hf hcode => ?_
    obtain ⟨use, -, huse⟩ := List.mem_filterMap.mp hf
    have herror := code_of_judge huse
    rw [beq_iff_eq.mp hcode] at herror
    exact absurd herror (by decide)
  rw [h.findings, warningsOf_append, hnone, List.append_nil]

theorem shows_frames (w : Walk) : Shows w.frames w.frames.flatten :=
  fun _ => rfl

theorem expr_warnings (around : Surroundings) (e : Expr) (w : Walk) :
    warningsOf (expr around e w).findings = warningsOf w.findings :=
  (expr_effect around _ e w (shows_frames w)).warnings

theorem assign_warnings (around : Surroundings) (name : String) (span : Span)
    (w : Walk) :
    warningsOf (w.assign around name span).findings = warningsOf w.findings :=
  (assign_effect around (shows_frames w) name span).warnings

/-- What the end of a block adds to the warnings. -/
theorem leaveReporting_warnings (around : Surroundings) {w : Walk}
    {frame : Frame} {outer : Locals} (hw : w.locals = frame :: outer) :
    warningsOf (w.leaveReporting around).findings = warningsOf w.findings
      ++ frame.unused.map fun (name, span) =>
      ⟨.unused name, span, around.origin⟩ := by
  have hfold : ∀ (us : List (String × Span)) (v : Walk),
      warningsOf (us.foldl (fun w (name, span) =>
        report around (.unused name) span w) v).findings
        = warningsOf v.findings
          ++ us.map fun (name, span) =>
          ⟨.unused name, span, around.origin⟩ := by
    intro us
    induction us with
    | nil => exact fun v => (List.append_nil _).symm
    | cons u us ih =>
        intro v
        have hreport : warningsOf (report around (.unused u.1) u.2 v).findings
            = warningsOf v.findings ++ [⟨.unused u.1, u.2, around.origin⟩] :=
          warningsOf_append ..
        rw [List.foldl_cons, ih, hreport, List.append_assoc]
        rfl
  unfold leaveReporting
  rw [hw]
  exact hfold frame.unused _

end Walk

/-- The reports that the bindings of a frame have still to expect at the end
of its block, if nothing but the statements to come refers to them. -/
def Frame.pending (around : Surroundings) (frame : Frame) (ss : List Stmt) :
    List Finding :=
  (frame.filter fun (name, b) =>
    b.reported && !b.used && !Frame.isExempt name && Stmt.neglects ss name).map
      fun (name, b) => ⟨.unused name, b.span, around.origin⟩

def reportsOf (around : Surroundings) (bs : List Bound) : List Finding :=
  (bs.filter Bound.isReported).map (Bound.finding around)

theorem reportsOf_append (around : Surroundings) (bs cs : List Bound) :
    reportsOf around (bs ++ cs) = reportsOf around bs
      ++ reportsOf around cs := by
  rw [reportsOf, List.filter_append, List.map_append]
  rfl

namespace Frame

variable {around : Surroundings}

theorem pending_perm {frame frame' : Frame} (h : frame.Perm frame')
    (ss : List Stmt) :
    (frame.pending around ss).Perm (frame'.pending around ss) :=
  (h.filter _).map _

/-- At the end of a block, the reports are made. -/
theorem unused_perm (frame : Frame) :
    (frame.unused.map fun (name, span) =>
      (⟨.unused name, span, around.origin⟩ : Finding)).Perm
        (frame.pending around []) := by
  have hsort := (List.mergeSort_perm ((frame.filter fun (name, b) =>
    b.reported && !b.used && !isExempt name).map fun (name, b) =>
      (name, b.span))
      fun a b => a.2.start ≤ b.2.start).map
        fun (name, span) => (⟨.unused name, span, around.origin⟩ : Finding)
  refine hsort.trans (.of_eq ?_)
  have hall : ∀ name, Stmt.neglects [] name = true := fun _ => rfl
  rw [List.map_map, pending]
  simp only [hall, Bool.and_true]
  rfl

/-- The entry of a frame for a `let` or `mutable`. -/
def entry (v : Visible) : String × Local :=
  (v.name, ⟨v.isMutable, v.span, false, true⟩)

theorem bindAll_perm (s : Stmt) {frame : Frame} (h : frame.names.Nodup) :
    (frame.bindAll s.binds).Perm
      (s.binds.map entry ++ frame.filter fun e =>
        (s.binds.binding? e.1).isNone) := by
  cases s with
  | bind span name isMutable value =>
      have hkept : frame.filter (fun e => e.1 != name)
          = frame.filter fun e =>
          (Scope.binding? [⟨name, isMutable, span⟩] e.1).isNone :=
        List.filter_congr fun e _ =>
          (Scope.isNone_binding?_singleton ⟨name, isMutable, span⟩ e.1).symm
      have hdefine := define_perm (n := name) ⟨isMutable, span, false, true⟩ h
      rw [hkept] at hdefine
      exact hdefine
  | expr | assign | ret | ifThen | ifElse | loop =>
      exact .of_eq (List.filter_eq_self.mpr fun _ _ => rfl).symm

theorem pending_append (frame frame' : Frame) (ss : List Stmt) :
    Frame.pending around (frame ++ frame') ss
      = frame.pending around ss ++ frame'.pending around ss := by
  rw [pending, List.filter_append, List.map_append]
  rfl

/-- What a statement binds is reported unless the statements behind it see to
it. -/
theorem pending_entries (scope : Scope) (vs : Scope) (ss : List Stmt) :
    Frame.pending around (vs.map entry) ss
      = reportsOf around (vs.map fun v => ⟨v, scope, ss⟩) := by
  rw [pending, reportsOf, List.filter_map, List.filter_map, List.map_map,
    List.map_map]
  refine congrArg₂ List.map rfl (List.filter_congr fun v _ => ?_)
  rw [Function.comp_apply, Function.comp_apply, Bound.isReported_eq]
  rfl

/-- What a statement leaves to expect. -/
theorem pending_mark (s : Stmt) (ss : List Stmt) (frame : Frame) :
    Frame.pending around ((frame.mark s.free).filter fun e =>
      (s.binds.binding? e.1).isNone) ss
      = frame.pending around (s :: ss) := by
  rw [pending, pending, List.filter_filter, mark, List.filter_map, List.map_map]
  refine congrArg₂ List.map rfl (List.filter_congr fun e _ => ?_)
  simp only [Function.comp_apply, Stmt.neglects_cons, Bool.not_or]
  ac_rfl

/-- A statement takes its part of what was to be expected, and adds what it
binds. -/
theorem pending_step (around : Surroundings) (scope : Scope) (s : Stmt)
    (ss : List Stmt) {frame : Frame} (h : frame.names.Nodup) :
    (((frame.mark s.free).bindAll s.binds).pending around ss).Perm
      (reportsOf around (s.binds.map fun v => ⟨v, scope, ss⟩)
        ++ frame.pending around (s :: ss)) := by
  have hmark : (frame.mark s.free).names.Nodup := by
    rw [names_mark]
    exact h
  rw [← pending_entries scope, ← pending_mark, ← pending_append]
  exact pending_perm (bindAll_perm s hmark) ss

end Frame

namespace Walk

/-- From a frame on, statements and the end of their block add the reports
that the frame has to expect, and those about the statements themselves. -/
def Reports (around : Surroundings) (scope : Scope) (ss : List Stmt) : Prop :=
  ∀ (w : Walk) (frame : Frame) (outer : Locals), w.locals = frame :: outer →
    w.locals.Tidy →
    (warningsOf ((stmts around ss w).leaveReporting around).findings).Perm
      (warningsOf w.findings
        ++ (frame.pending around ss ++ reportsOf around (Stmt.bounds scope ss)))

theorem Reports.block {around : Surroundings} {scope : Scope} {body : List Stmt}
    (hbody : Reports around scope body) {w : Walk} (h : w.locals.Tidy) :
    (warningsOf (block around body w).findings).Perm
      (warningsOf w.findings ++ reportsOf around (Stmt.bounds scope body)) :=
  hbody w.enter [] w.locals rfl h.enter

theorem perm_warnings_of_eq {around : Surroundings} {w w' : Walk}
    (h : warningsOf w'.findings = warningsOf w.findings) :
    (warningsOf w'.findings).Perm
      (warningsOf w.findings ++ reportsOf around []) :=
  .of_eq (h.trans (List.append_nil _).symm)

mutual

/-- A statement adds the reports about the blocks inside it. -/
theorem stmt_warnings (around : Surroundings) (scope : Scope) :
    ∀ (s : Stmt) (w : Walk),
    w.locals.Tidy → (warningsOf (stmt around s w).findings).Perm
      (warningsOf w.findings ++ reportsOf around (s.inner scope))
  | .expr _ value, w, _ | .ret _ (some value), w, _ =>
      perm_warnings_of_eq (expr_warnings around value w)
  | .bind _ _ _ value, w, _ =>
      perm_warnings_of_eq (expr_warnings around value w)
  | .assign span name value, w, _ =>
      perm_warnings_of_eq ((assign_warnings around name span _).trans
        (expr_warnings around value w))
  | .ret _ none, w, _ => perm_warnings_of_eq rfl
  | .ifThen _ test body, w, h => by
      have htidy := tidy_expr around test h
      have hbody := (stmts_warnings around scope body).block htidy
      rw [expr_warnings] at hbody
      exact hbody
  | .ifElse _ test body other, w, h => by
      have htidy := tidy_expr around test h
      have hbody := (stmts_warnings around scope body).block htidy
      have htidy' : (block around body (expr around test w)).locals.Tidy :=
        (stmts_locals around body).block htidy ▸ htidy.mark _
      have hother := (stmts_warnings around scope other).block htidy'
      rw [expr_warnings] at hbody
      rw [Stmt.inner, reportsOf_append, ← List.append_assoc]
      exact hother.trans (hbody.append_right _)
  | .loop span name items body, w, h => by
      have htidy := tidy_expr around items h
      have hbody :=
        (stmts_warnings around (⟨name, false, span⟩ :: scope) body).block (w :=
          (expr around items w).enter.define name ⟨false, span, false, false⟩)
        (htidy.enter.define name _)
      have hitems : warningsOf ((expr around items w).enter.define name
          ⟨false, span, false, false⟩).findings = warningsOf w.findings :=
        expr_warnings around items w
      rw [hitems] at hbody
      exact hbody

/-- Statements, by what the frame has to expect before each of them. -/
theorem stmts_warnings (around : Surroundings) :
    ∀ (scope : Scope) (ss : List Stmt), Reports around scope ss
  | scope, [], w, frame, outer, hw, _ => by
      have hnil : reportsOf around (Stmt.bounds scope []) = [] := rfl
      rw [stmts, leaveReporting_warnings around hw, hnil, List.append_nil]
      exact (Frame.unused_perm frame).append_left _
  | scope, s :: ss, w, frame, outer, hw, h => by
      have hstmt := stmt_warnings around scope s w h
      have hlocals := stmt_locals around s w h
      have htidy : (stmt around s w).locals.Tidy :=
        hlocals ▸ (h.mark _).bindAll _
      rw [hw] at hlocals h
      have hrest :=
        stmts_warnings around (s.binds ++ scope) ss _ _ _ hlocals htidy
      have hstep := Frame.pending_step around scope s ss h.head
      rw [stmts, Stmt.bounds, reportsOf_append, reportsOf_append]
      refine (hrest.trans (hstmt.append (hstep.append_right _))).trans ?_
      rw [List.perm_iff_count]
      intro f
      simp only [List.count_append]
      omega

end

/-- The walk of a body starts tidy, and without findings. -/
theorem tidy_ofParams (params : List Param) :
    (ofParams params).locals.Tidy ∧ (ofParams params).findings = [] := by
  have hfold : ∀ (ps : List Param) (w : Walk), w.locals.Tidy →
      (ps.foldl (fun w p => w.define p.name ⟨false, p.span, false, false⟩)
        w).locals.Tidy
        ∧ (ps.foldl (fun w p => w.define p.name ⟨false, p.span, false, false⟩)
          w).findings = w.findings := by
    intro ps
    induction ps with
    | nil => exact fun w h => ⟨h, rfl⟩
    | cons p ps ih => exact fun w h => ih _ (h.define p.name _)
  exact hfold params ⟨[[]], []⟩ (Locals.Tidy.enter fun _ h => nomatch h)

end Walk

/-- The reports about unused bindings of a body are those about the `let` and
`mutable` statements that are neither exempt nor referred to nor bound again
in their block, each once. -/
theorem checkBody_unused (around : Surroundings) (params : List Param)
    (body : List Stmt) :
    (Walk.warningsOf (checkBody around params body)).Perm
      (reportsOf around (Stmt.bounds (Scope.ofParams params) body)) := by
  obtain ⟨htidy, hfindings⟩ := Walk.tidy_ofParams params
  have hblock :=
    (Walk.stmts_warnings around (Scope.ofParams params) body).block htidy
  rw [hfindings] at hblock
  exact hblock

end Exemplar
