import Exemplar.Check.Blocks
import Exemplar.Proofs.Tree.Spans

/-!
# Where findings are shown

A finding of a block has the origin of the block and is shown at one of its
spans (`points_of_mem_checkBlock`). The same holds of the place that may be
shown with it, with one exception. The body of a specialization is checked
under the parameters of its operation, and an assignment to one of them shows
where the parameter is bound, in whatever source that is.

The walk through a body preserves `Walk.Points`: what has been found points
into the body, or to a parameter, and so do the bindings at hand.
-/

namespace Exemplar

/-- The place that is shown with a problem, beside its own. -/
def Problem.related? : Problem → Option Span
  | .duplicate _ _ earlier => earlier
  | .immutable _ bound => some bound
  | _ => none

/-- A label shows the place of the finding, or the one that comes with it. -/
theorem Finding.mem_labels_toDiagnostic {f : Finding} {l : Label}
    (hl : l ∈ f.toDiagnostic.labels) :
    l.span = f.span ∨ l.emphasis = .secondary ∧ f.problem.related?
      = some l.span := by
  obtain ⟨problem, span, origin⟩ := f
  have hone : ∀ ls : List Label,
    l ∈ [⟨span, .primary, some problem.label⟩] ++ ls →
      l.span = span ∨ l ∈ ls := by
    intro ls hl
    rcases List.mem_append.mp hl with hl | hl
    · rw [List.mem_singleton.mp hl]
      exact Or.inl rfl
    · exact Or.inr hl
  cases problem with
  | duplicate name space earlier =>
      cases earlier with
      | none => exact (hone [] hl).imp id nofun
      | some earlier =>
          refine (hone [⟨earlier, .secondary, some "previously defined here"⟩]
            hl).imp id fun hl => ?_
          rw [List.mem_singleton.mp hl]
          exact ⟨rfl, rfl⟩
  | immutable name bound =>
      refine (hone [⟨bound, .secondary, some "bound with `let`"⟩] hl).imp id
        fun hl => ?_
      rw [List.mem_singleton.mp hl]
      exact ⟨rfl, rfl⟩
  | unresolved | noSuchOperation | unknownType | unknownAttribute
  | unknownNamespace | wrongArity
  | notAnOperation | unused => exact (hone [] hl).imp id nofun

/-- The finding is in the given source and at one of the spans `own`. So is
what is shown with it, unless that is the binding of a parameter that is
assigned to. -/
structure Finding.Points (own params : List Span) (origin : Origin)
    (f : Finding) : Prop where
  origin : f.origin = origin
  span : f.span ∈ own
  related : ∀ s, f.problem.related? = some s →
    s ∈ own ∨ f.problem.code = "E0301" ∧ s ∈ params

/-- The binding was made at one of the spans `own`, or it is a parameter, and
then it is never reported as unused. -/
structure Local.Points (own params : List Span) (b : Local) : Prop where
  span : b.span ∈ own ∨ b.span ∈ params
  reported : b.reported = true → b.span ∈ own

/-! ## Frames -/

section

variable {own params : List Span}

theorem Local.Points.used {b : Local} (h : b.Points own params) :
    Local.Points own params { b with used := true } := ⟨h.span, h.reported⟩

theorem Frame.points_use? {name : String} {b : Local} :
    ∀ {frame frame' : Frame}, (∀ p ∈ frame, p.2.Points own params) →
      frame.use? name = some (b, frame') →
        b.Points own params ∧ ∀ p ∈ frame', p.2.Points own params
  | (n, b') :: rest, frame', hframe, h => by
      obtain ⟨hfirst, hrest⟩ := List.forall_mem_cons.mp hframe
      rw [use?] at h
      split at h
      · obtain ⟨rfl, rfl⟩ := Prod.mk.inj (Option.some.inj h)
        exact ⟨hfirst.used, List.forall_mem_cons.mpr ⟨hfirst.used, hrest⟩⟩
      · obtain ⟨⟨found, rest'⟩, huse, heq⟩ := Option.map_eq_some_iff.mp h
        obtain ⟨rfl, rfl⟩ := Prod.mk.inj heq
        obtain ⟨hfound, hrest'⟩ := points_use? hrest huse
        exact ⟨hfound, List.forall_mem_cons.mpr ⟨hfirst, hrest'⟩⟩

theorem Frame.points_define {name : String} {b : Local}
    (hb : b.Points own params) :
    ∀ {frame : Frame}, (∀ p ∈ frame, p.2.Points own params) →
      ∀ p ∈ frame.define name b, p.2.Points own params
  | [], _, p, hp => by
      rw [List.mem_singleton.mp hp]
      exact hb
  | (n, b') :: rest, hframe, p, hp => by
      obtain ⟨hfirst, hrest⟩ := List.forall_mem_cons.mp hframe
      rw [define] at hp
      split at hp
      · rcases List.mem_cons.mp hp with rfl | hp
        · exact hb
        · exact hrest p hp
      · rcases List.mem_cons.mp hp with rfl | hp
        · exact hfirst
        · exact points_define hb hrest p hp

theorem Locals.points_use? {name : String} {b : Local} :
    ∀ {locals locals' : Locals},
      (∀ frame ∈ locals, ∀ p ∈ frame, p.2.Points own params) →
      locals.use? name = some (b, locals') →
        b.Points own params ∧ ∀ frame ∈ locals', ∀ p ∈ frame,
          p.2.Points own params
  | frame :: outer, locals', hlocals, h => by
      obtain ⟨hfirst, hrest⟩ := List.forall_mem_cons.mp hlocals
      rw [use?] at h
      cases hframe : frame.use? name with
      | some q =>
          obtain ⟨found, frame'⟩ := q
          rw [hframe] at h
          obtain ⟨rfl, rfl⟩ := Prod.mk.inj (Option.some.inj h)
          obtain ⟨hfound, hframe'⟩ := Frame.points_use? hfirst hframe
          exact ⟨hfound, List.forall_mem_cons.mpr ⟨hframe', hrest⟩⟩
      | none =>
          rw [hframe] at h
          obtain ⟨⟨found, outer'⟩, huse, heq⟩ := Option.map_eq_some_iff.mp h
          obtain ⟨rfl, rfl⟩ := Prod.mk.inj heq
          obtain ⟨hfound, houter'⟩ := points_use? hrest huse
          exact ⟨hfound, List.forall_mem_cons.mpr ⟨hfirst, houter'⟩⟩

theorem Frame.mem_of_mem_unused {frame : Frame}
    (hframe : ∀ p ∈ frame, p.2.Points own params) {u : String × Span}
    (hu : u ∈ frame.unused) : u.2 ∈ own := by
  rw [unused, List.mem_mergeSort] at hu
  obtain ⟨p, hp, rfl⟩ := List.mem_map.mp hu
  obtain ⟨hmem, hidle⟩ := List.mem_filter.mp hp
  simp only [Bool.and_eq_true] at hidle
  exact (hframe p hmem).reported hidle.1.1

end

/-! ## Bodies -/

/-- Everything found and bound so far points to `own` or to parameters. -/
structure Walk.Points (own params : List Span) (origin : Origin) (w : Walk) :
    Prop where
  findings : ∀ f ∈ w.findings, f.Points own params origin
  locals : ∀ frame ∈ w.locals, ∀ p ∈ frame, p.2.Points own params

namespace Walk

variable {around : Surroundings} {own params : List Span} {origin : Origin}
  {w : Walk}

theorem Points.report (h : w.Points own params around.origin)
    {problem : Problem} {span : Span} (hspan : span ∈ own)
    (hrelated : ∀ s, problem.related? = some s →
      s ∈ own ∨ problem.code = "E0301" ∧ s ∈ params) :
    (report around problem span w).Points own params around.origin := by
  refine ⟨fun f hf => ?_, h.locals⟩
  rcases List.mem_append.mp hf with hf | hf
  · exact h.findings f hf
  · rw [List.mem_singleton.mp hf]
    exact ⟨rfl, hspan, hrelated⟩

theorem Points.useLocal? (h : w.Points own params origin) {name : String}
    {b : Local} {w' : Walk} (huse : w.useLocal? name = some (b, w')) :
    w'.Points own params origin := by
  unfold Walk.useLocal? at huse
  split at huse
  · cases huse
  · obtain ⟨⟨found, locals⟩, hfound, heq⟩ := Option.map_eq_some_iff.mp huse
    obtain ⟨rfl, rfl⟩ := Prod.mk.inj heq
    exact ⟨h.findings, (Locals.points_use? h.locals hfound).2⟩

theorem Points.path (h : w.Points own params around.origin) (name : String)
    {span : Span} (hspan : span ∈ own) :
    (w.path around name span).Points own params around.origin := by
  unfold Walk.path
  split
  · next huse => exact h.useLocal? huse
  · split
    · exact h
    · exact h.report hspan nofun

theorem Points.callee (h : w.Points own params around.origin) (name : String)
    {span callSpan : Span} (hspan : span ∈ own) (hcall : callSpan ∈ own)
    (found : Nat) :
    (w.callee around name span callSpan found).Points own params
      around.origin := by
  unfold Walk.callee
  split
  · next huse => exact h.useLocal? huse
  · split
    · exact h.report hspan nofun
    · split
      · exact h
      · split
        · exact h
        · exact h.report hcall nofun

theorem Points.assign (h : w.Points own params around.origin) (name : String)
    {span : Span} (hspan : span ∈ own) :
    (w.assign around name span).Points own params around.origin := by
  unfold Walk.assign
  split
  · exact h.report hspan nofun
  · next found locals huse =>
      obtain ⟨hfound, hlocals⟩ := Locals.points_use? h.locals huse
      have hw : Walk.Points own params around.origin
          { w with locals := locals } :=
        ⟨h.findings, hlocals⟩
      dsimp only
      split
      · exact hw
      · refine hw.report hspan fun s hs => ?_
        obtain rfl := Option.some.inj hs
        exact hfound.span.imp id fun hparam => ⟨rfl, hparam⟩

theorem Points.enter (h : w.Points own params origin) :
    w.enter.Points own params origin :=
  ⟨h.findings, List.forall_mem_cons.mpr ⟨nofun, h.locals⟩⟩

theorem Points.leave (h : w.Points own params origin) :
    w.leave.Points own params origin :=
  ⟨h.findings, fun frame hframe => h.locals frame (List.mem_of_mem_tail hframe)⟩

theorem Points.reportUnused : ∀ (unused : List (String × Span)) {w : Walk},
    w.Points own params around.origin → (∀ u ∈ unused, u.2 ∈ own) →
      (unused.foldl (fun w (name, span) =>
        Walk.report around (.unused name) span w) w).Points own
        params around.origin
  | [], w, h, _ => h
  | u :: us, w, h, hown => by
      obtain ⟨hu, hus⟩ := List.forall_mem_cons.mp hown
      exact Points.reportUnused us (h.report hu nofun) hus

theorem Points.leaveReporting (h : w.Points own params around.origin) :
    (w.leaveReporting around).Points own params around.origin := by
  unfold Walk.leaveReporting
  split
  · exact h
  · next frame outer hlocals =>
      have hframes := h.locals
      rw [hlocals] at hframes
      obtain ⟨hframe, houter⟩ := List.forall_mem_cons.mp hframes
      have hw : Walk.Points own params around.origin
          { w with locals := outer } :=
        ⟨h.findings, houter⟩
      exact hw.reportUnused _ fun u hu => Frame.mem_of_mem_unused hframe hu

theorem Points.define (h : w.Points own params origin) (name : String)
    {b : Local} (hb : b.Points own params) :
    (w.define name b).Points own params origin := by
  obtain ⟨locals, findings⟩ := w
  refine ⟨h.findings, ?_⟩
  cases locals with
  | nil => exact nofun
  | cons frame outer =>
      obtain ⟨hframe, houter⟩ := List.forall_mem_cons.mp h.locals
      exact List.forall_mem_cons.mpr ⟨Frame.points_define hb hframe, houter⟩

mutual

theorem points_expr :
    ∀ (e : Expr) {w : Walk}, w.Points own params around.origin →
    e.spans ⊆ own → (expr around e w).Points own params around.origin
  | .literal .., w, h, _ => h
  | .path span name, w, h, hown =>
      h.path name (hown (List.mem_singleton_self _))
  | .binary _ _ left right, w, h, hown => by
      obtain ⟨-, hown⟩ := List.cons_subset.mp hown
      obtain ⟨hleft, hright⟩ := List.append_subset.mp hown
      exact points_expr right (points_expr left h hleft) hright
  | .unary _ _ operand, w, h, hown =>
      points_expr operand h (List.cons_subset.mp hown).2
  | .call span callee args, w, h, hown => by
      obtain ⟨hspan, hown⟩ := List.cons_subset.mp hown
      obtain ⟨hcallee, hargs⟩ := List.append_subset.mp hown
      have hw := points_exprs args h hargs
      have hplain := points_expr callee hw hcallee
      cases callee with
      | path calleeSpan name =>
          exact hw.callee name (hcallee (List.mem_singleton_self _)) hspan
            args.length
      | literal | binary | unary | call | index | tuple | array => exact hplain
  | .index _ target subscript, w, h, hown => by
      obtain ⟨-, hown⟩ := List.cons_subset.mp hown
      obtain ⟨htarget, hsubscript⟩ := List.append_subset.mp hown
      exact points_expr subscript (points_expr target h htarget) hsubscript
  | .tuple _ items, w, h, hown =>
      points_exprs items h (List.cons_subset.mp hown).2
  | .array _ items, w, h, hown =>
      points_exprs items h (List.cons_subset.mp hown).2

theorem points_exprs :
    ∀ (es : List Expr) {w : Walk}, w.Points own params around.origin →
    Expr.spansAll es ⊆ own → (exprs around es w).Points own params around.origin
  | [], w, h, _ => h
  | e :: es, w, h, hown => by
      obtain ⟨hfirst, hrest⟩ := List.append_subset.mp hown
      exact points_exprs es (points_expr e h hfirst) hrest

end

mutual

theorem points_stmt :
    ∀ (s : Stmt) {w : Walk}, w.Points own params around.origin →
    s.spans ⊆ own → (stmt around s w).Points own params around.origin
  | .expr _ value, w, h, hown =>
      points_expr value h (List.cons_subset.mp hown).2
  | .bind span name isMutable value, w, h, hown => by
      obtain ⟨hspan, hvalue⟩ := List.cons_subset.mp hown
      exact (points_expr value h hvalue).define name ⟨Or.inl hspan,
        fun _ => hspan⟩
  | .assign span name value, w, h, hown => by
      obtain ⟨hspan, hvalue⟩ := List.cons_subset.mp hown
      exact (points_expr value h hvalue).assign name hspan
  | .ret _ none, w, h, _ => h
  | .ret _ (some value), w, h, hown =>
      points_expr value h (List.cons_subset.mp hown).2
  | .ifThen _ test body, w, h, hown => by
      obtain ⟨-, hown⟩ := List.cons_subset.mp hown
      obtain ⟨htest, hbody⟩ := List.append_subset.mp hown
      exact (points_stmts body (points_expr test h htest).enter
        hbody).leaveReporting
  | .ifElse _ test body other, w, h, hown => by
      obtain ⟨-, hown⟩ := List.cons_subset.mp hown
      obtain ⟨hown, hother⟩ := List.append_subset.mp hown
      obtain ⟨htest, hbody⟩ := List.append_subset.mp hown
      have hthen :=
        (points_stmts body (points_expr test h htest).enter
          hbody).leaveReporting
      exact (points_stmts other hthen.enter hother).leaveReporting
  | .loop span name items body, w, h, hown => by
      obtain ⟨hspan, hown⟩ := List.cons_subset.mp hown
      obtain ⟨hitems, hbody⟩ := List.append_subset.mp hown
      have hloop : Local.Points own params ⟨false, span, false, false⟩ :=
        ⟨Or.inl hspan, nofun⟩
      have hinner :=
        ((points_expr items h hitems).enter.define name hloop).enter
      exact (points_stmts body hinner hbody).leaveReporting.leave

theorem points_stmts :
    ∀ (ss : List Stmt) {w : Walk}, w.Points own params around.origin →
    Stmt.spansAll ss ⊆ own → (stmts around ss w).Points own params around.origin
  | [], w, h, _ => h
  | s :: ss, w, h, hown => by
      obtain ⟨hfirst, hrest⟩ := List.append_subset.mp hown
      exact points_stmts ss (points_stmt s h hfirst) hrest

end

theorem points_ofParams (origin : Origin) (ps : List Param) :
    (ofParams ps).Points own (ps.map Param.span) origin := by
  have hfold : ∀ (qs : List Param) (w : Walk), (∀ q ∈ qs, q ∈ ps) →
      w.Points own (ps.map Param.span) origin →
      (qs.foldl (fun w p => w.define p.name ⟨false, p.span, false, false⟩)
        w).Points own (ps.map Param.span) origin := by
    intro qs
    induction qs with
    | nil => exact fun _ _ h => h
    | cons q qs ih =>
        intro w hqs h
        obtain ⟨hq, hqs⟩ := List.forall_mem_cons.mp hqs
        have hparam : Local.Points own (ps.map Param.span) ⟨false, q.span,
            false, false⟩ :=
          ⟨Or.inr (List.mem_map_of_mem hq), nofun⟩
        exact ih _ hqs (h.define q.name hparam)
  refine hfold ps ⟨[[]], []⟩ (fun _ h => h) ⟨nofun, ?_⟩
  exact List.forall_mem_cons.mpr ⟨nofun, nofun⟩

end Walk

theorem points_of_mem_checkBody {around : Surroundings} {own : List Span}
    {ps : List Param} {body : List Stmt} (hown : Stmt.spansAll body ⊆ own) :
    ∀ f ∈ checkBody around ps body,
      f.Points own (ps.map Param.span) around.origin :=
  (Walk.points_stmts body (Walk.points_ofParams around.origin ps).enter
    hown).leaveReporting.findings

/-! ## Blocks -/

section

variable {program : Program} {origin : Origin} {block : Block} {d : Declaration}

theorem Block.spans_subset_of_mem (hd : d ∈ block.decls) :
    d.spans ⊆ block.spans :=
  fun _ hs => List.mem_append_right _ (List.mem_flatMap.mpr ⟨d, hd, hs⟩)

/-- A finding that shows one place only. -/
theorem Finding.Points.single {own params : List Span} {problem : Problem}
    {span : Span} (hspan : span ∈ own) (hrelated : problem.related? = none) :
    Finding.Points own params origin ⟨problem, span, origin⟩ := by
  refine ⟨rfl, hspan, fun s hs => ?_⟩
  rw [hrelated] at hs
  cases hs

/-- The parameters that a body in the declaration may be checked under from
elsewhere: those of the operation it specializes. -/
def Program.borrowedParams (program : Program) (d : Declaration) : List Param :=
  match d.detail with
  | .specialization .. =>
      (((program.lookup? d.name).bind Declaration.callable?).map
        Callable.params).getD []
  | .newtype .. | .callable _ => []

theorem points_of_mem_checkType {around : Surroundings} {own params : List Span}
    {t : TypeExpr} {span : Span} (hspan : span ∈ own) :
    ∀ f ∈ around.checkType t span, f.Points own params around.origin := by
  intro f hf
  obtain ⟨name, -, rfl⟩ := List.mem_map.mp hf
  exact .single hspan rfl

theorem points_of_mem_checkDeclaration {around : Surroundings} {own : List Span}
    (hown : d.spans ⊆ own) : ∀ f ∈ around.checkDeclaration d,
      f.Points own ((around.view.program.borrowedParams d).map Param.span)
        around.origin := by
  obtain ⟨name, doc, declared, span, detail⟩ := d
  obtain ⟨hspan, hdetail⟩ := List.cons_subset.mp hown
  intro f hf
  rcases List.mem_append.mp hf with hf | hf
  · obtain ⟨a, ha, rfl⟩ := List.mem_map.mp hf
    have ha := (List.mem_filter.mp ha).1
    refine .single (hdetail ?_) rfl
    cases detail with
    | newtype underlying as => exact List.mem_map_of_mem ha
    | callable c =>
        exact List.mem_append_left _
          (List.mem_append_left _ (List.mem_map_of_mem ha))
    | specialization variant body => cases ha
  · cases detail with
    | newtype underlying as => exact points_of_mem_checkType hspan f hf
    | callable c =>
        obtain ⟨hfront, hbody⟩ := List.append_subset.mp hdetail
        obtain ⟨-, hparams⟩ := List.append_subset.mp hfront
        rcases List.mem_append.mp hf with hf | hf
        · rcases List.mem_append.mp hf with hf | hf
          · obtain ⟨p, hp, hf⟩ := List.mem_flatMap.mp hf
            exact points_of_mem_checkType (hparams (List.mem_map_of_mem hp)) f
              hf
          · exact points_of_mem_checkType hspan f hf
        · cases hbodyOf : c.body with
          | none =>
              rw [hbodyOf] at hf
              cases hf
          | some body =>
              rw [hbodyOf] at hf hbody
              -- the parameters are those of the callable itself
              have hf := points_of_mem_checkBody hbody f hf
              exact ⟨hf.origin, hf.span, fun s hs =>
                Or.inl ((hf.related s hs).elim id fun hparam =>
                  hparams hparam.2)⟩
    | specialization variant body =>
        unfold Surroundings.checkSpecialization at hf
        unfold Program.borrowedParams
        dsimp only at hf ⊢
        cases hlookup : around.view.program.lookup? name with
        | none =>
            rw [hlookup] at hf
            rw [List.mem_singleton.mp hf]
            exact .single hspan rfl
        | some parent =>
            rw [hlookup] at hf
            dsimp only at hf
            rw [Option.bind_some]
            cases hcallable : parent.callable? with
            | none =>
                rw [hcallable] at hf
                rw [List.mem_singleton.mp hf]
                exact .single hspan rfl
            | some c =>
                rw [hcallable] at hf
                dsimp only at hf
                split at hf
                · rw [List.mem_singleton.mp hf]
                  exact .single hspan rfl
                · cases body with
                  | none => cases hf
                  | some body => exact points_of_mem_checkBody hdetail f hf

/-- **Findings point into their block**: at its spans, but for the bindings of
parameters that a specialization borrows. -/
theorem points_of_mem_checkBlock {f : Finding}
    (hf : f ∈ checkBlock program origin block) :
    f.Points block.spans (block.decls.flatMap fun d =>
      (program.borrowedParams d).map Param.span) origin := by
  rcases List.mem_append.mp hf with hf | hf
  · obtain ⟨o, ho, rfl⟩ := List.mem_map.mp hf
    have ho := (List.mem_filter.mp ho).1
    exact .single (List.mem_append_left _ (List.mem_map_of_mem ho)) rfl
  · obtain ⟨d, hd, hf⟩ := List.mem_flatMap.mp hf
    have hpoints :=
      points_of_mem_checkDeclaration (Block.spans_subset_of_mem hd) f hf
    refine ⟨hpoints.origin, hpoints.span, fun s hs =>
      (hpoints.related s hs).imp id ?_⟩
    exact fun ⟨hcode, hparam⟩ => ⟨hcode, List.mem_flatMap.mpr ⟨d, hd, hparam⟩⟩

end

end Exemplar
