import Mathlib.Data.List.Perm.Basic
import Exemplar.Proofs.Check.Lexical

/-!
# What a walk marks

The frames of a walk remember which of their bindings have been referred to.
To them a use is no more than a name, so a piece of a body matters by its free
names: those it refers to beyond its own bindings (`Stmt.free`,
`Stmt.freeAll`). They are read off the uses of the piece, each with the
bindings made inside the piece before it.

The headline `stmt_locals` says that a statement marks exactly its free names,
each in the innermost frame that has it, and then binds what it binds. Blocks
inside a statement push and pop frames of their own; a frame keeps the names
it binds from the frames outside it (`Locals.mark`), as a binding keeps its
name from the free names of the block (`Stmt.freeAll_cons`), and so a block as
a whole marks its free names again (`Marks.block`).
-/

namespace Exemplar

/-! ## Free names -/

/-- The name under which a use can refer to a local binding: a path with dots
never does. -/
def Use.localName? : Use → Option String
  | .path name _ | .callee name .. => if isDotted name then none else some name
  | .target name _ => some name

theorem Scope.isNone_binding?_singleton (v : Visible) (name : String) :
    (Scope.binding? [v] name).isNone = (name != v.name) := by
  rw [Scope.binding?_cons]
  by_cases hv : v.name = name
  · simp [hv]
  · simp [hv, Scope.binding?, Ne.symm hv]

/-- The names that uses refer to beyond the bindings given with them. -/
def outward (uses : List (Scope × Use)) : List String :=
  uses.filterMap fun (scope, use) =>
    use.localName?.filter fun name => (scope.binding? name).isNone

/-- The names a statement refers to beyond its own bindings. -/
def Stmt.free (s : Stmt) : List String := outward (s.uses [])

def Stmt.freeAll (ss : List Stmt) : List String := outward (Stmt.usesAll [] ss)

theorem outward_append (us vs : List (Scope × Use)) :
    outward (us ++ vs) = outward us ++ outward vs :=
  List.filterMap_append

/-- Where nothing is bound yet, every name goes outward. -/
theorem outward_map (us : List Use) :
    outward (us.map ([], ·)) = us.filterMap Use.localName? := by
  rw [outward, List.filterMap_map]
  refine List.filterMap_congr fun use _ => ?_
  cases h : use.localName? <;> simp [h, Scope.binding?]

/-- A use with more bindings around it. -/
def Use.within (outer : Scope) (u : Scope × Use) : Scope × Use :=
  (u.1 ++ outer, u.2)

theorem outward_within (outer : Scope) (us : List (Scope × Use)) :
    outward (us.map (Use.within outer))
      = (outward us).filter fun name => (outer.binding? name).isNone := by
  rw [outward, outward, List.filterMap_map, List.filter_filterMap]
  refine List.filterMap_congr fun u _ => ?_
  cases h : u.2.localName? with
  | none => simp [Use.within, h]
  | some name =>
      cases hinner : u.1.binding? name <;>
        simp [Use.within, h, Option.filter, Scope.binding?_append, hinner]

theorem map_within (inner outer : Scope) (us : List Use) :
    us.map (inner ++ outer, ·)
      = (us.map (inner, ·)).map (Use.within outer) := by
  rw [List.map_map]
  rfl

mutual

/-- The bindings around a statement stand behind its own in every scope. -/
theorem Stmt.uses_within (outer : Scope) : ∀ (s : Stmt) (inner : Scope),
    s.uses (inner ++ outer) = (s.uses inner).map (Use.within outer)
  | .expr _ _, inner | .bind .., inner | .ret _ (some _), inner =>
      map_within inner outer _
  | .ret _ none, _ => rfl
  | .assign .., inner => map_within inner outer _
  | .ifThen _ test body, inner => by
      rw [Stmt.uses, Stmt.uses, List.map_append, Stmt.usesAll_within outer body,
        map_within inner outer]
  | .ifElse _ test body other, inner => by
      rw [Stmt.uses, Stmt.uses, List.map_append, List.map_append,
        Stmt.usesAll_within outer body, Stmt.usesAll_within outer other,
        map_within inner outer]
  | .loop span name items body, inner => by
      rw [Stmt.uses, Stmt.uses, List.map_append, map_within inner outer,
        ← List.cons_append, Stmt.usesAll_within outer body]

theorem Stmt.usesAll_within (outer : Scope) :
    ∀ (ss : List Stmt) (inner : Scope),
    Stmt.usesAll (inner ++ outer) ss
      = (Stmt.usesAll inner ss).map (Use.within outer)
  | [], _ => rfl
  | s :: ss, inner => by
      rw [Stmt.usesAll, Stmt.usesAll, List.map_append, Stmt.uses_within outer s,
        ← List.append_assoc, Stmt.usesAll_within outer ss]

end

/-- What is free in statements under further bindings. -/
theorem Stmt.outward_usesAll (scope : Scope) (ss : List Stmt) :
    outward (Stmt.usesAll scope ss)
      = (Stmt.freeAll ss).filter fun name => (scope.binding? name).isNone := by
  have h := Stmt.usesAll_within scope ss []
  rw [List.nil_append] at h
  rw [h, outward_within]
  rfl

theorem Stmt.freeAll_cons (s : Stmt) (ss : List Stmt) :
    Stmt.freeAll (s :: ss)
      = s.free ++ (Stmt.freeAll ss).filter fun name =>
      (s.binds.binding? name).isNone := by
  rw [Stmt.freeAll, Stmt.usesAll, outward_append, List.append_nil,
    Stmt.outward_usesAll]
  rfl

/-! ## Marked frames -/

namespace Frame

def names (frame : Frame) : List String := frame.map Prod.fst

/-- The frame with the bindings of some names referred to. -/
def mark (ns : List String) (frame : Frame) : Frame :=
  frame.map fun (n, b) => (n, { b with used := b.used || ns.contains n })

@[simp] theorem names_mark (ns : List String) (frame : Frame) :
    (frame.mark ns).names = frame.names := by
  rw [names, names, mark, List.map_map]
  rfl

theorem mark_append (ns ms : List String) (frame : Frame) :
    (frame.mark ns).mark ms = frame.mark (ns ++ ms) := by
  simp [mark, Bool.or_assoc]

theorem mark_of_disjoint {ns : List String} {frame : Frame}
    (h : ∀ n ∈ ns, n ∉ frame.names) :
    frame.mark ns = frame := by
  have hsame : ∀ e ∈ frame,
      (e.1, { e.2 with used := e.2.used || ns.contains e.1 }) = e := by
    intro e he
    have hnot : ns.contains e.1 = false := by
      rw [List.contains_eq_mem, decide_eq_false_iff_not]
      exact fun hmem => h e.1 hmem (List.mem_map_of_mem he)
    rw [hnot, Bool.or_false]
  exact (List.map_congr_left hsame).trans (List.map_id frame)

theorem mark_of_not_mem {name : String} {frame : Frame}
    (h : name ∉ frame.names) :
    frame.mark [name] = frame :=
  mark_of_disjoint fun _ hn => List.mem_singleton.mp hn ▸ h

theorem not_mem_names_of_use?_none {name : String} :
    ∀ {frame : Frame}, frame.use? name = none → name ∉ frame.names
  | [], _ => List.not_mem_nil
  | (n, b) :: rest, h => by
      rw [use?] at h
      split at h
      · cases h
      · next hne =>
          have hrest := not_mem_names_of_use?_none (Option.map_eq_none_iff.mp h)
          exact List.not_mem_cons_of_ne_of_not_mem (Ne.symm hne) hrest

/-- Where every name is bound once, referring to it marks it. -/
theorem eq_mark_of_use?_some {name : String} {b : Local} :
    ∀ {frame frame' : Frame}, frame.use? name = some (b, frame') →
      frame.names.Nodup →
      name ∈ frame.names ∧ frame' = frame.mark [name]
  | [], _, h, _ => nomatch h
  | (n, b') :: rest, frame', h, hnodup => by
      obtain ⟨hn, hrest⟩ := List.nodup_cons.mp hnodup
      rw [use?] at h
      split at h
      · next heq =>
          subst heq
          obtain ⟨rfl, rfl⟩ := Prod.mk.inj (Option.some.inj h)
          have hmark : Frame.mark [n] rest = rest := mark_of_not_mem hn
          refine ⟨List.mem_cons_self, ?_⟩
          nth_rewrite 1 [← hmark]
          simp [mark]
      · next hne =>
          obtain ⟨⟨found, rest'⟩, huse, heq⟩ := Option.map_eq_some_iff.mp h
          obtain ⟨rfl, rfl⟩ := Prod.mk.inj heq
          obtain ⟨hmem, rfl⟩ := eq_mark_of_use?_some huse hrest
          refine ⟨List.mem_cons_of_mem _ hmem, ?_⟩
          simp [mark, hne]

/-- Binding a name again replaces its binding. -/
theorem define_perm {n : String} (b : Local) :
    ∀ {frame : Frame}, frame.names.Nodup →
      (frame.define n b).Perm ((n, b) :: frame.filter fun e => e.1 != n)
  | [], _ => List.Perm.refl _
  | (k, b') :: rest, hnodup => by
      obtain ⟨hk, hrest⟩ := List.nodup_cons.mp hnodup
      rw [define]
      split
      · next heq =>
          subst heq
          have hfilter : rest.filter (fun e => e.1 != k) = rest := by
            refine List.filter_eq_self.mpr fun e he =>
              bne_iff_ne.mpr fun heq => hk ?_
            exact List.mem_map.mpr ⟨e, he, heq⟩
          simp [hfilter]
      · next hne =>
          have hkept : ((k, b') :: rest).filter (fun e => e.1 != n)
              = (k, b') :: rest.filter fun e => e.1 != n :=
            List.filter_cons_of_pos (bne_iff_ne.mpr hne)
          rw [hkept]
          exact ((define_perm b hrest).cons _).trans (List.Perm.swap ..)

theorem names_define_perm {n : String} (b : Local) {frame : Frame}
    (h : frame.names.Nodup) :
    (frame.define n b).names.Perm (n :: frame.names.filter fun m =>
      m != n) := by
  have hnames : (frame.filter fun e => e.1 != n).map Prod.fst
      = frame.names.filter fun m => m != n := by
    rw [names, List.filter_map]
    rfl
  rw [← hnames]
  exact (define_perm b h).map Prod.fst

theorem nodup_define {n : String} {b : Local} {frame : Frame}
    (h : frame.names.Nodup) :
    (frame.define n b).names.Nodup := by
  refine (names_define_perm b h).nodup_iff.mpr
    (List.nodup_cons.mpr ⟨?_, h.filter _⟩)
  exact fun hmem => bne_iff_ne.mp (List.mem_filter.mp hmem).2 rfl

theorem mem_names_define {n m : String} {b : Local} {frame : Frame}
    (h : frame.names.Nodup) :
    m ∈ (frame.define n b).names ↔ m = n ∨ m ∈ frame.names := by
  rw [(names_define_perm b h).mem_iff, List.mem_cons, List.mem_filter,
    bne_iff_ne]
  by_cases hm : m = n <;> simp [hm]

/-- The frame with names bound as `let` and `mutable` bind them. -/
def bindAll (vs : Scope) (frame : Frame) : Frame :=
  vs.foldl (fun f v => f.define v.name ⟨v.isMutable, v.span, false, true⟩) frame

theorem nodup_bindAll (vs : Scope) {frame : Frame} (h : frame.names.Nodup) :
    (frame.bindAll vs).names.Nodup := by
  induction vs generalizing frame with
  | nil => exact h
  | cons v vs ih => exact ih (nodup_define h)

theorem mem_names_bindAll {n : String} (vs : Scope) {frame : Frame}
    (h : frame.names.Nodup) :
    n ∈ (frame.bindAll vs).names ↔ (vs.binding? n).isSome = true
      ∨ n ∈ frame.names := by
  induction vs generalizing frame with
  | nil => simp [bindAll, Scope.binding?]
  | cons v vs ih =>
      refine (ih (nodup_define h)).trans ?_
      rw [mem_names_define h, Scope.binding?_cons]
      by_cases hv : v.name = n
      · simp [hv]
      · simp [hv, Ne.symm hv]

end Frame

namespace Locals

/-- Every frame binds every name once. -/
def Tidy (locals : Locals) : Prop := ∀ frame ∈ locals, (Frame.names frame).Nodup

/-- The frames with the bindings that some names refer to marked: each name in
the innermost frame that has it. -/
def mark (ns : List String) : Locals → Locals
  | [] => []
  | frame :: outer =>
      frame.mark ns :: mark (ns.filter fun n => n ∉ frame.names) outer

/-- The frames with names bound in the innermost one. -/
def bindAll (vs : Scope) : Locals → Locals
  | [] => []
  | frame :: outer => frame.bindAll vs :: outer

theorem bindAll_nil (locals : Locals) : locals.bindAll [] = locals := by
  cases locals <;> rfl

@[simp] theorem mark_nil : ∀ locals : Locals, locals.mark [] = locals
  | [] => rfl
  | frame :: outer => by
      have hframe : frame.mark [] = frame :=
        Frame.mark_of_disjoint fun _ h => nomatch h
      rw [mark, hframe, List.filter_nil, mark_nil outer]

theorem mark_append : ∀ (ns ms : List String) (locals : Locals),
    (locals.mark ns).mark ms = locals.mark (ns ++ ms)
  | _, _, [] => rfl
  | ns, ms, frame :: outer => by
      rw [mark, mark, mark, Frame.mark_append, Frame.names_mark, mark_append,
        List.filter_append]

namespace Tidy

variable {locals : Locals} {frame : Frame} {outer : Locals}

theorem head (h : Tidy (frame :: outer)) : frame.names.Nodup :=
  h frame List.mem_cons_self

theorem tail (h : Tidy (frame :: outer)) : Tidy outer :=
  fun f hf => h f (List.mem_cons_of_mem _ hf)

theorem cons (hframe : frame.names.Nodup) (h : Tidy outer) :
    Tidy (frame :: outer) :=
  List.forall_mem_cons.mpr ⟨hframe, h⟩

theorem enter (h : locals.Tidy) : Tidy ([] :: locals) := cons List.nodup_nil h

theorem mark : ∀ {locals : Locals} (ns : List String), locals.Tidy →
      (locals.mark ns).Tidy
  | [], _, _ => fun _ h => nomatch h
  | frame :: outer, ns, h => by
      refine cons ?_ (mark _ h.tail)
      rw [Frame.names_mark]
      exact h.head

theorem define (h : locals.Tidy) (name : String) (b : Local) :
    (locals.define name b).Tidy := by
  cases locals with
  | nil => exact h
  | cons frame outer => exact cons (Frame.nodup_define h.head) h.tail

theorem bindAll (h : locals.Tidy) (vs : Scope) : (locals.bindAll vs).Tidy := by
  cases locals with
  | nil => exact h
  | cons frame outer => exact cons (Frame.nodup_bindAll vs h.head) h.tail

end Tidy

theorem mark_cons_of_not_mem {name : String} {frame : Frame} {outer : Locals}
    (h : name ∉ frame.names) :
    Locals.mark [name] (frame :: outer) = frame :: outer.mark [name] := by
  rw [mark, Frame.mark_of_not_mem h, List.filter_singleton, decide_eq_true h]
  rfl

theorem mark_of_use?_none {name : String} :
    ∀ {locals : Locals}, locals.use? name = none → locals.mark [name] = locals
  | [], _ => rfl
  | frame :: outer, h => by
      rw [use?] at h
      cases hframe : frame.use? name with
      | some p =>
          rw [hframe] at h
          cases h
      | none =>
          rw [hframe] at h
          rw [mark_cons_of_not_mem (Frame.not_mem_names_of_use?_none hframe),
            mark_of_use?_none (Option.map_eq_none_iff.mp h)]

/-- Referring to a name marks it. -/
theorem eq_mark_of_use?_some {name : String} {b : Local} :
    ∀ {locals locals' : Locals}, locals.use? name = some (b, locals') →
      locals.Tidy →
      locals' = locals.mark [name]
  | [], _, h, _ => nomatch h
  | frame :: outer, locals', h, htidy => by
      rw [use?] at h
      cases hframe : frame.use? name with
      | some p =>
          obtain ⟨found, frame'⟩ := p
          rw [hframe] at h
          obtain ⟨rfl, rfl⟩ := Prod.mk.inj (Option.some.inj h)
          obtain ⟨hmem, rfl⟩ := Frame.eq_mark_of_use?_some hframe htidy.head
          simp [mark, hmem]
      | none =>
          rw [hframe] at h
          obtain ⟨⟨found, outer'⟩, houter, heq⟩ := Option.map_eq_some_iff.mp h
          obtain ⟨rfl, rfl⟩ := Prod.mk.inj heq
          rw [mark_cons_of_not_mem (Frame.not_mem_names_of_use?_none hframe),
            eq_mark_of_use?_some houter htidy.tail]

end Locals

namespace Walk

/-! ## What a walk marks -/

section

variable {w : Walk}

theorem locals_useLocal? (h : w.locals.Tidy) (name : String) :
    ((w.useLocal? name).map fun p => p.2.locals).getD w.locals
      = w.locals.mark (if isDotted name then none else some name).toList := by
  unfold useLocal?
  cases isDotted name with
  | true => exact (Locals.mark_nil w.locals).symm
  | false =>
      cases huse : w.locals.use? name with
      | none => exact (Locals.mark_of_use?_none huse).symm
      | some p => exact Locals.eq_mark_of_use?_some huse h

theorem path_locals (around : Surroundings) (h : w.locals.Tidy) (name : String)
    (span : Span) :
    (w.path around name span).locals
      = w.locals.mark (Use.path name span).localName?.toList := by
  rw [Use.localName?, ← locals_useLocal? h, path]
  cases w.useLocal? name with
  | some p => rfl
  | none => cases around.view.resolve? name <;> rfl

theorem callee_locals (around : Surroundings) (h : w.locals.Tidy)
    (name : String) (span callSpan : Span) (found : Nat) :
    (w.callee around name span callSpan found).locals
      = w.locals.mark
        (Use.callee name span callSpan found).localName?.toList := by
  rw [Use.localName?, ← locals_useLocal? h, callee]
  cases w.useLocal? name with
  | some p => rfl
  | none =>
      cases around.view.resolve? name with
      | none => rfl
      | some d =>
          simp only [Option.map_none, Option.getD_none]
          split
          · rfl
          · split <;> rfl

theorem assign_locals (around : Surroundings) (h : w.locals.Tidy)
    (name : String) (span : Span) :
    (w.assign around name span).locals
      = w.locals.mark (Use.target name span).localName?.toList := by
  unfold assign
  cases huse : w.locals.use? name with
  | none => exact (Locals.mark_of_use?_none huse).symm
  | some p =>
      have hmark := Locals.eq_mark_of_use?_some huse h
      cases hmutable : p.1.isMutable
        <;> simpa [hmutable, report, Use.localName?] using hmark

end

mutual

/-- An expression marks the names it refers to. -/
theorem expr_locals (around : Surroundings) :
    ∀ (e : Expr) (w : Walk), w.locals.Tidy →
    (expr around e w).locals = w.locals.mark (e.uses.filterMap Use.localName?)
  | .literal .., w, _ => (Locals.mark_nil w.locals).symm
  | .path span name, w, h => path_locals around h name span
  | .binary _ _ left right, w, h => by
      have hleft := expr_locals around left w h
      have hright := expr_locals around right _ (hleft ▸ h.mark _)
      rw [Expr.uses, List.filterMap_append, ← Locals.mark_append, ← hleft]
      exact hright
  | .unary _ _ operand, w, h => expr_locals around operand w h
  | .call span callee args, w, h => by
      have hargs := exprs_locals around args w h
      have htidy : (exprs around args w).locals.Tidy := hargs ▸ h.mark _
      have hcallee := expr_locals around callee _ htidy
      rw [Expr.uses.eq_def, List.filterMap_append,
        ← Locals.mark_append, ← hargs]
      cases callee with
      | path calleeSpan name =>
          exact callee_locals around htidy name calleeSpan span args.length
      | literal | binary | unary | call | index | tuple | array => exact hcallee
  | .index _ target subscript, w, h => by
      have htarget := expr_locals around target w h
      have hsubscript := expr_locals around subscript _ (htarget ▸ h.mark _)
      rw [Expr.uses, List.filterMap_append, ← Locals.mark_append, ← htarget]
      exact hsubscript
  | .tuple _ items, w, h => exprs_locals around items w h
  | .array _ items, w, h => exprs_locals around items w h

theorem exprs_locals (around : Surroundings) :
    ∀ (es : List Expr) (w : Walk), w.locals.Tidy →
    (exprs around es w).locals
      = w.locals.mark ((Expr.usesAll es).filterMap Use.localName?)
  | [], w, _ => (Locals.mark_nil w.locals).symm
  | e :: es, w, h => by
      have hfirst := expr_locals around e w h
      have hrest := exprs_locals around es _ (hfirst ▸ h.mark _)
      rw [Expr.usesAll, List.filterMap_append, ← Locals.mark_append, ← hfirst]
      exact hrest

end

theorem tidy_expr (around : Surroundings) (e : Expr) {w : Walk}
    (h : w.locals.Tidy) :
    (expr around e w).locals.Tidy := by
  rw [expr_locals around e w h]
  exact h.mark _

theorem leaveReporting_locals (around : Surroundings) (w : Walk) :
    (w.leaveReporting around).locals = w.locals.tail := by
  unfold leaveReporting
  split
  · next h => rw [h, List.tail_nil]
  · next frame outer h =>
      rw [h]
      exact (reportUnused_effect frame.unused _).1

/-- Outside the innermost frame, statements mark the names that are free in
them and that the innermost frame does not bind. -/
def Marks (around : Surroundings) (ss : List Stmt) : Prop :=
  ∀ (w : Walk) (frame : Frame) (outer : Locals), w.locals = frame :: outer →
    w.locals.Tidy → ∃ frame', (stmts around ss w).locals
      = frame' :: outer.mark ((Stmt.freeAll ss).filter fun n => n ∉ frame.names)

/-- A block marks the names that are free in it. -/
theorem Marks.block {around : Surroundings} {body : List Stmt}
    (hbody : Marks around body) {w : Walk} (h : w.locals.Tidy) :
    (block around body w).locals = w.locals.mark (Stmt.freeAll body) := by
  obtain ⟨frame, hframe⟩ := hbody w.enter [] w.locals rfl h.enter
  have hall : (Stmt.freeAll body).filter (fun n => n ∉ Frame.names [])
      = Stmt.freeAll body :=
    List.filter_eq_self.mpr fun n _ => decide_eq_true List.not_mem_nil
  rw [Walk.block, leaveReporting_locals, hframe, hall, List.tail_cons]

mutual

/-- A statement marks the names that are free in it, and binds what it says. -/
theorem stmt_locals (around : Surroundings) :
    ∀ (s : Stmt) (w : Walk), w.locals.Tidy →
    (stmt around s w).locals = (w.locals.mark s.free).bindAll s.binds
  | .expr _ value, w, h => by
      rw [Stmt.free, Stmt.uses, outward_map]
      exact (expr_locals around value w h).trans (Locals.bindAll_nil _).symm
  | .bind span name isMutable value, w, h => by
      rw [Stmt.free, Stmt.uses, outward_map, ← expr_locals around value w h]
      rfl
  | .assign span name value, w, h => by
      have hvalue := expr_locals around value w h
      have htarget := assign_locals around (tidy_expr around value h) name span
      rw [Stmt.free, Stmt.uses, outward_map, List.filterMap_append,
        ← Locals.mark_append, ← hvalue]
      exact htarget.trans (Locals.bindAll_nil _).symm
  | .ret _ none, w, _ =>
      (Locals.mark_nil w.locals).symm.trans (Locals.bindAll_nil _).symm
  | .ret _ (some value), w, h => by
      rw [Stmt.free, Stmt.uses, outward_map]
      exact (expr_locals around value w h).trans (Locals.bindAll_nil _).symm
  | .ifThen _ test body, w, h => by
      have htest := expr_locals around test w h
      have hbody := (stmts_locals around body).block (tidy_expr around test h)
      rw [Stmt.free, Stmt.uses, outward_append, outward_map,
        ← Locals.mark_append, ← htest]
      exact hbody.trans (Locals.bindAll_nil _).symm
  | .ifElse _ test body other, w, h => by
      have htest := expr_locals around test w h
      have htidy := tidy_expr around test h
      have hbody := (stmts_locals around body).block htidy
      have hother := (stmts_locals around other).block
        (hbody ▸ htidy.mark _ : Locals.Tidy _)
      rw [Stmt.free, Stmt.uses, outward_append, outward_append, outward_map,
        ← Locals.mark_append, ← Locals.mark_append, ← htest]
      exact (hother.trans (congrArg (Locals.mark _) hbody)).trans
        (Locals.bindAll_nil _).symm
  | .loop span name items body, w, h => by
      have hitems := expr_locals around items w h
      have htidy := tidy_expr around items h
      -- the frame of the loop variable catches its name
      have hbody := (stmts_locals around body).block
        (w := (expr around items w).enter.define name ⟨false, span,
          false, false⟩)
        (htidy.enter.define name _)
      have hnames : (Stmt.freeAll body).filter (fun n => n ∉ [name])
          = (Stmt.freeAll body).filter fun n =>
              (Scope.binding? [⟨name, false, span⟩] n).isNone := by
        refine List.filter_congr fun n _ => Bool.eq_iff_iff.mpr ?_
        simp [Scope.isNone_binding?_singleton]
      rw [Stmt.free, Stmt.uses, outward_append, outward_map,
        Stmt.outward_usesAll, ← hnames, ← Locals.mark_append, ← hitems]
      exact (congrArg List.tail hbody).trans (Locals.bindAll_nil _).symm

theorem stmts_locals (around : Surroundings) : ∀ ss : List Stmt, Marks around ss
  | [], w, frame, outer, hw, _ =>
      ⟨frame, hw.trans (congrArg (frame :: ·) (Locals.mark_nil outer).symm)⟩
  | s :: ss, w, frame, outer, hw, h => by
      have hstmt := stmt_locals around s w h
      have htidy : (stmt around s w).locals.Tidy := hstmt ▸ (h.mark _).bindAll _
      rw [hw] at hstmt h
      obtain ⟨frame', hframe⟩ := stmts_locals around ss _ _ _ hstmt htidy
      refine ⟨frame', hframe.trans ?_⟩
      have hnames : (Stmt.freeAll ss).filter
            (fun n => n ∉ ((frame.mark s.free).bindAll s.binds).names)
          = ((Stmt.freeAll ss).filter fun n =>
            (s.binds.binding? n).isNone).filter
              fun n => n ∉ frame.names := by
        rw [List.filter_filter]
        refine List.filter_congr fun n _ => ?_
        rw [Bool.eq_iff_iff, Bool.and_eq_true, decide_eq_true_iff,
          decide_eq_true_iff,
          Frame.mem_names_bindAll _ (by rw [Frame.names_mark]; exact h.head),
          Frame.names_mark, not_or, Bool.not_eq_true,
          Option.isSome_eq_false_iff, and_comm]
      rw [Locals.mark_append, hnames, ← List.filter_append, ← Stmt.freeAll_cons]

end

end Walk

end Exemplar
