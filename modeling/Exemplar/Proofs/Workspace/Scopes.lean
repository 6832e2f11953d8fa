import Mathlib.Data.List.Forall2
import Exemplar.Proofs.Grammar.Starts
import Exemplar.Proofs.Workspace.Warnings

/-!
# The order of a frame does not matter

A frame stands for a table of bindings by name, and a table may be gone
through in any order. What is reported at the end of a block is sorted by
where the bindings start, so the order shows only where two unused bindings
start at the same place. In a body that was read from a text none do:
`checkBody_orderless`.

The frames that are left while a body is checked are listed as the walk goes
(`Walk.pops`), those of loop variables among them, which are left without a
word. `Walk.warnings_pops` ties the list to the checker: the warnings about a
body are the reports of these frames, one frame after the other.

A frame binds the statements of one block, and statements start one behind the
other there (`Stmt.RiseFrom`). The invariant is that the bindings of a frame
start at different places, all of them before the next statement
(`Frame.SpreadTo`). To refer to a binding does not move it, and to bind a name
adds a binding that starts behind the others, in the place of the one the name
had.
-/

namespace Exemplar

/-! ## Frames in any order -/

namespace Frame

/-- What the end of a block says about the frame that is left. -/
def reports (around : Surroundings) (frame : Frame) : List Finding :=
  frame.unused.map fun (name, span) => ⟨.unused name, span, around.origin⟩

/-- The frame is a table, the order it is gone through leaves no trace in what
is unused, and the unused bindings start one behind the other. -/
structure Orderless (frame : Frame) : Prop where
  names : frame.names.Nodup
  unused : ∀ order : Frame, order.Perm frame → order.unused = frame.unused
  starts : frame.unused.Pairwise fun a b => a.2.start < b.2.start

/-- The frame is a table, and its bindings start at different places. -/
structure Spread (frame : Frame) : Prop where
  names : frame.names.Nodup
  starts : (frame.map fun e => e.2.span.start).Nodup

variable {frame frame' : Frame}

/-- What is unused, before it is sorted. -/
theorem perm_unused (frame : Frame) :
    frame.unused.Perm ((frame.filter fun (name, b) =>
      b.reported && !b.used && !isExempt name).map fun (name, b) =>
        (name, b.span)) :=
  List.mergeSort_perm ..

theorem unused_perm_unused (h : frame.Perm frame') :
    frame.unused.Perm frame'.unused :=
  frame.perm_unused.trans (((h.filter _).map _).trans frame'.perm_unused.symm)

theorem pairwise_unused (frame : Frame) :
    frame.unused.Pairwise fun a b => a.2.start ≤ b.2.start := by
  have hsorted : frame.unused.Pairwise fun a b =>
    decide (a.2.start ≤ b.2.start) = true := by
    refine List.pairwise_mergeSort (fun a b c hab hbc => ?_) (fun a b => ?_) _
    · exact decide_eq_true
        (Nat.le_trans (of_decide_eq_true hab) (of_decide_eq_true hbc))
    · simpa using Nat.le_total a.2.start b.2.start
  exact hsorted.imp of_decide_eq_true

namespace Spread

theorem of_perm (h : frame.Spread) (hperm : frame'.Perm frame) :
    frame'.Spread :=
  ⟨(hperm.map _).nodup_iff.mpr h.names, (hperm.map _).nodup_iff.mpr h.starts⟩

theorem unused_lt (h : frame.Spread) :
    frame.unused.Pairwise fun a b => a.2.start < b.2.start := by
  have hidle : ((frame.filter fun (name, b) =>
      b.reported && !b.used && !isExempt name).map fun (name, b) =>
        (name, b.span)).Pairwise
        fun a b => a.2.start ≠ b.2.start := by
    rw [List.pairwise_map]
    exact (List.pairwise_map.mp h.starts).sublist List.filter_sublist
  have hne : frame.unused.Pairwise fun a b => a.2.start ≠ b.2.start :=
    frame.perm_unused.symm.pairwise hidle Ne.symm
  exact (frame.pairwise_unused.and hne).imp fun hab =>
    Nat.lt_of_le_of_ne hab.1 hab.2

/-- Two sorted lists of the same bindings are equal, as no two of these could
stand in either order. -/
theorem orderless (h : frame.Spread) : frame.Orderless := by
  refine ⟨h.names, fun order horder => ?_, h.unused_lt⟩
  refine List.Perm.eq_of_pairwise (fun a b _ _ hab hba => ?_)
    (h.of_perm horder).unused_lt h.unused_lt (unused_perm_unused horder)
  exact absurd hba (Nat.lt_asymm hab)

end Spread

/-- Frames that are gone through in some order report as they are. -/
theorem flatMap_reports (around : Surroundings) {orders frames : List Frame}
    (horders : List.Forall₂ List.Perm orders frames)
    (h : ∀ frame ∈ frames, frame.Orderless) :
    orders.flatMap (reports around) = frames.flatMap (reports around) := by
  induction horders with
  | nil => rfl
  | @cons order frame orders frames horder _ ih =>
      obtain ⟨hframe, hframes⟩ := List.forall_mem_cons.mp h
      rw [List.flatMap_cons, List.flatMap_cons, ih hframes, reports, reports,
        hframe.unused order horder]

/-! ## Bindings before a place -/

/-- The bindings start at different places, all before `k`. -/
structure SpreadTo (k : Nat) (frame : Frame) : Prop extends frame.Spread where
  before : ∀ e ∈ frame, e.2.span.start < k

namespace SpreadTo

variable {k k' : Nat}

theorem nil : SpreadTo k [] := ⟨⟨List.nodup_nil, List.nodup_nil⟩, nofun⟩

theorem mono (h : frame.SpreadTo k) (hk : k ≤ k') : frame.SpreadTo k' :=
  ⟨h.toSpread, fun e he => Nat.lt_of_lt_of_le (h.before e he) hk⟩

/-- To refer to a binding does not move it. -/
theorem mark (h : frame.SpreadTo k) (ns : List String) :
    (frame.mark ns).SpreadTo k := by
  have hstarts : (frame.mark ns).map (fun e => e.2.span.start)
      = frame.map fun e => e.2.span.start := by
    rw [Frame.mark, List.map_map]
    rfl
  refine ⟨⟨?_, ?_⟩, ?_⟩
  · rw [names_mark]
    exact h.names
  · rw [hstarts]
    exact h.starts
  · intro e he
    obtain ⟨e', he', rfl⟩ := List.mem_map.mp he
    exact h.before e' he'

/-- A name is bound behind what the frame has. -/
theorem define (h : frame.SpreadTo k) (name : String) {b : Local}
    (hb : k ≤ b.span.start) :
    (frame.define name b).SpreadTo (b.span.start + 1) := by
  have hperm := define_perm (n := name) b h.names
  have hkept : ∀ e ∈ frame.filter fun e => e.1 != name,
      e.2.span.start < b.span.start :=
    fun e he => Nat.lt_of_lt_of_le (h.before e (List.mem_filter.mp he).1) hb
  refine ⟨⟨nodup_define h.names, ?_⟩, fun e he => ?_⟩
  · rw [(hperm.map _).nodup_iff, List.map_cons, List.nodup_cons]
    refine ⟨fun hmem => ?_, h.starts.sublist (List.filter_sublist.map _)⟩
    obtain ⟨e, he, heq⟩ := List.mem_map.mp hmem
    exact absurd heq (Nat.ne_of_lt (hkept e he))
  · rcases List.mem_cons.mp (hperm.mem_iff.mp he) with rfl | he
    · exact Nat.lt_succ_self _
    · exact Nat.lt_succ_of_lt (hkept e he)

/-- A statement leaves the bindings before the next one. -/
theorem step (h : frame.SpreadTo k) {s : Stmt} (hs : k ≤ s.span.start) :
    ((frame.mark s.free).bindAll s.binds).SpreadTo (s.span.start + 1) := by
  have hmark := h.mark s.free
  cases s with
  | bind span name isMutable value =>
      exact hmark.define name (b := ⟨isMutable, span, false, true⟩) hs
  | expr | assign | ret | ifThen | ifElse | loop =>
      exact hmark.mono (Nat.le_succ_of_le hs)

end SpreadTo

end Frame

/-! ## The frames that are left -/

namespace Walk

variable (around : Surroundings)

mutual

/-- The frames left inside a statement, one after the other. -/
def stmtPops : Stmt → Walk → List Frame
  | .expr .., _ | .bind .., _ | .assign .., _ | .ret .., _ => []
  | .ifThen _ test body, w => blockPops body (expr around test w).enter
  | .ifElse _ test body other, w =>
    let w := expr around test w
    blockPops body w.enter ++ blockPops other (block around body w).enter
  | .loop span name items body, w =>
    let w := (expr around items w).enter.define name ⟨false, span, false, false⟩
    blockPops body w.enter ++ (block around body w).locals.head?.toList

/-- The frames left from some statements on to the end of their block, the
frame of the block last. -/
def blockPops : List Stmt → Walk → List Frame
  | [], w => w.locals.head?.toList
  | s :: ss, w => stmtPops s w ++ blockPops ss (stmt around s w)

end

/-- The frames left while a body is checked. The frame of the parameters is
not left. -/
def pops (params : List Param) (body : List Stmt) : List Frame :=
  blockPops around body (ofParams params).enter

variable {around : Surroundings}

theorem tidy_stmt (around : Surroundings) (s : Stmt) {w : Walk}
    (h : w.locals.Tidy) :
    (stmt around s w).locals.Tidy :=
  stmt_locals around s w h ▸ (h.mark _).bindAll _

theorem tidy_block (around : Surroundings) (body : List Stmt) {w : Walk}
    (h : w.locals.Tidy) :
    (block around body w).locals.Tidy :=
  (stmts_locals around body).block h ▸ h.mark _

/-- Behind the body of a loop, the innermost frame has the loop variable. -/
theorem head?_block_loop (span : Span) (name : String) (items : Expr)
    (body : List Stmt) {w : Walk} (h : w.locals.Tidy) :
    (block around body
        ((expr around items w).enter.define name ⟨false, span, false,
          false⟩)).locals.head?.toList
      = [Frame.mark (Stmt.freeAll body)
        [(name, ⟨false, span, false, false⟩)]] := by
  have htidy := (tidy_expr around items h).enter.define name
    ⟨false, span, false, false⟩
  rw [(stmts_locals around body).block
    (w := (expr around items w).enter.define name ⟨false, span, false, false⟩)
    htidy]
  rfl

/-! ### What they report -/

theorem reports_loop (around : Surroundings) (span : Span) (name : String)
    (ns : List String) :
    Frame.reports around (Frame.mark ns [(name, ⟨false, span, false, false⟩)])
      = [] := by
  simp [Frame.reports, Frame.unused, Frame.mark]

theorem warnings_leaveReporting (w : Walk) :
    warningsOf (w.leaveReporting around).findings
      = warningsOf w.findings ++ w.locals.head?.toList.flatMap
        (Frame.reports around) := by
  cases hw : w.locals with
  | nil =>
      rw [leaveReporting, hw]
      exact (List.append_nil _).symm
  | cons frame outer =>
      rw [leaveReporting_warnings around hw]
      exact congrArg _ (List.append_nil _).symm

mutual

/-- A statement adds the reports of the frames left inside it. -/
theorem warnings_stmtPops : ∀ (s : Stmt) (w : Walk), w.locals.Tidy →
    warningsOf (stmt around s w).findings
      = warningsOf w.findings ++ (stmtPops around s w).flatMap
        (Frame.reports around)
  | .expr _ value, w, _ | .bind _ _ _ value, w, _ | .ret _ (some value), w, _ =>
      (expr_warnings around value w).trans (List.append_nil _).symm
  | .assign span name value, w, _ =>
      ((assign_warnings around name span _).trans
        (expr_warnings around value w)).trans (List.append_nil _).symm
  | .ret _ none, w, _ => (List.append_nil _).symm
  | .ifThen _ test body, w, h => by
      have htest := tidy_expr around test h
      have hbody :=
        warnings_blockPops body (expr around test w).enter htest.enter
      rw [← expr_warnings around test w]
      exact hbody
  | .ifElse _ test body other, w, h => by
      have htest := tidy_expr around test h
      have hbody :=
        warnings_blockPops body (expr around test w).enter htest.enter
      have hother := warnings_blockPops other
        (block around body (expr around test w)).enter
          (tidy_block around body htest).enter
      rw [stmtPops, List.flatMap_append, ← List.append_assoc,
        ← expr_warnings around test w]
      exact hother.trans (congrArg (· ++ _) hbody)
  | .loop span name items body, w, h => by
      have hbody := warnings_blockPops body
        ((expr around items w).enter.define name ⟨false, span, false,
          false⟩).enter
        ((tidy_expr around items h).enter.define name _).enter
      -- the frame of the loop variable is left without a word, for it has none
      rw [stmtPops, List.flatMap_append,
        head?_block_loop span name items body h, List.flatMap_singleton,
        reports_loop, List.append_nil, ← expr_warnings around items w]
      exact hbody

/-- From some statements on, the end of their block included. -/
theorem warnings_blockPops : ∀ (ss : List Stmt) (w : Walk), w.locals.Tidy →
    warningsOf ((stmts around ss w).leaveReporting around).findings
      = warningsOf w.findings ++ (blockPops around ss w).flatMap
        (Frame.reports around)
  | [], w, _ => warnings_leaveReporting w
  | s :: ss, w, h => by
      have hstmt := warnings_stmtPops s w h
      have hrest :=
        warnings_blockPops ss (stmt around s w) (tidy_stmt around s h)
      rw [blockPops, List.flatMap_append, ← List.append_assoc, ← hstmt]
      exact hrest

end

/-- The warnings about a body are the reports of the frames that are left. -/
theorem warnings_pops (around : Surroundings) (params : List Param)
    (body : List Stmt) :
    warningsOf (checkBody around params body)
      = (pops around params body).flatMap (Frame.reports around) := by
  obtain ⟨htidy, hfindings⟩ := tidy_ofParams params
  refine (warnings_blockPops body (ofParams params).enter htidy.enter).trans ?_
  exact congrArg (warningsOf · ++ _) hfindings

/-! ### Where they bind -/

/-- From some statements on, the frames left bind at different places, if the
innermost frame binds before these statements. -/
def Spreads (around : Surroundings) (ss : List Stmt) : Prop :=
  ∀ (low : Nat) (w : Walk) (frame : Frame) (outer : Locals),
    w.locals = frame :: outer → w.locals.Tidy → frame.SpreadTo low →
    Stmt.RiseFrom low ss →
      ∀ left ∈ blockPops around ss w, left.Spread

theorem Spreads.block {body : List Stmt} (hbody : Spreads around body)
    {w : Walk} (h : w.locals.Tidy) (hrise : Stmt.RiseFrom 0 body) :
    ∀ frame ∈ blockPops around body w.enter, frame.Spread :=
  hbody 0 w.enter [] w.locals rfl h.enter .nil hrise

mutual

theorem spread_stmtPops : ∀ (s : Stmt) (w : Walk), w.locals.Tidy → s.Rises →
    ∀ frame ∈ stmtPops around s w, frame.Spread
  | .expr .., _, _, _ | .bind .., _, _, _ | .assign .., _, _, _
  | .ret .., _, _, _ => nofun
  | .ifThen _ test body, w, h, hs =>
      (spreads body).block (tidy_expr around test h) hs
  | .ifElse _ test body other, w, h, hs => by
      have htest := tidy_expr around test h
      have hbody := (spreads body).block htest hs.1
      have hother := (spreads other).block (tidy_block around body htest) hs.2
      exact List.forall_mem_append.mpr ⟨hbody, hother⟩
  | .loop span name items body, w, h, hs => by
      have hbody := (spreads body).block
        (w := (expr around items w).enter.define name ⟨false, span,
          false, false⟩)
        ((tidy_expr around items h).enter.define name _) hs
      have hvariable : Frame.Spread (Frame.mark (Stmt.freeAll body)
          [(name, ⟨false, span, false, false⟩)]) :=
        ⟨List.nodup_singleton _, List.nodup_singleton _⟩
      rw [stmtPops, head?_block_loop span name items body h]
      exact List.forall_mem_append.mpr ⟨hbody,
        List.forall_mem_singleton.mpr hvariable⟩

/-- Statements, by where the frame binds before each of them. -/
theorem spreads : ∀ ss : List Stmt, Spreads around ss
  | [], low, w, frame, outer, hw, _, hframe, _ => by
      rw [blockPops, hw]
      exact List.forall_mem_singleton.mpr hframe.toSpread
  | s :: ss, low, w, frame, outer, hw, h, hframe, hss => by
      obtain ⟨hlow, hs, hrest⟩ := hss
      have hlocals := stmt_locals around s w h
      rw [hw] at hlocals
      have hinner := spread_stmtPops s w h hs
      have hbehind :=
        spreads ss (s.span.start + 1) (stmt around s w) _ _ hlocals
          (tidy_stmt around s h) (hframe.step hlow) hrest
      exact List.forall_mem_append.mpr ⟨hinner, hbehind⟩

end

theorem spread_pops {body : List Stmt} (hbody : Stmt.RiseFrom 0 body)
    (around : Surroundings) (params : List Param) :
    ∀ frame ∈ pops around params body, frame.Spread :=
  (spreads body).block (tidy_ofParams params).1 hbody

end Walk

/-! ## Bodies of texts -/

theorem Declaration.Rises.body {d : Declaration} (h : d.Rises)
    {body : List Stmt} (hbody : d.body? = some body) :
    Stmt.RiseFrom 0 body := by
  unfold Declaration.Rises at h
  unfold Declaration.body? at hbody
  cases hd : d.detail with
  | newtype =>
      rw [hd] at hbody
      cases hbody
  | callable c =>
      rw [hd] at h hbody
      exact h body hbody
  | specialization variant ss =>
      rw [hd] at h hbody
      exact h body hbody

/-- **Warnings do not depend on the order of tables.** Whenever the checker
leaves a frame of a body that was read from a text, the unused bindings are
the same for every order of the frame, and start one behind the other. So the
warnings about the body are the same for every choice of these orders. -/
theorem checkBody_orderless {text : String} {origin : Origin} {b : Block}
    {d : Declaration} {body : List Stmt}
    (hb : b ∈ (parseText text origin).blocks) (hd : d ∈ b.decls)
    (hbody : d.body? = some body) (around : Surroundings)
    (params : List Param) :
    (∀ frame ∈ Walk.pops around params body, frame.Orderless)
      ∧ ∀ orders : List Frame,
          List.Forall₂ List.Perm orders (Walk.pops around params body) →
            Walk.warningsOf (checkBody around params body)
              = orders.flatMap (Frame.reports around) := by
  have hrises := (rises_of_mem_decls hb hd).body hbody
  have horderless : ∀ frame ∈ Walk.pops around params body, frame.Orderless :=
    fun frame hframe =>
      (Walk.spread_pops hrises around params frame hframe).orderless
  refine ⟨horderless, fun orders horders => ?_⟩
  rw [Walk.warnings_pops, Frame.flatMap_reports around horders horderless]

/-- Two blocks leave one binding unused, one a loop variable, and one two. -/
def crowded : SourceUnit :=
  ⟨.primary "main.vl", "namespace A\x7bfunction F():Unit\x7blet b=1;" ++
    "if b==1\x7blet d=2;\x7dfor i in [b]\x7blet z=4;\x7dlet a=5;mutable n=6;\x7d\x7d"⟩

/-- Every name of the body is bound in the body. -/
def crowded.around : Surroundings := ⟨⟨⟨[], []⟩, "A", []⟩, crowded.origin⟩

/-- The frames of that body, gone through backwards, report the same. -/
theorem checkBody_orderless_crowded :
    ∃ b ∈ crowded.parse.blocks, ∃ d ∈ b.decls, ∃ body ∈ d.body?,
      (Walk.pops crowded.around [] body).map Frame.names
          = [["d"], ["z"], ["i"], ["b", "a", "n"]]
        ∧ Walk.warningsOf (checkBody crowded.around [] body)
          = ((Walk.pops crowded.around [] body).map List.reverse).flatMap
              (Frame.reports crowded.around) := by
  obtain ⟨b, hb, d, hd, body, hbody, hnames⟩ : ∃ b ∈ crowded.parse.blocks,
    ∃ d ∈ b.decls,
      ∃ body ∈ d.body?, (Walk.pops crowded.around [] body).map Frame.names
        = [["d"], ["z"], ["i"], ["b", "a", "n"]] := by decide +kernel
  refine ⟨b, hb, d, hd, body, hbody, hnames, ?_⟩
  refine (checkBody_orderless hb hd hbody crowded.around []).2 _ ?_
  rw [List.forall₂_map_left_iff]
  exact List.forall₂_same.mpr fun frame _ => List.reverse_perm frame

end Exemplar
