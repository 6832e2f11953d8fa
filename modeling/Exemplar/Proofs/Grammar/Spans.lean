import Exemplar.Proofs.Grammar.Termination
import Exemplar.Proofs.Tree.Spans

/-!
# Trees stand where they were read

Every span in what is read from a text lies inside the text, and so does every
fault (`inside_parse`), however many faults there are. What was read stands for
tokens of the text, so its spans nest between their ends, and all spans of what
nests lie between the same ends (`Layout.Row.inside`). A fault is the span of a
token.
-/

namespace Exemplar

open Reading

/-! ## Layouts -/

namespace Layout

mutual

def spans : Layout → List Span
  | node s parts => s :: spansAll parts
termination_by structural l => l

def spansAll : List Layout → List Span
  | [] => []
  | l :: ls => l.spans ++ spansAll ls
termination_by structural ls => ls

end

mutual

theorem Nests.inside :
    ∀ {l : Layout}, l.Nests → Inside l.span.start l.span.stop l.spans
  | node _ _, h =>
      inside_cons.mpr ⟨⟨Nat.le_refl _, Row.le h, Nat.le_refl _⟩, Row.inside h⟩

theorem Row.inside : ∀ {ls : List Layout} {low high : Nat}, Row low high ls →
    Inside low high (spansAll ls)
  | [], _, _, _ => inside_nil
  | _ :: _, _, _, ⟨hlow, hnests, hrest⟩ => inside_append.mpr
      ⟨(hnests.inside.mono hlow).mono_high hrest.le,
        hrest.inside.mono (Nat.le_trans hlow hnests.le)⟩

end

theorem spansAll_append (ls ls' : List Layout) :
    spansAll (ls ++ ls') = spansAll ls ++ spansAll ls' := by
  induction ls with
  | nil => rfl
  | cons l ls ih =>
      rw [List.cons_append, spansAll, spansAll, ih, List.append_assoc]

theorem spansAll_leaves {α : Type} (f : α → Span) (as : List α) :
    spansAll (as.map fun a => leaf (f a)) = as.map f := by
  induction as with
  | nil => rfl
  | cons a as ih => rw [List.map_cons, spansAll, ih]; rfl

end Layout

open Layout

/-! ## Spans of layouts and of trees -/

mutual

theorem Expr.spans_layout : ∀ e : Expr, e.layout.spans = e.spans
  | .literal .. | .path .. => rfl
  | .binary s _ left right | .index s left right => by
      simp [layout, spans, Layout.spans, Layout.spansAll, left.spans_layout,
        right.spans_layout]
  | .unary s _ operand => by
      simp [layout, spans, Layout.spans, Layout.spansAll, operand.spans_layout]
  | .call s callee args => by
      simp [layout, spans, Layout.spans, Layout.spansAll, callee.spans_layout,
        Expr.spans_layouts args]
  | .tuple s items | .array s items => by
      simp [layout, spans, Layout.spans, Expr.spans_layouts items]

theorem Expr.spans_layouts :
    ∀ es : List Expr, Layout.spansAll (Expr.layouts es) = Expr.spansAll es
  | [] => rfl
  | e :: es => by
      rw [layouts, Layout.spansAll, e.spans_layout, Expr.spans_layouts es,
        Expr.spansAll]

end

mutual

theorem Stmt.spans_layout : ∀ s : Stmt, s.layout.spans = s.spans
  | .expr _ value | .bind _ _ _ value | .assign _ _ value
        | .ret _ (some value) => by
      simp [layout, spans, Layout.spans, Layout.spansAll, value.spans_layout]
  | .ret _ none => rfl
  | .ifThen _ test body | .loop _ _ test body => by
      simp [layout, spans, Layout.spans, Layout.spansAll, test.spans_layout,
        Stmt.spans_layouts body]
  | .ifElse _ test body other => by
      simp [layout, spans, Layout.spans, Layout.spansAll, spansAll_append,
        test.spans_layout, Stmt.spans_layouts body, Stmt.spans_layouts other]

theorem Stmt.spans_layouts :
    ∀ ss : List Stmt, Layout.spansAll (Stmt.layouts ss) = Stmt.spansAll ss
  | [] => rfl
  | s :: ss => by
      rw [layouts, Layout.spansAll, s.spans_layout, Stmt.spans_layouts ss,
        Stmt.spansAll]

end

theorem spans_bodyLayouts (body : Option (List Stmt)) :
    spansAll (bodyLayouts body) = bodySpans body := by
  cases body with
  | none => rfl
  | some ss => exact Stmt.spans_layouts ss

variable {low high : Nat}

/-- The spans of a declaration are those of its layout and of its attributes. -/
theorem Declaration.inside_spans {d : Declaration}
    (h : Inside low high (spansAll (Item.decl d).layouts)) :
    Inside low high d.spans := by
  obtain ⟨name, doc, origin, s, detail⟩ := d
  cases detail <;>
    simpa [Item.layouts, Declaration.layout, Detail.layouts, Declaration.spans,
      Detail.spans, Callable.spans, Declaration.attributes, spansAll_append,
      spansAll_leaves, spans_bodyLayouts, Layout.spans, spansAll, and_assoc,
      and_left_comm, and_comm] using h

/-- Where the layouts of items nest, the spans of their block are. -/
theorem Block.HasItems.inside_spans {b : Block} {is : List Item}
    (hb : b.HasItems is) (h : ∀ i ∈ is, Inside low high (spansAll i.layouts)) :
    Inside low high b.spans := by
  refine inside_append.mpr ⟨fun s hs => ?_, fun s hs => ?_⟩
  · rw [hb.opens, List.mem_map] at hs
    obtain ⟨o, ho, rfl⟩ := hs
    obtain ⟨i, hi, ho⟩ := List.mem_filterMap.mp ho
    cases i with
    | decl d => cases ho
    | opening o' =>
        obtain rfl := Option.some.inj ho
        exact h _ hi _ (List.mem_cons_self ..)
  · rw [hb.decls, List.mem_flatMap] at hs
    obtain ⟨d, hd, hs⟩ := hs
    obtain ⟨i, hi, hd⟩ := List.mem_filterMap.mp hd
    cases i with
    | opening o => cases hd
    | decl d' =>
        obtain rfl := Option.some.inj hd
        exact Declaration.inside_spans (h _ hi) s hs

/-! ## The headline -/

/-- A fault is the span of a token. -/
theorem FoundUpTo.exists_token {all : List Token} {n : Nat}
    {faults : List Fault} (h : FoundUpTo all n faults) {f : Fault}
    (hf : f ∈ faults) : ∃ t ∈ all, f.span = t.span := by
  obtain ⟨places, -, -, hfound⟩ := h
  induction hfound with
  | nil => cases hf
  | cons hhead _ ih =>
      rcases List.mem_cons.mp hf with rfl | hf
      · obtain ⟨t, ht, hspan⟩ := Option.map_eq_some_iff.mp hhead.1
        exact ⟨t, List.mem_of_getElem? ht, hspan.symm⟩
      · exact ih hf

theorem ended_ofText (text : String) :
    ended (Scan.ofText text).tokens = (Scan.ofText text).tokens := by
  simp [ended, Scan.ofText]

/-- What is read from a text stands inside it, and so do its faults. -/
theorem inside_parse (text : String) (origin : Origin) :
    (∀ b ∈ (parseText text origin).blocks, Inside 0 text.utf8ByteSize b.spans)
      ∧ ∀ f ∈ (parseText text origin).faults,
        f.span.Between 0 text.utf8ByteSize := by
  have hordered := Scan.ordered_ofText text
  constructor
  · intro b hb
    obtain ⟨is, us, hhas, hus, his⟩ := exists_items (p := .any) nofun trivial hb
    refine hhas.inside_spans fun i hi => ?_
    obtain ⟨vs, hvs, htokens⟩ := his.exists_of_mem hi
    rw [Scan.tokens_ofText] at hordered
    obtain ⟨mid, hahead, hlast⟩ := hordered.split
    exact (htokens.fills (hahead.of_infix (hvs.trans hus))).inside.mono_high
      hlast.le
  · intro f hf
    have hfound := Parsed.found_ofTokens (Scan.ofText text).tokens origin
    rw [ended_ofText] at hfound
    obtain ⟨t, ht, hspan⟩ := hfound.exists_token hf
    exact hspan ▸ hordered.between t ht

end Exemplar
