import Exemplar.Proofs.Token.Spans
import Exemplar.Tree.Declaration

/-!
# Spans that nest

The spans of a syntax tree form a tree of their own, its `Layout`: each
expression, statement and declaration is a node, and its operands, parameters
and statements are its parts, from left to right. A layout *nests* if its parts
stand one behind the other inside its span and nest themselves
(`Layout.Nests`).

That they do follows from where their tokens are. A stretch of tokens is filled
by layouts if these stand one behind the other, and nest, wherever the tokens
are in order (`Fills`). Stretches are put together end to end, with tokens in
between that belong to none of the parts, and a node that encloses its stretch
nests if its parts fill it.
-/

namespace Exemplar

/-- The spans of a tree. -/
inductive Layout where
  | node (span : Span) (parts : List Layout)
deriving Repr

namespace Layout

def leaf (s : Span) : Layout := node s []

def span : Layout → Span
  | node s _ => s

def parts : Layout → List Layout
  | node _ parts => parts

mutual

/-- The parts stand one behind the other inside the span, and each nests. -/
def Nests : Layout → Prop
  | node s parts => Row s.start s.stop parts
termination_by structural l => l

/-- The layouts stand one behind the other between two offsets, and each
nests. -/
def Row : Nat → Nat → List Layout → Prop
  | low, high, [] => low ≤ high
  | low, high, l :: rest =>
      low ≤ l.span.start ∧ l.Nests ∧ Row l.span.stop high rest
termination_by structural _ _ ls => ls

end

variable {low high mid : Nat} {ls ls' : List Layout}

theorem Row.mono_low {low' : Nat} (h : Row low high ls) (hlow : low' ≤ low) :
    Row low' high ls := by
  cases ls with
  | nil => exact Nat.le_trans hlow h
  | cons l ls => exact ⟨Nat.le_trans hlow h.1, h.2⟩

theorem Row.mono_high {high' : Nat} (h : Row low high ls)
    (hhigh : high ≤ high') :
    Row low high' ls := by
  induction ls generalizing low with
  | nil => exact Nat.le_trans h hhigh
  | cons l ls ih => exact ⟨h.1, h.2.1, ih h.2.2⟩

theorem Row.append (hl : Row low mid ls) (hr : Row mid high ls') :
    Row low high (ls ++ ls') := by
  induction ls generalizing low with
  | nil => exact hr.mono_low hl
  | cons l ls ih => exact ⟨hl.1, hl.2.1, ih hl.2.2⟩

mutual

theorem Nests.le : ∀ {l : Layout}, l.Nests → l.span.start ≤ l.span.stop
  | node _ _, h => Row.le h

theorem Row.le : ∀ {ls : List Layout} {low high : Nat}, Row low high ls →
    low ≤ high
  | [], _, _, h => h
  | _ :: _, _, _, ⟨hlow, hnests, hrest⟩ =>
      Nat.le_trans hlow (Nat.le_trans hnests.le hrest.le)

end

theorem Row.le_start (h : Row low high ls) : ∀ l ∈ ls, low ≤ l.span.start := by
  induction ls generalizing low with
  | nil => nofun
  | cons l ls ih =>
      obtain ⟨hlow, hnests, hrest⟩ := h
      refine List.forall_mem_cons.mpr ⟨hlow, fun l' hl' => ?_⟩
      exact Nat.le_trans hlow (Nat.le_trans hnests.le (ih hrest l' hl'))

/-- In a row each stops before any of the following starts. -/
theorem Row.pairwise (h : Row low high ls) :
    ls.Pairwise fun l l' => l.span.stop ≤ l'.span.start := by
  induction ls generalizing low with
  | nil => exact .nil
  | cons l ls ih => exact .cons h.2.2.le_start (ih h.2.2)

end Layout

/-! ## Stretches of tokens -/

/-- There are tokens, and the first of them starts at the offset. -/
def OpensAt (offset : Nat) (ts : List Token) : Prop :=
  ts.head?.map (fun t => t.span.start) = some offset

/-- There are tokens, and the last of them stops at the offset. -/
def ClosesAt (offset : Nat) (ts : List Token) : Prop :=
  ts.getLast?.map (fun t => t.span.stop) = some offset

/-- Whatever stands behind the first token. -/
theorem OpensAt.cons {offset : Nat} {t : Token} {ts : List Token}
    (h : t.span.start = offset) :
    OpensAt offset (t :: ts) := congrArg some h

theorem OpensAt.append {offset : Nat} {ts : List Token} (h : OpensAt offset ts)
    (us : List Token) : OpensAt offset (ts ++ us) := by
  cases ts with
  | nil => cases h
  | cons t ts => exact h

theorem ClosesAt.append {offset : Nat} {us : List Token}
    (h : ClosesAt offset us) (ts : List Token) :
    ClosesAt offset (ts ++ us) := by
  unfold ClosesAt at h ⊢
  rw [List.getLast?_append]
  cases hlast : us.getLast? with
  | none =>
      rw [hlast] at h
      cases h
  | some t => rwa [hlast] at h

/-- The span runs from where the first of the tokens starts to where the last
one stops. -/
structure Span.Encloses (s : Span) (ts : List Token) : Prop where
  start : OpensAt s.start ts
  stop : ClosesAt s.stop ts

theorem Span.Encloses.ne_nil {s : Span} {ts : List Token} (h : s.Encloses ts) :
    ts ≠ [] := by
  rintro rfl
  cases h.start

/-- What is enclosed starts where its first token does. -/
theorem Span.Encloses.opensAt {s : Span} {ts : List Token} {offset : Nat}
    (h : s.Encloses ts) (hhead : ∀ t ∈ ts.head?, t.span.start = offset) :
    OpensAt offset ts := by
  cases ts with
  | nil => cases h.start
  | cons t ts => exact .cons (hhead t rfl)

/-- What stands in order comes in two parts if it is split. -/
theorem Ordered.split {high : Nat} : ∀ {ts us : List Token} {low : Nat},
    Ordered high low (ts ++ us) → ∃ mid, Ordered mid low ts
      ∧ Ordered high mid us
  | [], _, low, h => ⟨low, Nat.le_refl low, h⟩
  | t :: ts, us, low, ⟨hlow, hspan, hrest⟩ => by
      obtain ⟨mid, hts, hus⟩ := hrest.split
      exact ⟨mid, ⟨hlow, hspan, hts⟩, hus⟩

theorem Ordered.of_infix {high low : Nat} {ts us : List Token}
    (h : Ordered high low ts) (hus : us <:+: ts) : Ordered high low us := by
  obtain ⟨front, back, rfl⟩ := hus
  obtain ⟨mid, hfront, hback⟩ := h.split
  obtain ⟨mid', hskipped, hinner⟩ := hfront.split
  exact (hinner.mono hskipped.le).mono_high hback.le

/-- What is enclosed stands in order inside the span. -/
theorem Ordered.within {high low : Nat} {ts : List Token} {s : Span}
    (h : Ordered high low ts) (hs : s.Encloses ts) :
    low ≤ s.start ∧ s.stop ≤ high ∧ Ordered s.stop s.start ts := by
  obtain ⟨hstart, hstop⟩ := hs
  have hlast : ∀ {ts : List Token} {low stop : Nat}, Ordered high low ts →
    ClosesAt stop ts →
      stop ≤ high ∧ Ordered stop low ts := by
    intro ts
    induction ts with
    | nil => exact fun _ h => nomatch h
    | cons t ts ih =>
        intro low stop h hstop
        obtain ⟨hlow, hspan, hrest⟩ := h
        cases ts with
        | nil =>
            obtain rfl := Option.some.inj hstop
            exact ⟨hrest, hlow, hspan, Nat.le_refl _⟩
        | cons t' ts =>
            obtain ⟨hle, hinner⟩ := ih hrest (by simpa [ClosesAt] using hstop)
            exact ⟨hle, hlow, hspan, hinner⟩
  obtain ⟨hle, hinner⟩ := hlast h hstop
  cases ts with
  | nil => cases hstart
  | cons t ts =>
      obtain hstart := Option.some.inj hstart
      exact ⟨hstart ▸ hinner.1, hle, Nat.le_of_eq hstart.symm, hinner.2⟩

/-- Wherever the tokens stand in order, the layouts stand one behind the other
among them, and nest. -/
def Fills (ts : List Token) (ls : List Layout) : Prop :=
  ∀ ⦃low high : Nat⦄, Ordered high low ts → Layout.Row low high ls

namespace Fills

variable {ts us : List Token} {ls ls' : List Layout}

theorem gap (ts : List Token) : Fills ts [] := fun _ _ h => h.le

theorem append (hl : Fills ts ls) (hr : Fills us ls') :
    Fills (ts ++ us) (ls ++ ls') := by
  intro low high h
  obtain ⟨mid, hts, hus⟩ := h.split
  exact (hl hts).append (hr hus)

/-- Tokens in front that belong to none of the parts. -/
theorem after (ts : List Token) (h : Fills us ls) : Fills (ts ++ us) ls :=
  (gap ts).append h

/-- Tokens behind that belong to none of the parts. -/
theorem before (h : Fills ts ls) (us : List Token) : Fills (ts ++ us) ls := by
  have happend := h.append (gap us)
  rwa [List.append_nil] at happend

theorem node {s : Span} (hs : s.Encloses ts) (h : Fills ts ls) :
    Fills ts [.node s ls] := by
  intro low high hordered
  obtain ⟨hlow, hhigh, hinner⟩ := hordered.within hs
  exact ⟨hlow, h hinner, hhigh⟩

theorem leaf {s : Span} (hs : s.Encloses ts) : Fills ts [.leaf s] :=
  (gap ts).node hs

/-- The parts of a node are where the node is. -/
theorem parts {l : Layout} (h : Fills ts [l]) : Fills ts l.parts := by
  intro low high hordered
  obtain ⟨hlow, hnests, hhigh⟩ := h hordered
  cases l with
  | node s parts => exact (Layout.Row.mono_high hnests hhigh).mono_low hlow

end Fills

/-! ## Layouts of trees -/

mutual

def Expr.layout : Expr → Layout
  | .literal s _ | .path s _ => .leaf s
  | .binary s _ left right => .node s [left.layout, right.layout]
  | .unary s _ operand => .node s [operand.layout]
  | .call s callee args => .node s (callee.layout :: Expr.layouts args)
  | .index s target subscript => .node s [target.layout, subscript.layout]
  | .tuple s items | .array s items => .node s (Expr.layouts items)

def Expr.layouts : List Expr → List Layout
  | [] => []
  | e :: es => e.layout :: Expr.layouts es

end

/-- Parentheses change the span of a node and leave its parts. -/
theorem Expr.layout_withSpan (s : Span) (e : Expr) :
    (e.withSpan s).layout = .node s e.layout.parts := by
  cases e <;> rfl

mutual

def Stmt.layout : Stmt → Layout
  | .expr s value | .bind s _ _ value | .assign s _ value
      | .ret s (some value) =>
    .node s [value.layout]
  | .ret s none => .leaf s
  | .ifThen s test body => .node s (test.layout :: Stmt.layouts body)
  | .ifElse s test body other =>
    .node s (test.layout :: (Stmt.layouts body ++ Stmt.layouts other))
  | .loop s _ items body => .node s (items.layout :: Stmt.layouts body)

def Stmt.layouts : List Stmt → List Layout
  | [] => []
  | s :: ss => s.layout :: Stmt.layouts ss

end

def bodyLayouts (body : Option (List Stmt)) : List Layout :=
  (body.map Stmt.layouts).getD []

/-- The parts of a declaration. Its attributes stand in front of it. -/
def Detail.layouts : Detail → List Layout
  | .newtype .. => []
  | .callable c => c.params.map (fun p => .leaf p.span) ++ bodyLayouts c.body
  | .specialization _ body => bodyLayouts body

def Declaration.layout (d : Declaration) : Layout :=
  .node d.span d.detail.layouts

end Exemplar
