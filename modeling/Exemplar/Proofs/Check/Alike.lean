import Exemplar.Check.Blocks
import Exemplar.Proofs.Placement
import Exemplar.Proofs.Resolution

/-!
# What a check sees of a program

Blocks are checked within a program, but they see little of it: which
namespaces there are, and what is found under a full name. Two programs that
agree on this are `Program.Alike`, however their declarations are arranged,
and then every path refers to the same in both (`Program.Alike.resolve?_eq`),
attributes are stored under the same names
(`Program.Alike.resolveAttribute_eq`), and every block has the same findings
(`Program.Alike.checkBlock_eq`).

The walk through a body sees even less: what paths refer to, and where it is
(`Surroundings.Alike`).
-/

namespace Exemplar

/-- Names refer to the same, and findings have the same origin. -/
structure Surroundings.Alike (a b : Surroundings) : Prop where
  resolve? : a.view.resolve? = b.view.resolve?
  origin : a.origin = b.origin

/-! ## Bodies -/

namespace Walk

variable {a b : Surroundings}

theorem report_alike (h : a.Alike b) : report a = report b := by
  funext problem span w
  rw [report, report, h.origin]

theorem path_alike (h : a.Alike b) (name : String) (span : Span) (w : Walk) :
    w.path a name span = w.path b name span := by
  rw [path, path, h.resolve?, report_alike h]

theorem callee_alike (h : a.Alike b) (name : String)
    (calleeSpan callSpan : Span) (found : Nat) (w : Walk) :
    w.callee a name calleeSpan callSpan found
      = w.callee b name calleeSpan callSpan found := by
  rw [callee, callee, h.resolve?, report_alike h]

theorem assign_alike (h : a.Alike b) (name : String) (span : Span) (w : Walk) :
    w.assign a name span = w.assign b name span := by
  rw [assign, assign, report_alike h]

theorem leaveReporting_alike (h : a.Alike b) :
    leaveReporting a = leaveReporting b := by
  funext w
  rw [leaveReporting, leaveReporting, report_alike h]

mutual

theorem expr_alike (h : a.Alike b) :
    ∀ (e : Expr) (w : Walk), expr a e w = expr b e w
  | .literal .., w => rfl
  | .path span name, w => path_alike h name span w
  | .binary _ _ left right, w => by
      rw [expr, expr, expr_alike h left w, expr_alike h right]
  | .unary _ _ operand, w => expr_alike h operand w
  | .call span callee args, w => by
      have hargs := exprs_alike h args w
      have hcallee := expr_alike h callee (exprs a args w)
      rw [hargs] at hcallee
      cases callee with
      | path calleeSpan name => rw [expr, expr, hargs, callee_alike h]
      | literal | binary | unary | call | index | tuple | array =>
          refine Eq.trans ?_ hcallee
          rw [← hargs]
          rfl
  | .index _ target subscript, w => by
      rw [expr, expr, expr_alike h target w, expr_alike h subscript]
  | .tuple _ items, w => exprs_alike h items w
  | .array _ items, w => exprs_alike h items w

theorem exprs_alike (h : a.Alike b) :
    ∀ (es : List Expr) (w : Walk), exprs a es w = exprs b es w
  | [], w => rfl
  | e :: es, w => by rw [exprs, exprs, expr_alike h e w, exprs_alike h es]

end

mutual

theorem stmt_alike (h : a.Alike b) :
    ∀ (s : Stmt) (w : Walk), stmt a s w = stmt b s w
  | .expr _ value, w => expr_alike h value w
  | .bind _ name isMutable value, w => by rw [stmt, stmt, expr_alike h value w]
  | .assign _ name value, w =>
      by rw [stmt, stmt, expr_alike h value w, assign_alike h]
  | .ret _ none, w => rfl
  | .ret _ (some value), w => expr_alike h value w
  | .ifThen _ test body, w => by
      rw [stmt, stmt, expr_alike h test w, stmts_alike h body,
        leaveReporting_alike h]
  | .ifElse _ test body other, w => by
      rw [stmt, stmt, expr_alike h test w, stmts_alike h body,
        leaveReporting_alike h]
      exact congrArg (leaveReporting b) (stmts_alike h other _)
  | .loop _ name items body, w => by
      rw [stmt, stmt, expr_alike h items w, leaveReporting_alike h]
      exact congrArg (fun w => (leaveReporting b w).leave)
        (stmts_alike h body _)

theorem stmts_alike (h : a.Alike b) :
    ∀ (ss : List Stmt) (w : Walk), stmts a ss w = stmts b ss w
  | [], w => rfl
  | s :: ss, w => by rw [stmts, stmts, stmt_alike h s w, stmts_alike h ss]

end

end Walk

theorem checkBody_alike {a b : Surroundings} (h : a.Alike b) :
    checkBody a = checkBody b := by
  funext params body
  rw [checkBody, checkBody, Walk.block, Walk.block, Walk.stmts_alike h,
    Walk.leaveReporting_alike h]

/-! ## Blocks -/

/-- The same namespaces are there, and the same is found under every name. -/
structure Program.Alike (p q : Program) : Prop where
  hasNamespace : p.hasNamespace = q.hasNamespace
  lookup? : p.lookup? = q.lookup?

namespace Program.Alike

variable {p q : Program}

theorem resolve?_eq (h : p.Alike q) (b : Block) :
    (View.ofBlock p b).resolve? = (View.ofBlock q b).resolve? := by
  funext path
  rw [View.resolve?_eq_findSome?, View.resolve?_eq_findSome?,
    View.candidates_ofBlock fun o _ => congrFun h.hasNamespace o.space]
  exact congrArg (List.findSome? · _) h.lookup?

theorem attributeName?_eq (h : p.Alike q) (b : Block) :
    (View.ofBlock p b).attributeName? = (View.ofBlock q b).attributeName? := by
  funext written
  rw [View.attributeName?, View.attributeName?, h.resolve?_eq b]

/-- Attributes are stored under the same names. -/
theorem resolveAttribute_eq (h : p.Alike q) (b : Block) :
    (View.ofBlock p b).resolveAttribute
      = (View.ofBlock q b).resolveAttribute := by
  funext a
  rw [View.resolveAttribute, View.resolveAttribute, h.attributeName?_eq b]

theorem surroundings (h : p.Alike q) (o : Origin) (b : Block) :
    Surroundings.Alike ⟨.ofBlock p b, o⟩ ⟨.ofBlock q b, o⟩ :=
  ⟨h.resolve?_eq b, rfl⟩

theorem checkType_eq (h : p.Alike q) (o : Origin) (b : Block) :
    Surroundings.checkType ⟨.ofBlock p b, o⟩
      = Surroundings.checkType ⟨.ofBlock q b, o⟩ := by
  funext type span
  simp only [Surroundings.checkType, Surroundings.namesType, h.resolve?_eq b]
  rfl

theorem checkSpecialization_eq (h : p.Alike q) (o : Origin) (b : Block) :
    Surroundings.checkSpecialization ⟨.ofBlock p b, o⟩
      = Surroundings.checkSpecialization ⟨.ofBlock q b, o⟩ := by
  funext d variant body
  have hlookup : (View.ofBlock p b).program.lookup? d.name
      = (View.ofBlock q b).program.lookup? d.name := congrFun h.lookup? d.name
  unfold Surroundings.checkSpecialization
  rw [hlookup, checkBody_alike (h.surroundings o b)]
  rfl

theorem checkDeclaration_eq (h : p.Alike q) (o : Origin) (b : Block) :
    Surroundings.checkDeclaration ⟨.ofBlock p b, o⟩
      = Surroundings.checkDeclaration ⟨.ofBlock q b, o⟩ := by
  funext d
  have hattributes : Surroundings.checkAttributes ⟨.ofBlock p b, o⟩ d.attributes
      = Surroundings.checkAttributes ⟨.ofBlock q b, o⟩ d.attributes := by
    simp only [Surroundings.checkAttributes, h.attributeName?_eq b]
    rfl
  unfold Surroundings.checkDeclaration Surroundings.checkCallable
  rw [hattributes, h.checkType_eq o b, h.checkSpecialization_eq o b,
    checkBody_alike (h.surroundings o b)]

/-- Every block has the same findings. -/
theorem checkBlock_eq (h : p.Alike q) : checkBlock p = checkBlock q := by
  funext o b
  have hopens : Surroundings.checkOpens ⟨.ofBlock p b, o⟩ b.opens
      = Surroundings.checkOpens ⟨.ofBlock q b, o⟩ b.opens := by
    have hspaces : (View.ofBlock p b).program.hasNamespace
        = (View.ofBlock q b).program.hasNamespace := h.hasNamespace
    simp only [Surroundings.checkOpens, hspaces]
    rfl
  simp only [checkBlock, hopens, h.checkDeclaration_eq o b]

end Program.Alike

end Exemplar
