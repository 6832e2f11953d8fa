import Exemplar.Proofs.Check.Unused
import Exemplar.Proofs.Workspace.Order

/-!
# The warnings of a build

A build warns about unused bindings only. `unused_exact` says about which: the
warnings are those about the bodies in units whose text is right, body after
body, and the warnings about a body are one for each `let` and `mutable` that
is not exempt, not referred to and not bound again in its block.

A body is checked under the parameters it is written under (`Site`). A
callable brings its own, a specialization has those of its operation, and
where there is no operation to be found, the specialization is an error and
its body is left alone.
-/

namespace Exemplar

/-! ## Bodies and their parameters -/

namespace Declaration

def body? (d : Declaration) : Option (List Stmt) :=
  match d.detail with
  | .newtype .. => none
  | .callable c => c.body
  | .specialization _ body => body

/-- The parameters that the body is under: those of the callable, or of the
operation that is specialized, if the program has it. -/
def bodyParams? (program : Program) (d : Declaration) : Option (List Param) :=
  match d.detail with
  | .newtype .. => none
  | .callable c => some c.params
  | .specialization .. =>
    ((program.lookup? d.name).bind callable?).bind fun c =>
      match c.kind with
      | .function => none
      | .operation => some c.params

end Declaration

/-- A body, with the parameters it is under and what it is checked against. -/
structure Site where
  around : Surroundings
  params : List Param
  body : List Stmt
deriving Repr, DecidableEq

namespace Site

/-- The `let` and `mutable` statements of the body. -/
def bounds (s : Site) : List Bound :=
  Stmt.bounds (Scope.ofParams s.params) s.body

def warnings (s : Site) : List Finding :=
  Walk.warningsOf (checkBody s.around s.params s.body)

end Site

/-- The body of a declaration, if there is one to check. -/
def Declaration.site? (around : Surroundings) (d : Declaration) : Option Site :=
  (d.bodyParams? around.view.program).bind fun params =>
    d.body?.map fun body => ⟨around, params, body⟩

def Block.sites (program : Program) (origin : Origin) (b : Block) : List Site :=
  b.decls.filterMap (Declaration.site? ⟨.ofBlock program b, origin⟩)

/-- The bodies in the units whose text is right. -/
def Build.sites (library : Library) (units : List SourceUnit) : List Site :=
  (units.filter fun u => u.parse.isClean).flatMap fun u =>
    u.parse.blocks.flatMap
      (Block.sites (ofSources library units).program u.origin)

/-! ## Findings in a block -/

open Walk (warningsOf warningsOf_append)

theorem warningsOf_flatMap {α : Type} (f : α → List Finding) (xs : List α) :
    warningsOf (xs.flatMap f) = xs.flatMap fun x => warningsOf (f x) :=
  List.filter_flatMap ..

namespace Surroundings

variable (around : Surroundings)

theorem warningsOf_map {α : Type} (xs : List α) {problem : α → Problem}
    (span : α → Span) (h : ∀ x, (problem x).code ≠ "W0001") :
    warningsOf (xs.map fun x => around.finding (problem x) (span x)) = [] := by
  refine List.filter_eq_nil_iff.mpr fun f hf hcode => ?_
  obtain ⟨x, -, rfl⟩ := List.mem_map.mp hf
  exact h x (beq_iff_eq.mp hcode)

theorem warningsOf_checkOpens (opens : List Open) :
    warningsOf (around.checkOpens opens) = [] :=
  around.warningsOf_map _ _ fun _ => by simp [Problem.code]

theorem warningsOf_checkAttributes (attributes : List Attribute) :
    warningsOf (around.checkAttributes attributes) = [] :=
  around.warningsOf_map _ _ fun _ => by simp [Problem.code]

theorem warningsOf_checkType (type : TypeExpr) (span : Span) :
    warningsOf (around.checkType type span) = [] :=
  around.warningsOf_map _ (fun _ => span) fun _ => by simp [Problem.code]

/-- A body is a site of its own, if there is one. -/
theorem warningsOf_body (params : List Param) (body : Option (List Stmt)) :
    warningsOf ((body.map (checkBody around params)).getD [])
      = (body.map fun body => ⟨around, params, body⟩).toList.flatMap
        Site.warnings := by
  cases body with
  | none => rfl
  | some body => exact (List.append_nil _).symm

theorem warningsOf_checkCallable (c : Callable) (span : Span) :
    warningsOf (around.checkCallable c span)
      = (c.body.map fun body => ⟨around, c.params, body⟩).toList.flatMap
        Site.warnings := by
  have hparams : warningsOf
      (c.params.flatMap fun p => around.checkType p.type p.span) = [] := by
    rw [warningsOf_flatMap]
    exact List.flatMap_eq_nil_iff.mpr fun p _ =>
      around.warningsOf_checkType p.type p.span
  rw [checkCallable, warningsOf_append, warningsOf_append, hparams,
    warningsOf_checkType]
  exact around.warningsOf_body c.params c.body

/-- A specialization is checked by its body, under the parameters of its
operation, or it is an error that there is no operation. -/
theorem checkSpecialization_cases {d : Declaration} {variant : Variant}
    {body : Option (List Stmt)} (hd : d.detail = .specialization variant body) :
    (∃ params, d.bodyParams? around.view.program = some params
        ∧ around.checkSpecialization d variant body
          = (body.map (checkBody around params)).getD [])
      ∨ d.bodyParams? around.view.program = none
        ∧ ∃ problem, around.checkSpecialization d variant body
          = [around.finding problem d.span]
          ∧ (problem.code = "E0202" ∨ problem.code = "E0302") := by
  rw [Declaration.bodyParams?, hd, checkSpecialization]
  cases around.view.program.lookup? d.name with
  | none => exact Or.inr ⟨rfl, _, rfl, Or.inl rfl⟩
  | some parent =>
      simp only [Option.bind_some]
      cases parent.callable? with
      | none => exact Or.inr ⟨rfl, _, rfl, Or.inl rfl⟩
      | some c =>
          simp only [Option.bind_some]
          cases c.kind with
          | function => exact Or.inr ⟨rfl, _, rfl, Or.inr rfl⟩
          | operation => exact Or.inl ⟨c.params, rfl, rfl⟩

theorem warningsOf_checkSpecialization {d : Declaration} {variant : Variant}
    {body : Option (List Stmt)} (hd : d.detail = .specialization variant body) :
    warningsOf (around.checkSpecialization d variant body)
      = (d.site? around).toList.flatMap Site.warnings := by
  have hbody : d.body? = body := by rw [Declaration.body?, hd]
  rcases around.checkSpecialization_cases hd with
    ⟨params, hparams, hcheck⟩ | ⟨hparams, problem, hcheck, hcode⟩
  · rw [hcheck, Declaration.site?, hparams, hbody]
    exact around.warningsOf_body params body
  · have herror : (problem.code == "W0001") = false := by
      rcases hcode with hcode | hcode <;> rw [hcode] <;> rfl
    rw [hcheck, Declaration.site?, hparams]
    exact List.filter_cons_of_neg (Bool.eq_false_iff.mp herror)

/-- The warnings about a declaration are those about its body. -/
theorem warningsOf_checkDeclaration (d : Declaration) :
    warningsOf (around.checkDeclaration d)
      = (d.site? around).toList.flatMap Site.warnings := by
  rw [checkDeclaration, warningsOf_append, warningsOf_checkAttributes,
    List.nil_append]
  cases hd : d.detail with
  | newtype underlying attributes =>
      simp only [Declaration.site?, Declaration.bodyParams?, hd]
      exact around.warningsOf_checkType underlying d.span
  | callable c =>
      simp only [Declaration.site?, Declaration.bodyParams?,
        Declaration.body?, hd]
      exact around.warningsOf_checkCallable c d.span
  | specialization variant body =>
      exact around.warningsOf_checkSpecialization hd

/-- A body that is not checked is an error. -/
theorem exists_finding_of_site?_eq_none {d : Declaration} {body : List Stmt}
    (hbody : d.body? = some body) (hnone : d.site? around = none) :
    ∃ f ∈ around.checkDeclaration d, f.origin = around.origin ∧ f.span = d.span
      ∧ (f.problem.code = "E0202" ∨ f.problem.code = "E0302") := by
  rw [Declaration.site?, hbody, Option.bind_eq_none_iff] at hnone
  have hparams : d.bodyParams? around.view.program = none :=
    Option.eq_none_iff_forall_ne_some.mpr fun params h => nomatch hnone params h
  cases hd : d.detail with
  | newtype => rw [Declaration.body?, hd] at hbody; cases hbody
  | callable c => rw [Declaration.bodyParams?, hd] at hparams; cases hparams
  | specialization variant spec =>
      rcases around.checkSpecialization_cases hd with
        ⟨params, hsome, -⟩ | ⟨-, problem, hcheck, hcode⟩
      · rw [hparams] at hsome
        cases hsome
      · refine ⟨around.finding problem d.span, ?_, rfl, rfl, hcode⟩
        rw [checkDeclaration, hd]
        refine List.mem_append_right _ ?_
        show _ ∈ around.checkSpecialization d variant spec
        rw [hcheck]
        exact List.mem_singleton_self _

end Surroundings

/-- The warnings about a block are those about its bodies. -/
theorem warningsOf_checkBlock (program : Program) (origin : Origin)
    (b : Block) :
    warningsOf (checkBlock program origin b)
      = (b.sites program origin).flatMap Site.warnings := by
  rw [checkBlock, warningsOf_append, Surroundings.warningsOf_checkOpens,
    List.nil_append, warningsOf_flatMap, Block.sites,
    List.filterMap_eq_flatMap_toList, List.flatMap_assoc]
  exact List.flatMap_congr fun d _ =>
    Surroundings.warningsOf_checkDeclaration _ d

/-! ## Builds -/

namespace Build

theorem warningsOf_duplicates (p : Program) : warningsOf p.duplicates = [] := by
  refine List.filter_eq_nil_iff.mpr fun f hf hcode => ?_
  obtain ⟨ns, -, d, -, first, -, -, rfl⟩ := exists_of_mem_duplicates hf
  exact absurd hcode (by simp [Problem.code])

theorem filter_map_toDiagnostic (fs : List Finding) :
    (fs.map Finding.toDiagnostic).filter (fun d => d.code == some "W0001")
      = (warningsOf fs).map Finding.toDiagnostic := by
  rw [List.filter_map]
  refine congrArg _ (List.filter_congr fun f _ => ?_)
  rw [Function.comp_apply, Finding.code_toDiagnostic]
  rfl

/-- The warnings of a build are those about its bodies. -/
theorem warnings_ofSources (library : Library) (units : List SourceUnit) :
    (ofSources library units).diagnostics.filter (fun d =>
      d.code == some "W0001")
      = ((sites library units).flatMap Site.warnings).map
        Finding.toDiagnostic := by
  have htexts : (units.flatMap fun u => u.parse.diagnostics).filter
      (fun d => d.code == some "W0001") = [] := by
    refine List.filter_eq_nil_iff.mpr fun d hd hcode => ?_
    obtain ⟨u, -, hd⟩ := List.mem_flatMap.mp hd
    have hwarning : d.code = some "W0001" := beq_iff_eq.mp hcode
    rcases code_of_mem_parse hd with herror | herror
    · exact absurd (hwarning.symm.trans herror) (by decide)
    · exact absurd (hwarning.symm.trans herror) (by decide)
  rw [diagnostics_ofSources, List.filter_append, htexts, List.nil_append,
    filter_map_toDiagnostic, warningsOf_append, warningsOf_duplicates,
    List.nil_append, warningsOf_flatMap, sites, List.flatMap_assoc]
  simp only [warningsOf_flatMap, warningsOf_checkBlock, List.flatMap_assoc]

/-- The build reports that a declaration specializes no operation. -/
def Rejects (build : Build) (origin : Origin) (d : Declaration) : Prop :=
  ∃ f : Finding, f.toDiagnostic ∈ build.diagnostics ∧ f.origin = origin
    ∧ f.span = d.span
    ∧ (f.problem.code = "E0202" ∨ f.problem.code = "E0302")

variable {library : Library} {units : List SourceUnit}

/-- The bodies that are not checked belong to specializations in error. -/
theorem exists_site_or_rejects {u : SourceUnit} (hu : u ∈ units)
    (hclean : u.parse.isClean = true) {b : Block} (hb : b ∈ u.parse.blocks)
    {d : Declaration} (hd : d ∈ b.decls) {body : List Stmt}
    (hbody : d.body? = some body) :
    (∃ s ∈ sites library units, s.around.origin = u.origin ∧ s.body = body)
      ∨ (ofSources library units).Rejects u.origin d := by
  have hfilter : u ∈ units.filter fun u => u.parse.isClean :=
    List.mem_filter.mpr ⟨hu, hclean⟩
  cases hsite : d.site? ⟨.ofBlock (ofSources library units).program b, u.origin⟩
    with
  | some s =>
      have hs : s ∈ sites library units :=
        List.mem_flatMap.mpr ⟨u, hfilter, List.mem_flatMap.mpr ⟨b, hb,
          List.mem_filterMap.mpr ⟨d, hd, hsite⟩⟩⟩
      obtain ⟨params, -, hmap⟩ := Option.bind_eq_some_iff.mp hsite
      rw [hbody] at hmap
      cases hmap
      exact Or.inl ⟨_, hs, rfl, rfl⟩
  | none =>
      obtain ⟨f, hf, horigin, hspan, hcode⟩ :=
        Surroundings.exists_finding_of_site?_eq_none _ hbody hsite
      refine Or.inr ⟨f, ?_, horigin, hspan, hcode⟩
      have hblock : f ∈ checkBlock (ofSources library units).program
          u.origin b :=
        List.mem_append_right _ (List.mem_flatMap.mpr ⟨d, hd, hf⟩)
      rw [diagnostics_ofSources]
      exact List.mem_append_right _
        (List.mem_map_of_mem
          (List.mem_append_right _
            (List.mem_flatMap.mpr ⟨u, hfilter,
              List.mem_flatMap.mpr ⟨b, hb, hblock⟩⟩)))

/-- **Warnings are exact, up to rebinding.** The warnings of a build are those
about the bodies in the units whose text is right. About a body they are one
for each `let` and `mutable` whose name does not start with an underscore, to
which nothing behind it refers, and whose name no later statement of the same
block binds again. No body in such a unit is passed over, but where the build
rejects the specialization it belongs to. -/
theorem unused_exact (library : Library) (units : List SourceUnit) :
    (ofSources library units).diagnostics.filter (fun d =>
      d.code == some "W0001")
        = ((sites library units).flatMap Site.warnings).map Finding.toDiagnostic
      ∧ (∀ s : Site, s.warnings.Perm
          ((s.bounds.filter fun b => b.isIdle && !b.isRebound).map
            (Bound.finding s.around)))
      ∧ ∀ u ∈ units, u.parse.isClean = true → ∀ b ∈ u.parse.blocks,
        ∀ d ∈ b.decls,
          ∀ body, d.body? = some body →
            (∃ s ∈ sites library units, s.around.origin = u.origin
              ∧ s.body = body)
              ∨ (ofSources library units).Rejects u.origin d := by
  refine ⟨warnings_ofSources library units, fun s => ?_, ?_⟩
  · exact checkBody_unused s.around s.params s.body
  · intro u hu hclean b hb d hd body hbody
    exact exists_site_or_rejects hu hclean hb hd hbody

/-- An inner binding shadows an outer one, and a specialization uses a
parameter of its operation. -/
def shadowing : SourceUnit :=
  ⟨.primary "main.vl", "namespace A\x7boperation P(q:Int):Unit\x7blet x=1;" ++
    "if q==x\x7blet x=2;let y=x;\x7d\x7dadjoint P\x7blet z=q;\x7d\x7d"⟩

def shadowing.adjoint : List Stmt :=
  [.bind ⟨80, 88⟩ "z" false (.path ⟨86, 87⟩ "q")]

/-- Both bodies are checked; `y` and `z` are unused, and neither `x` is. -/
theorem unused_exact_shadowing :
    shadowing.parse.isClean = true
      ∧ (sites .empty [shadowing]).flatMap
          (fun s => (s.bounds.filter Bound.isIdle).map fun b => b.visible.name)
            = ["y", "z"]
      ∧ ∃ b ∈ shadowing.parse.blocks, ∃ d ∈ b.decls,
        d.body? = some shadowing.adjoint
        ∧ ∃ s ∈ sites .empty [shadowing],
            s.around.origin = shadowing.origin
              ∧ s.body = shadowing.adjoint := by
  have hclean : shadowing.parse.isClean = true := by decide +kernel
  have hnames : (sites .empty [shadowing]).flatMap
      (fun s => (s.bounds.filter Bound.isIdle).map fun b => b.visible.name)
        = ["y", "z"] := by
    decide +kernel
  have hwarnings : ∀ d ∈ (ofSources .empty [shadowing]).diagnostics,
      d.code = some "W0001" := by decide +kernel
  obtain ⟨b, hb, d, hd, hbody⟩ : ∃ b ∈ shadowing.parse.blocks, ∃ d ∈ b.decls,
      d.body? = some shadowing.adjoint := by decide +kernel
  refine ⟨hclean, hnames, b, hb, d, hd, hbody, ?_⟩
  rcases (unused_exact .empty [shadowing]).2.2 shadowing List.mem_cons_self
    hclean b hb d hd _ hbody
    with hsite | ⟨f, hf, -, -, hcode⟩
  · exact hsite
  · have hwarning := hwarnings _ hf
    rw [Finding.code_toDiagnostic, Option.some.injEq] at hwarning
    rw [hwarning] at hcode
    exact absurd hcode (by decide)

/-- A name is bound twice in one block, and read once. -/
def rebinding : SourceUnit :=
  ⟨.primary "main.vl",
    "namespace A\x7bfunction F():Int\x7blet x=1;let x=2;return x;\x7d\x7d"⟩

/-- The first of two bindings of a name in one block goes unused, and no
warning says so. -/
theorem unused_missed_rebinding :
    rebinding.parse.isClean = true
      ∧ (sites .empty [rebinding]).flatMap
          (fun s => (s.bounds.filter Bound.isIdle).map fun b => b.visible)
        = [⟨"x", false, ⟨29, 37⟩⟩]
      ∧ (ofSources .empty [rebinding]).diagnostics = [] := by
  decide +kernel

end Build

end Exemplar
