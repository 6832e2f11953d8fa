import Exemplar.Proofs.Example.Capture
import Exemplar.Proofs.Library
import Exemplar.Proofs.Workspace.Order

/-!
# What assembly keeps

Assembly puts the namespaces of references and the blocks of compiled units
together by name. Nothing is lost or moved (`assemble_conserves`): names come
in the order in which they first appear, each namespace has the first
documentation that is not empty, and its declarations are those of its
contributors, in order. Of a compiled declaration, the names of attributes are
stored resolved, from its own block (`Declaration.StoredIn`).

Attributes are resolved before any of them is renamed, in a program that is not
the result. That makes no difference: resolution does not read attributes, so
the result can be asked instead (`attributeName?_assemble`). Nor does it matter
that they are renamed by position, in the finished namespaces (`assemble_eq`).

An attribute that refers to nothing stays as written, and might be written like
the mark of entry points. A build without errors has no such attribute
(`isSome_attributeName?_of_clean`), so there the entry points are the callables
with an attribute that refers to the mark.
-/

namespace Exemplar

/-! ## Names and documentation -/

def Block.contribution (b : Block) : Namespace := ⟨b.name, b.doc, b.decls⟩

/-- The contributors to a program, in order: namespaces of references, then
blocks. -/
def contributors (references : List Namespace) (blocks : List Block) :
    List Namespace :=
  references ++ blocks.map Block.contribution

/-- The first documentation that is not empty. -/
def firstDoc (docs : List Doc) : Doc :=
  (docs.find? fun doc => !doc.isEmpty).getD []

theorem firstDoc_append (docs docs' : List Doc) :
    firstDoc (docs ++ docs')
      = if (firstDoc docs).isEmpty then firstDoc docs' else firstDoc docs := by
  rw [firstDoc, List.find?_append, firstDoc, firstDoc]
  cases hfind : docs.find? fun doc => !doc.isEmpty with
  | none => rfl
  | some doc =>
      have hdoc : doc.isEmpty = false := by simpa using List.find?_some hfind
      rw [Option.some_or, Option.getD_some, hdoc]
      rfl

@[simp] theorem firstDoc_singleton (doc : Doc) : firstDoc [doc] = doc := by
  cases doc <;> rfl

def docsNamed (n : String) (nss : List Namespace) : List Doc :=
  (nss.filter fun ns => ns.name == n).map Namespace.doc

theorem docsNamed_cons (n : String) (ns : Namespace) (nss : List Namespace) :
    docsNamed n (ns :: nss) = (if ns.name = n then [ns.doc] else [])
      ++ docsNamed n nss := by
  by_cases hns : ns.name = n <;> simp [docsNamed, hns]

theorem docsNamed_eq_nil {n : String} {nss : List Namespace}
    (h : n ∉ nss.map Namespace.name) : docsNamed n nss = [] := by
  rw [docsNamed, List.filter_eq_nil_iff.mpr, List.map_nil]
  intro ns hns heq
  exact h (List.mem_map.mpr ⟨ns, hns, by simpa using heq⟩)

theorem docsNamed_name {nss : List Namespace}
    (h : (nss.map Namespace.name).Nodup) {ns : Namespace} (hns : ns ∈ nss) :
    docsNamed ns.name nss = [ns.doc] := by
  induction nss with
  | nil => cases hns
  | cons ns' rest ih =>
      rw [List.map_cons, List.nodup_cons] at h
      rw [docsNamed_cons]
      rcases List.mem_cons.mp hns with rfl | hrest
      · rw [if_pos rfl, docsNamed_eq_nil h.1, List.append_nil]
      · have hne : ns'.name ≠ ns.name := fun heq =>
          h.1 (heq ▸ List.mem_map_of_mem hrest)
        rw [if_neg hne, ih h.2 hrest, List.nil_append]

theorem firstDoc_contribute {nss : List Namespace}
    (h : (nss.map Namespace.name).Nodup) (n name : String) (doc : Doc)
    (decls : List Declaration) :
    firstDoc (docsNamed n (contribute name doc decls nss))
      = firstDoc (docsNamed n nss ++ if name = n then [doc] else []) := by
  induction nss with
  | nil =>
      rw [contribute, docsNamed_cons, docsNamed_eq_nil List.not_mem_nil,
        List.append_nil, List.nil_append]
  | cons ns rest ih =>
      rw [List.map_cons, List.nodup_cons] at h
      rw [contribute]
      by_cases hns : ns.name = name
      · rw [if_pos hns, docsNamed_cons, docsNamed_cons]
        by_cases hn : name = n
        -- names are distinct, so nothing of that name stands behind the first
        · have hrest : docsNamed n rest = [] :=
            docsNamed_eq_nil (hn ▸ hns ▸ h.1)
          rw [if_pos (hns.trans hn), if_pos (hns.trans hn), if_pos hn, hrest,
            List.append_nil, List.append_nil, firstDoc_append,
            firstDoc_singleton, firstDoc_singleton, firstDoc_singleton]
        · have hne : ns.name ≠ n := fun heq => hn (hns ▸ heq)
          rw [if_neg hne, if_neg hne, if_neg hn, List.append_nil]
      · rw [if_neg hns, docsNamed_cons, docsNamed_cons, List.append_assoc,
          firstDoc_append, firstDoc_append _ (docsNamed n rest ++ _), ih h.2]

/-- Contributions, one after the other. -/
theorem foldl_contribute (nss : List Namespace) :
    let placed := nss.foldl (fun placed ns =>
      contribute ns.name ns.doc ns.decls placed) []
    (placed.map Namespace.name) = (nss.map Namespace.name).eraseDups
      ∧ ∀ n, firstDoc (docsNamed n placed) = firstDoc (docsNamed n nss) := by
  induction nss using List.reverseRecOn with
  | nil => exact ⟨rfl, fun _ => rfl⟩
  | append_singleton nss ns ih =>
      obtain ⟨hnames, hdocs⟩ := ih
      simp only [List.foldl_append, List.foldl_cons, List.foldl_nil]
      refine ⟨?_, fun n => ?_⟩
      · rw [names_contribute, hnames, List.map_append, List.map_singleton,
          eraseDups_concat]
        split <;> simp
      · have hnodup := nodup_eraseDups (nss.map Namespace.name)
        rw [← hnames] at hnodup
        have hsingle : docsNamed n [ns] = if ns.name = n then [ns.doc]
            else [] :=
          (docsNamed_cons n ns []).trans (List.append_nil _)
        have happend : docsNamed n (nss ++ [ns]) = docsNamed n nss
            ++ docsNamed n [ns] := by
          simp [docsNamed]
        rw [firstDoc_contribute hnodup, happend, hsingle, firstDoc_append,
          firstDoc_append, hdocs]

theorem placeBlocks_eq (library : Library) (blocks : List Block) :
    placeBlocks library blocks
      = (contributors library.namespaces blocks).foldl
          (fun placed ns => contribute ns.name ns.doc ns.decls placed) [] := by
  rw [placeBlocks, contributors, List.foldl_append, List.foldl_map]
  rfl

/-! ## Resolution does not read attributes -/

theorem withoutAttributes_storedDecl (program : Program)
    (p : Block × Declaration) :
    (Block.storedDecl program p).withoutAttributes = p.2.withoutAttributes := by
  obtain ⟨b, name, doc, origin, span, detail⟩ := p
  cases detail <;> rfl

/-- The same declaration but for its attributes. -/
def Declaration.SameButAttributes (d d' : Declaration) : Prop :=
  d.withoutAttributes = d'.withoutAttributes

theorem isType_withoutAttributes (d : Declaration) :
    d.withoutAttributes.isType = d.isType := by
  obtain ⟨name, doc, origin, span, detail⟩ := d
  cases detail <;> rfl

theorem Declaration.SameButAttributes.isType_eq {d d' : Declaration}
    (h : d.SameButAttributes d') : d.isType = d'.isType := by
  rw [← isType_withoutAttributes d, h, isType_withoutAttributes d']

theorem Declaration.SameButAttributes.name_eq {d d' : Declaration}
    (h : d.SameButAttributes d') : d.name = d'.name := by
  rw [← name_withoutAttributes d, h, name_withoutAttributes d']

section Assemble

variable (library : Library) (blocks : List Block)

theorem names_assemble :
    (assemble library blocks).namespaces.map Namespace.name
      = (writtenProgram library blocks).namespaces.map Namespace.name := by
  rw [assemble_eq]
  change (placeBlocks library
    (blocks.map (Block.resolveAttributes (writtenProgram library blocks)))).map
      Namespace.name
      = (placeBlocks library blocks).map Namespace.name
  simp only [placeBlocks_eq, foldl_contribute, contributors, List.map_append,
    List.map_map]
  rfl

theorem lookup?_assemble (q : QualifiedName) :
    Option.Rel Declaration.SameButAttributes
      ((assemble library blocks).lookup? q)
      ((writtenProgram library blocks).lookup? q) := by
  have hfind : ∀ f : Block × Declaration → Declaration,
      (∀ p, (f p).defines q.name = p.2.defines q.name) →
      ((declaredUnder q.space blocks).map f).find? (Declaration.defines q.name)
        = ((declaredUnder q.space blocks).find? fun p =>
          p.2.defines q.name).map f := by
    intro f hf
    rw [List.find?_map]
    exact congrArg (fun test => (List.find? test _).map f) (funext hf)
  rw [Program.lookup?_eq_find? (nodup_names_assemble ..),
    Program.lookup?_eq_find? (nodup_names_placeBlocks ..), declsNamed_assemble,
    declsNamed_written, List.find?_append, List.find?_append,
    hfind Prod.snd fun _ => rfl]
  change Option.Rel _ (Option.or _ (((declaredUnder q.space blocks).map
    (Block.storedDecl (writtenProgram library blocks))).find? _)) _
  rw [hfind _ fun p => defines_storedDecl _ p q.name]
  cases (declsNamed q.space library.namespaces).find?
    (Declaration.defines q.name) with
  | some d => exact .some rfl
  | none =>
      cases (declaredUnder q.space blocks).find? fun p =>
        p.2.defines q.name with
      | some p => exact .some (withoutAttributes_storedDecl _ p)
      | none => exact .none

theorem resolve?_assemble (b : Block) (path : String) :
    Option.Rel Declaration.SameButAttributes
      ((View.ofBlock (assemble library blocks) b).resolve? path)
      ((View.ofBlock (writtenProgram library blocks) b).resolve? path) := by
  have hspaces : (assemble library blocks).hasNamespace
      = (writtenProgram library blocks).hasNamespace :=
    hasNamespace_eq_of_mem fun n => by rw [names_assemble]
  rw [View.resolve?_eq_findSome?, View.resolve?_eq_findSome?,
    View.candidates_ofBlock fun o _ => congrFun hspaces o.space]
  exact findSome?_rel (lookup?_assemble library blocks) _

/-- Attributes refer to the same before and after they are renamed. -/
theorem attributeName?_assemble (b : Block) (written : QualifiedName) :
    (View.ofBlock (writtenProgram library blocks) b).attributeName? written
      = (View.ofBlock (assemble library blocks) b).attributeName? written := by
  have hrel := resolve?_assemble library blocks b written.path
  rw [View.attributeName?, View.attributeName?]
  generalize (View.ofBlock (assemble library blocks) b).resolve? written.path
    = x at hrel
  generalize (View.ofBlock (writtenProgram library blocks) b).resolve?
    written.path = y at hrel
  cases hrel with
  | none => rfl
  | some hsame => simp only [hsame.isType_eq, hsame.name_eq]

end Assemble

/-! ## What is stored -/

/-- An attribute as stored: under the name of the type that it refers to, or
as written if it refers to none. -/
structure Attribute.ResolvedIn (view : View) (a a' : Attribute) : Prop where
  argument : a'.argument = a.argument
  span : a'.span = a.span
  renamed : ∀ t, view.resolve? a.name.path = some t → t.isType = true →
    a'.name = t.name
  kept : (∀ t, view.resolve? a.name.path = some t → t.isType = false) →
    a'.name = a.name

theorem Attribute.resolvedIn_resolveAttribute (view : View) (a : Attribute) :
    a.ResolvedIn view (view.resolveAttribute a) := by
  refine ⟨rfl, rfl, fun t ht htype => ?_, fun hnone => ?_⟩
  · rw [View.resolveAttribute, View.attributeName?, ht]
    simp [htype]
  · rw [View.resolveAttribute, View.attributeName?]
    cases ht : view.resolve? a.name.path with
    | none => rfl
    | some t => simp [hnone t ht]

/-- A compiled declaration as stored in a program: as parsed but for its
attributes, each resolved from its own block. -/
structure Declaration.StoredIn (program : Program) (p : Block × Declaration)
    (d' : Declaration) : Prop where
  same : d'.SameButAttributes p.2
  attributes : List.Forall₂ (Attribute.ResolvedIn (.ofBlock program p.1))
    p.2.attributes d'.attributes

/-- What is placed under names: references, and blocks behind them. -/
structure Placed (references : List Namespace) (blocks : List Block)
    (program : Program) :
    Prop where
  /-- Names come in the order in which they first appear. -/
  names : program.namespaces.map Namespace.name
    = ((contributors references blocks).map Namespace.name).eraseDups
  /-- Names are distinct. -/
  nodup : (program.namespaces.map Namespace.name).Nodup
  /-- The first documentation that is not empty is kept. -/
  doc : ∀ ns ∈ program.namespaces,
    ns.doc = firstDoc (docsNamed ns.name (contributors references blocks))
  /-- Headers stay as they are, and what blocks declare comes behind them. -/
  decls : ∀ ns ∈ program.namespaces, ∃ compiled,
    ns.decls = declsNamed ns.name references ++ compiled
      ∧ List.Forall₂ (Declaration.StoredIn program)
        (declaredUnder ns.name blocks) compiled

section Assemble

variable (library : Library) (blocks : List Block)

theorem storedIn_storedDecl (p : Block × Declaration) :
    Declaration.StoredIn (assemble library blocks) p
      (Block.storedDecl (writtenProgram library blocks) p) where
  same := withoutAttributes_storedDecl _ p
  attributes := by
    have hresolve :
        (View.ofBlock (writtenProgram library blocks) p.1).resolveAttribute
          = (View.ofBlock (assemble library blocks) p.1).resolveAttribute := by
      funext a
      rw [View.resolveAttribute, View.resolveAttribute, attributeName?_assemble]
    rw [Block.storedDecl, Declaration.attributes_mapAttributes, hresolve,
      List.forall₂_map_right_iff]
    exact List.forall₂_same.mpr fun a _ => a.resolvedIn_resolveAttribute _

theorem placed_assemble :
    Placed library.namespaces blocks (assemble library blocks) := by
  have hnodup := nodup_names_assemble library blocks
  -- a block contributes as much documentation with its attributes resolved
  have hresolved : ∀ n, docsNamed n (contributors library.namespaces
        (blocks.map (Block.resolveAttributes (writtenProgram library blocks))))
      = docsNamed n (contributors library.namespaces blocks) := by
    intro n
    simp only [docsNamed, contributors, List.filter_append, List.map_append,
      List.filter_map, List.map_map]
    rfl
  refine ⟨?_, hnodup, fun ns hns => ?_, fun ns hns => ?_⟩
  · rw [names_assemble]
    change (placeBlocks library blocks).map Namespace.name = _
    rw [placeBlocks_eq]
    exact (foldl_contribute _).1
  · have hdoc := (foldl_contribute (contributors library.namespaces
      (blocks.map (Block.resolveAttributes (writtenProgram library blocks))))).2
        ns.name
    rw [← placeBlocks_eq, hresolved] at hdoc
    rw [← hdoc, ← firstDoc_singleton ns.doc, ← docsNamed_name hnodup hns,
      assemble_eq]
    rfl
  · refine ⟨(declaredUnder ns.name blocks).map
      (Block.storedDecl (writtenProgram library blocks)), ?_, ?_⟩
    · rw [← declsNamed_name hnodup hns, declsNamed_assemble]
      rfl
    · rw [List.forall₂_map_right_iff]
      exact List.forall₂_same.mpr fun p _ =>
        storedIn_storedDecl library blocks p

end Assemble

/-! ## Entry points -/

/-- The declaration is a callable with an attribute that refers to the mark of
entry points from its block. -/
def marksEntryPoint (program : Program) (p : Block × Declaration) : Bool :=
  p.2.callable?.any fun c => c.attributes.any fun a =>
    (View.ofBlock program p.1).attributeName? a.name == some entryPointMark

/-- Without errors, every attribute refers to a type. -/
theorem isSome_attributeName?_of_clean {library : Library}
    {units : List SourceUnit}
    (h : (Build.ofSources library units).hasErrors = false) {u : SourceUnit}
    (hu : u ∈ units) {b : Block} (hb : b ∈ u.parse.blocks) {d : Declaration}
    (hd : d ∈ b.decls) {a : Attribute} (ha : a ∈ d.attributes) :
    ∃ name,
      (View.ofBlock (Build.ofSources library units).program b).attributeName?
        a.name = some name := by
  rw [← Option.isSome_iff_exists, ← Option.not_isNone, Bool.not_eq_true',
    ← Bool.not_eq_true]
  intro hnone
  have hfound : Finding.mk (.unknownAttribute a.name.path) a.span u.origin
      ∈ checkBlock (Build.ofSources library units).program u.origin b := by
    refine List.mem_append_right _
      (List.mem_flatMap.mpr ⟨d, hd, List.mem_append_left _ ?_⟩)
    exact List.mem_map.mpr ⟨a, List.mem_filter.mpr ⟨ha, hnone⟩, rfl⟩
  exact severity_of_mem_checkBlock h hu hb hfound rfl

theorem flatMap_decls_resolveAttributes (program : Program)
    (blocks : List Block) :
    (blocks.map (Block.resolveAttributes program)).flatMap Block.decls
      = (declsOfBlocks blocks).map (Block.storedDecl program) := by
  rw [List.flatMap_map, declsOfBlocks, List.map_flatMap]
  refine List.flatMap_congr fun b _ => ?_
  rw [List.map_map]
  rfl

/-- A stored declaration is marked if an attribute refers to the mark, where
every attribute refers to a type. -/
theorem isEntryPoint_storedDecl {library : Library} {blocks : List Block}
    {p : Block × Declaration}
    (h : ∀ a ∈ p.2.attributes, ∃ name,
      (View.ofBlock (assemble library blocks) p.1).attributeName? a.name
      = some name) :
    (Block.storedDecl (writtenProgram library blocks) p).isEntryPoint
      = marksEntryPoint (assemble library blocks) p := by
  obtain ⟨b, name, doc, origin, span, detail⟩ := p
  cases detail with
  | newtype | specialization => rfl
  | callable c =>
      change (c.attributes.map (View.resolveAttribute _)).any (fun a =>
        a.name == entryPointMark)
        = c.attributes.any fun a =>
            (View.ofBlock (assemble library blocks) b).attributeName? a.name
              == some entryPointMark
      have hname : ∀ a ∈ c.attributes,
          ((View.ofBlock (writtenProgram library blocks) b).resolveAttribute
            a).name = entryPointMark
            ↔ (View.ofBlock (assemble library blocks) b).attributeName? a.name
              = some entryPointMark := by
        intro a ha
        obtain ⟨full, hfull⟩ := h a ha
        rw [View.resolveAttribute, attributeName?_assemble, hfull,
          Option.getD_some, Option.some.injEq]
      rw [List.any_map, Bool.eq_iff_iff, List.any_eq_true, List.any_eq_true]
      simp only [Function.comp_apply, beq_iff_eq]
      exact exists_congr fun a => and_congr_right (hname a)

theorem entryPoints_of_clean {library : Library} {units : List SourceUnit}
    (h : (Build.ofSources library units).hasErrors = false) :
    (Build.ofSources library units).program.entryPoints
      = ((declsOfBlocks (units.flatMap fun u => u.parse.blocks)).filter
          (marksEntryPoint (Build.ofSources library units).program)).map
            fun p => p.2.name := by
  have hprogram := Build.program_ofSources library units
  have hmarks : ∀ p ∈ declsOfBlocks (units.flatMap fun u => u.parse.blocks),
      (Block.storedDecl
        (writtenProgram library (units.flatMap fun u => u.parse.blocks))
          p).isEntryPoint
        = marksEntryPoint (Build.ofSources library units).program p := by
    intro p hp
    obtain ⟨b, hb, hp⟩ := List.mem_flatMap.mp hp
    obtain ⟨d, hd, rfl⟩ := List.mem_map.mp hp
    obtain ⟨u, hu, hb⟩ := List.mem_flatMap.mp hb
    rw [hprogram]
    refine isEntryPoint_storedDecl fun a ha => ?_
    rw [← hprogram]
    exact isSome_attributeName?_of_clean h hu hb hd ha
  rw [← List.filter_congr hmarks, hprogram, assemble_eq]
  change ((((units.flatMap fun u => u.parse.blocks).map _).flatMap
    Block.decls).filter _).map _ = _
  rw [flatMap_decls_resolveAttributes, List.filter_map, List.map_map]
  exact List.map_congr_left fun p _ => (keepsNames_storedDecl _).name p

/-- **Assembly conserves declarations.** However references came to be
inserted, they stand in the order of their origins. Names, documentation and
declarations are placed as `Placed` says. If the blocks are those of units whose
build has no errors, the entry points are the compiled callables with an
attribute that refers to the mark, in the order of the blocks. -/
theorem assemble_conserves (insertions : List (Origin × List Namespace))
    (blocks : List Block) :
    let library := Library.ofInsertions insertions
    let program := assemble library blocks
    Origin.Increasing library.origins
      ∧ (∀ o, o ∈ library.origins ↔ o ∈ insertions.map Prod.fst)
      ∧ library.namespaces
        = library.origins.flatMap (Library.insertedUnder insertions)
      ∧ Placed library.namespaces blocks program
      ∧ ∀ units : List SourceUnit, (units.flatMap fun u => u.parse.blocks)
        = blocks →
          (Build.ofSources library units).program = program
            ∧ ((Build.ofSources library units).hasErrors = false →
              program.entryPoints
                = ((declsOfBlocks blocks).filter (marksEntryPoint program)).map
                    fun p => p.2.name) := by
  intro library program
  obtain ⟨hincreasing, hmem, -⟩ := Library.entries_ofInsertions insertions
  refine ⟨hincreasing, hmem, Library.namespaces_ofInsertions insertions,
    placed_assemble library blocks, ?_⟩
  rintro units rfl
  have hprogram : (Build.ofSources library units).program = program :=
    Build.program_ofSources library units
  refine ⟨hprogram, fun hclean => ?_⟩
  rw [← hprogram]
  exact entryPoints_of_clean hclean

/-- A header, and the mark of entry points under an earlier origin. -/
def markInsertions : List (Origin × List Namespace) :=
  [(.reference "lib.vl",
      namespacesOfBlocks (parseText "namespace D\x7bfunction F():Int;\x7d"
        (.reference "lib.vl")).blocks),
    (.reference "core.vl",
      namespacesOfBlocks
        (parseText "namespace Std.Core\x7bnewtype EntryPoint=Unit;\x7d"
          (.reference "core.vl")).blocks)]

/-- `M` carries the mark, and `N` a type of the same short name. -/
def markUnits : List SourceUnit :=
  [⟨.primary "a.vl",
      "namespace D\x7bopen Std.Core as C;@C.EntryPoint()operation M():Unit\x7b\x7d\x7d"⟩,
    ⟨.primary "b.vl",
      "namespace D\x7bnewtype EntryPoint=Int;@EntryPoint()operation N():Unit\x7b\x7d\x7d"⟩]

/-- Only what refers to the mark is an entry point, however it is written. -/
theorem assemble_conserves_mark :
    let library := Library.ofInsertions markInsertions
    let blocks := markUnits.flatMap fun u => u.parse.blocks
    let program := assemble library blocks
    library.origins = [.reference "core.vl", .reference "lib.vl"]
      ∧ (Build.ofSources library markUnits).hasErrors = false
      ∧ program.entryPoints = [⟨"D", "M"⟩]
      ∧ ((declsOfBlocks blocks).filter (marksEntryPoint program)).map
        (fun p => p.2.name)
        = [⟨"D", "M"⟩]
      ∧ Placed library.namespaces blocks program := by
  intro library blocks program
  obtain ⟨hclean, hentry⟩ : (Build.ofSources library markUnits).hasErrors
    = false
      ∧ program.entryPoints = [⟨"D", "M"⟩] := by decide +kernel
  obtain ⟨-, -, -, hplaced, hbuild⟩ := assemble_conserves markInsertions blocks
  have hmarked := (hbuild markUnits rfl).2 hclean
  exact ⟨by decide +kernel, hclean, hentry, hmarked.symm.trans hentry, hplaced⟩

end Exemplar
