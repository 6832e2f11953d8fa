import Exemplar.Assembly
import Exemplar.Proofs.Contribution

/-!
# Renaming in place

Assembly puts blocks into namespaces as they were written, collects what is to
be renamed by position, and renames afterwards. The result is what one gets
from blocks whose attributes are renamed before they are put anywhere
(`assemble_eq`), and that is how everything else looks at it.

Three facts about a block carry the proof, by induction on the blocks:

- renames at the positions of a block turn what was contributed into the
  renamed block (`foldl_apply_renames`);
- they stay below what later blocks contribute, so it makes no difference
  when they are applied (`foldl_apply_foldl_contribute`);
- they leave names and numbers of declarations as they are, and positions
  depend on nothing else (`placements_congr`).
-/

namespace Exemplar

/-- The attribute under the full name of the type it refers to. -/
def View.resolveAttribute (v : View) (a : Attribute) : Attribute :=
  { a with name := (v.attributeName? a.name).getD a.name }

/-- The block with its attributes under their full names. -/
def Block.resolveAttributes (program : Program) (block : Block) : Block :=
  let view := View.ofBlock program block
  { block with
    decls := block.decls.map
      (Declaration.mapAttributes view.resolveAttribute) }

/-! ## Changes at an index -/

theorem modify_append_of_lt {α : Type} {f : α → α} {front : List α} {i : Nat}
    (h : i < front.length) (back : List α) :
    (front ++ back).modify i f = front.modify i f ++ back := by
  induction front generalizing i with
  | nil => cases h
  | cons a front ih =>
      cases i with
      | zero => rfl
      | succ i =>
          rw [List.cons_append, List.modify_succ_cons, List.modify_succ_cons,
            ih (Nat.lt_of_succ_lt_succ h), List.cons_append]

theorem modify_append_cons {α : Type} (f : α → α)
    (front back : List α) (a : α) :
    (front ++ a :: back).modify front.length f = front ++ f a :: back :=
  List.modifyTailIdx_add (List.modifyHead f) 0 front (a :: back)

/-- Changes at one index, one after the other, are one change there. -/
theorem foldl_modify {α β : Type} {i : Nat} {index : β → Nat}
    (change : β → α → α) :
    ∀ {bs : List β} (as : List α), (∀ b ∈ bs, index b = i) →
      bs.foldl (fun as b => as.modify (index b) (change b)) as
        = as.modify i fun a => bs.foldl (fun a b => change b a) a
  | [], as, _ => (List.modify_id i as).symm
  | b :: bs, as, h => by
      rw [List.foldl_cons, foldl_modify change _ fun b hb =>
        h b (List.mem_cons_of_mem _ hb), h b List.mem_cons_self,
          List.modify_modify_eq]
      rfl

/-! ## Renaming a block -/

section Renames

variable (view : View) (space decl : Nat)

theorem of_mem_attributeRenames {attributes : List (Attribute × Nat)}
    {r : Rename}
    (h : r ∈ attributes.filterMap (attributeRename? view space decl)) :
    r.space = space ∧ r.decl = decl := by
  obtain ⟨⟨a, position⟩, -, hr⟩ := List.mem_filterMap.mp h
  obtain ⟨name, -, rfl⟩ := Option.map_eq_some_iff.mp hr
  exact ⟨rfl, rfl⟩

/-- Either an attribute gets a new name, or the one it has is the full one. -/
theorem resolveAttribute_eq (a : Attribute) :
    view.resolveAttribute a = (view.newName? a).elim a fun name =>
      { a with name := name } := by
  rw [View.resolveAttribute, View.newName?]
  cases view.attributeName? a.name with
  | none => rfl
  | some name =>
      by_cases heq : name = a.name
      · simp [heq, Option.filter]
      · simp [heq, Option.filter]

/-- The attributes behind `front`, renamed at their positions. -/
theorem foldl_modify_attributes (attributes front : List Attribute) :
    ((attributes.zipIdx front.length).filterMap
      (attributeRename? view space decl)).foldl
      (fun as r => as.modify r.position fun a => { a with name := r.name })
      (front ++ attributes)
      = front ++ attributes.map view.resolveAttribute := by
  induction attributes generalizing front with
  | nil => rfl
  | cons a attributes ih =>
      have hrest := ih (front ++ [view.resolveAttribute a])
      rw [List.length_append, List.length_singleton, List.append_assoc,
        List.append_assoc, List.singleton_append, List.singleton_append,
        resolveAttribute_eq] at hrest
      rw [List.zipIdx_cons, List.map_cons, resolveAttribute_eq, ← hrest]
      cases hname : view.newName? a with
      | none =>
          have hrename : attributeRename? view space decl (a, front.length)
              = none := by
            rw [attributeRename?, hname, Option.map_none]
          rw [List.filterMap_cons_none hrename, Option.elim_none]
      | some name =>
          have hrename : attributeRename? view space decl (a, front.length)
              = some ⟨space, decl, front.length, name⟩ := by
            rw [attributeRename?, hname, Option.map_some]
          rw [List.filterMap_cons_some hrename, List.foldl_cons,
            modify_append_cons, Option.elim_some]

theorem foldl_inDecl (rs : List Rename) (d : Declaration) :
    rs.foldl (fun d r => r.inDecl d) d
      = d.updateAttributes fun attributes => rs.foldl
          (fun as r => as.modify r.position fun a => { a with name := r.name })
            attributes := by
  obtain ⟨name, doc, origin, span, detail⟩ := d
  induction rs generalizing detail with
  | nil => cases detail <;> rfl
  | cons r rs ih =>
      rw [List.foldl_cons]
      cases detail <;> exact ih _

/-- A declaration, its attributes renamed at their positions. -/
theorem foldl_inDecl_attributeRenames (d : Declaration) :
    (d.attributes.zipIdx.filterMap (attributeRename? view space decl)).foldl
      (fun d r => r.inDecl d) d
      = d.mapAttributes view.resolveAttribute := by
  rw [foldl_inDecl]
  obtain ⟨name, doc, origin, span, detail⟩ := d
  cases detail with
  | newtype underlying attributes =>
      exact congrArg (fun as =>
        Declaration.mk name doc origin span (.newtype underlying as))
          (foldl_modify_attributes view space decl attributes [])
  | callable c =>
      exact congrArg
        (fun as => Declaration.mk name doc origin span
          (.callable { c with attributes := as }))
        (foldl_modify_attributes view space decl c.attributes [])
  | specialization => rfl

/-- The declarations behind `front`, with their attributes renamed. -/
theorem foldl_modify_decls (decls front : List Declaration) :
    ((decls.zipIdx front.length).flatMap fun (d, decl) =>
        d.attributes.zipIdx.filterMap (attributeRename? view space decl)).foldl
      (fun ds r => ds.modify r.decl r.inDecl) (front ++ decls)
      = front ++ decls.map
        (Declaration.mapAttributes view.resolveAttribute) := by
  induction decls generalizing front with
  | nil => rfl
  | cons d decls ih =>
      have hrest := ih (front ++ [d.mapAttributes view.resolveAttribute])
      rw [List.length_append, List.length_singleton, List.append_assoc,
        List.append_assoc, List.singleton_append,
        List.singleton_append] at hrest
      rw [List.zipIdx_cons, List.flatMap_cons, List.foldl_append,
        List.map_cons, ← hrest, foldl_modify Rename.inDecl _ fun r hr =>
        (of_mem_attributeRenames view space _ hr).2, modify_append_cons,
          foldl_inDecl_attributeRenames]

end Renames

/-! ## Positions -/

theorem declsAt_cons_succ (i : Nat) (ns : Namespace) (nss : List Namespace) :
    declsAt (i + 1) (ns :: nss) = declsAt i nss := rfl

/-- A contribution goes behind what stands at the index of its name. -/
theorem declsAt_contribute (name : String) (doc : Doc)
    (decls : List Declaration) :
    ∀ (nss : List Namespace) (i : Nat),
      declsAt i (contribute name doc decls nss)
        = declsAt i nss ++ if i = spaceIndex name nss then decls else []
  | [], 0 => rfl
  | [], _ + 1 => rfl
  | ns :: nss, i => by
      rw [contribute, spaceIndex, List.findIdx_cons]
      by_cases hns : ns.name = name
      · rw [if_pos hns, beq_iff_eq.mpr hns]
        cases i with
        | zero => rfl
        | succ i => exact (List.append_nil _).symm
      · rw [if_neg hns, beq_eq_false_iff_ne.mpr hns]
        cases i with
        | zero => exact (List.append_nil _).symm
        | succ i =>
            rw [declsAt_cons_succ, declsAt_cons_succ,
              declsAt_contribute name doc decls nss i]
            exact congrArg _ (if_congr Nat.succ_inj.symm rfl rfl)

/-- What a contribution puts at the index of its name, changed there, is
another contribution. -/
theorem modify_contribute {name : String} {doc : Doc}
    {decls decls' : List Declaration}
    (change : List Declaration → List Declaration) :
    ∀ {nss : List Namespace},
      change (declsAt (spaceIndex name nss) nss ++ decls)
          = declsAt (spaceIndex name nss) nss ++ decls' →
        (contribute name doc decls nss).modify (spaceIndex name nss)
            (fun ns => { ns with decls := change ns.decls })
          = contribute name doc decls' nss
  | [], h => congrArg (fun ds => [Namespace.mk name doc ds]) h
  | ns :: nss, h => by
      rw [spaceIndex, List.findIdx_cons] at h ⊢
      rw [contribute, contribute]
      by_cases hns : ns.name = name
      · rw [beq_iff_eq.mpr hns] at h ⊢
        rw [if_pos hns, if_pos hns, cond_true, List.modify_zero_cons]
        exact congrArg (· :: nss) (congrArg (Namespace.mk ns.name _) h)
      · rw [beq_eq_false_iff_ne.mpr hns] at h ⊢
        rw [if_neg hns, if_neg hns, cond_false, List.modify_succ_cons]
        exact congrArg (ns :: ·) (modify_contribute change h)

/-- The renames of a block, applied where the block was put, rename it. -/
theorem foldl_apply_renames (program : Program) (b : Block)
    (nss : List Namespace) :
    ((Placement.mk b (spaceIndex b.name nss)
        (declsAt (spaceIndex b.name nss) nss).length).renames program).foldl
          (fun nss r => r.apply nss)
      (contribute b.name b.doc b.decls nss)
      = contribute b.name b.doc (b.resolveAttributes program).decls nss := by
  have hspace : ∀ r ∈ (Placement.mk b (spaceIndex b.name nss)
      (declsAt (spaceIndex b.name nss) nss).length).renames program,
      r.space = spaceIndex b.name nss := by
    intro r hr
    obtain ⟨_, -, hr⟩ := List.mem_flatMap.mp hr
    exact (of_mem_attributeRenames _ _ _ hr).1
  have hfold : ∀ (rs : List Rename) (ns : Namespace),
      rs.foldl (fun ns r =>
        { ns with decls := ns.decls.modify r.decl r.inDecl }) ns
        = { ns with
            decls := rs.foldl (fun ds r => ds.modify r.decl r.inDecl)
              ns.decls } := by
    intro rs
    induction rs with
    | nil => exact fun _ => rfl
    | cons r rs ih => exact fun ns => ih _
  have happly := foldl_modify
    (fun (r : Rename) (ns : Namespace) =>
      { ns with decls := ns.decls.modify r.decl r.inDecl })
    (contribute b.name b.doc b.decls nss) hspace
  rw [funext (hfold _)] at happly
  exact happly.trans (modify_contribute
    (fun ds =>
      List.foldl (fun ds (r : Rename) => ds.modify r.decl r.inDecl) ds _)
    (foldl_modify_decls (.ofBlock program b) _ b.decls _))

/-! ## Renames and contributions -/

/-- Nothing changes at an index but at that of the rename, and there the
number of declarations stays. -/
theorem length_declsAt_apply (r : Rename) :
    ∀ (nss : List Namespace) (i : Nat),
      (declsAt i (r.apply nss)).length = (declsAt i nss).length := by
  intro nss i
  rw [declsAt, declsAt, Rename.apply, List.getElem?_modify]
  cases nss[i]? with
  | none => rfl
  | some ns =>
      by_cases hi : r.space = i
      · simp [hi]
      · simp [hi]

/-- A change to what is there does not depend on what comes behind it. -/
theorem modify_contribute_of_lt {name : String} {doc : Doc}
    {decls : List Declaration} (change : Declaration → Declaration)
    {decl : Nat} :
    ∀ {nss : List Namespace} {space : Nat}, decl < (declsAt space nss).length →
      (contribute name doc decls nss).modify space
          (fun ns => { ns with decls := ns.decls.modify decl change })
        = contribute name doc decls
            (nss.modify space fun ns =>
              { ns with decls := ns.decls.modify decl change })
  | [], _, h => nomatch h
  | ns :: nss, 0, h => by
      rw [List.modify_zero_cons, contribute, contribute]
      by_cases hns : ns.name = name
      · have hmodify : (ns.decls ++ decls).modify decl change
            = ns.decls.modify decl change ++ decls :=
            modify_append_of_lt h decls
        rw [if_pos hns, if_pos hns, List.modify_zero_cons, hmodify]
      · rw [if_neg hns, if_neg hns, List.modify_zero_cons]
  | ns :: nss, space + 1, h => by
      rw [List.modify_succ_cons, contribute, contribute]
      by_cases hns : ns.name = name
      · rw [if_pos hns, if_pos hns, List.modify_succ_cons]
      · rw [declsAt_cons_succ] at h
        rw [if_neg hns, if_neg hns, List.modify_succ_cons,
          modify_contribute_of_lt change h]

theorem apply_contribute {name : String} {doc : Doc} {decls : List Declaration}
    {r : Rename} {nss : List Namespace}
    (h : r.decl < (declsAt r.space nss).length) :
    r.apply (contribute name doc decls nss)
      = contribute name doc decls (r.apply nss) :=
  modify_contribute_of_lt r.inDecl h

theorem foldl_apply_contribute {name : String} {doc : Doc}
    {decls : List Declaration} :
    ∀ {rs : List Rename} {nss : List Namespace},
      (∀ r ∈ rs, r.decl < (declsAt r.space nss).length) →
        rs.foldl (fun nss r => r.apply nss) (contribute name doc decls nss)
          = contribute name doc decls (rs.foldl (fun nss r => r.apply nss) nss)
  | [], _, _ => rfl
  | r :: rs, nss, h => by
      rw [List.foldl_cons, apply_contribute (h r List.mem_cons_self),
        List.foldl_cons]
      refine foldl_apply_contribute fun r' hr' => ?_
      rw [length_declsAt_apply]
      exact h r' (List.mem_cons_of_mem _ hr')

/-- What stands in namespaces stays in front of what is contributed. -/
theorem declsAt_prefix_foldl_contribute (i : Nat) (blocks : List Block) :
    ∀ nss : List Namespace, declsAt i nss
      <+: declsAt i
        (blocks.foldl (fun nss b => contribute b.name b.doc b.decls nss)
          nss) := by
  induction blocks with
  | nil => exact fun _ => List.prefix_rfl
  | cons b blocks ih =>
      intro nss
      refine .trans ?_ (ih _)
      rw [declsAt_contribute]
      exact List.prefix_append ..

/-- Renames of what is there come to the same before and after blocks. -/
theorem foldl_apply_foldl_contribute (blocks : List Block) {rs : List Rename} :
    ∀ {nss : List Namespace},
      (∀ r ∈ rs, r.decl < (declsAt r.space nss).length) →
      rs.foldl (fun nss r => r.apply nss)
          (blocks.foldl (fun nss b => contribute b.name b.doc b.decls nss) nss)
        = blocks.foldl (fun nss b => contribute b.name b.doc b.decls nss)
            (rs.foldl (fun nss r => r.apply nss) nss) := by
  induction blocks with
  | nil => exact fun _ => rfl
  | cons b blocks ih =>
      intro nss h
      rw [List.foldl_cons, List.foldl_cons, ih fun r hr => ?_,
        foldl_apply_contribute h]
      rw [declsAt_contribute, List.length_append]
      exact Nat.lt_add_right _ (h r hr)

/-! ## What positions depend on -/

/-- Namespaces with the same names and numbers of declarations, in order. -/
structure SameShape (nss nss' : List Namespace) : Prop where
  names : nss.map Namespace.name = nss'.map Namespace.name
  lengths : ∀ i, (declsAt i nss).length = (declsAt i nss').length

theorem spaceIndex_eq_findIdx (name : String) (nss : List Namespace) :
    spaceIndex name nss = (nss.map Namespace.name).findIdx fun n =>
      n == name := by
  rw [List.findIdx_map]
  rfl

theorem SameShape.spaceIndex_eq {nss nss' : List Namespace}
    (h : SameShape nss nss') (name : String) :
    spaceIndex name nss = spaceIndex name nss' := by
  rw [spaceIndex_eq_findIdx, h.names, ← spaceIndex_eq_findIdx]

theorem SameShape.contribute {nss nss' : List Namespace}
    (h : SameShape nss nss') (name : String) (doc : Doc)
    {decls decls' : List Declaration} (hlength : decls.length = decls'.length) :
    SameShape (contribute name doc decls nss) (contribute name doc decls' nss')
      where
  names := by rw [names_contribute, names_contribute, h.names]
  lengths i := by
    rw [declsAt_contribute, declsAt_contribute, List.length_append,
      List.length_append, h.lengths, h.spaceIndex_eq]
    split
    · rw [hlength]
    · rfl

theorem placements_congr (blocks : List Block) :
    ∀ {nss nss' : List Namespace}, SameShape nss nss' →
      placements nss blocks = placements nss' blocks := by
  induction blocks with
  | nil => exact fun _ => rfl
  | cons b blocks ih =>
      intro nss nss' h
      rw [placements, placements, h.spaceIndex_eq, h.lengths,
        ih (h.contribute _ _ rfl)]

/-! ## Assembly -/

section Assemble

variable (program : Program)

theorem placements_resolveAttributes (b : Block) (blocks : List Block)
    (nss : List Namespace) :
    placements (contribute b.name b.doc (b.resolveAttributes program).decls nss)
      blocks
      = placements (contribute b.name b.doc b.decls nss) blocks :=
  placements_congr blocks
    (SameShape.contribute ⟨rfl, fun _ => rfl⟩ _ _ (List.length_map ..))

/-- The renames of a block address declarations that the block has put
there. -/
theorem lt_length_of_mem_renames {b : Block} {nss : List Namespace} {r : Rename}
    (h : r ∈ (Placement.mk b (spaceIndex b.name nss)
      (declsAt (spaceIndex b.name nss) nss).length).renames program) :
    r.decl
      < (declsAt r.space (contribute b.name b.doc b.decls nss)).length := by
  obtain ⟨⟨d, decl⟩, hd, hr⟩ := List.mem_flatMap.mp h
  obtain ⟨hspace, rfl⟩ := of_mem_attributeRenames _ _ _ hr
  rw [hspace, declsAt_contribute, if_pos rfl, List.length_append]
  exact (List.mem_zipIdx hd).2.1

/-- Renaming in place what blocks have put there is putting renamed blocks
there. -/
theorem foldl_apply_placements (blocks : List Block) :
    ∀ nss : List Namespace,
      ((placements nss blocks).flatMap (Placement.renames program)).foldl
          (fun nss r => r.apply nss)
          (blocks.foldl (fun nss b => contribute b.name b.doc b.decls nss) nss)
        = (blocks.map (Block.resolveAttributes program)).foldl
            (fun nss b => contribute b.name b.doc b.decls nss) nss := by
  induction blocks with
  | nil => exact fun _ => rfl
  | cons b blocks ih =>
      intro nss
      rw [placements, List.flatMap_cons, List.foldl_append, List.foldl_cons,
        List.map_cons, List.foldl_cons,
        foldl_apply_foldl_contribute blocks fun r hr =>
        lt_length_of_mem_renames program hr, foldl_apply_renames,
          ← placements_resolveAttributes program]
      exact ih _

/-- Where a block was put there are, after renaming, its renamed
declarations. -/
theorem flatMap_declsIn_placements (blocks : List Block) :
    ∀ nss : List Namespace,
      ((placements nss blocks).flatMap fun p =>
          p.declsIn ((blocks.map (Block.resolveAttributes program)).foldl
            (fun nss b => contribute b.name b.doc b.decls nss) nss))
        = (blocks.map (Block.resolveAttributes program)).flatMap
          Block.decls := by
  induction blocks with
  | nil => exact fun _ => rfl
  | cons b blocks ih =>
      intro nss
      have hfirst : (declsAt (spaceIndex b.name nss) nss
            ++ (b.resolveAttributes program).decls)
          <+: declsAt (spaceIndex b.name nss)
            (((b :: blocks).map (Block.resolveAttributes program)).foldl
              (fun nss b => contribute b.name b.doc b.decls nss) nss) := by
        have hprefix := declsAt_prefix_foldl_contribute (spaceIndex b.name nss)
          (blocks.map (Block.resolveAttributes program))
          (contribute b.name b.doc (b.resolveAttributes program).decls nss)
        rw [declsAt_contribute, if_pos rfl] at hprefix
        exact hprefix
      obtain ⟨more, hmore⟩ := hfirst
      have hlength : b.decls.length
          = (b.resolveAttributes program).decls.length :=
        (List.length_map ..).symm
      rw [placements, List.flatMap_cons, List.map_cons, List.flatMap_cons,
        ← List.map_cons, Placement.declsIn, ← hmore, List.append_assoc,
        List.drop_left, hlength, List.take_left,
        ← placements_resolveAttributes program]
      exact congrArg _ (ih _)

end Assemble

/-- **Renaming in place.** Assembly gives what the blocks give when their
attributes are renamed before they are put into namespaces. -/
theorem assemble_eq (library : Library) (blocks : List Block) :
    let resolved :=
      blocks.map (Block.resolveAttributes ⟨placeBlocks library blocks, []⟩)
    assemble library blocks
      = ⟨placeBlocks library resolved,
        ((resolved.flatMap Block.decls).filter Declaration.isEntryPoint).map
          Declaration.name⟩ := by
  intro resolved
  simp only [assemble, placeBlocks]
  rw [foldl_apply_placements, flatMap_declsIn_placements]
  rfl

end Exemplar
