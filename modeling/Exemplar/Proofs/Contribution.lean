import Mathlib.Data.List.Basic
import Exemplar.Program

/-!
# Contributing to namespaces

Programs are put together by one operation, `contribute`: declarations go
behind those of the first namespace with their name, or into a new namespace
at the end. Two readings of a list of namespaces say what it does.

- By name (`declsNamed`): a fold of contributions leaves, under each name,
  what was there followed by the contributions to that name, in order
  (`declsNamed_foldl_contribute`), and names stay distinct.
- As an extension (`Extends`): the old namespaces stay in place with
  declarations appended, and everything else is new and stands behind them
  (`Extends.contribute`).
-/

namespace Exemplar

/-! ## Names -/

theorem names_contribute (name : String) (doc : Doc) (decls : List Declaration)
    (nss : List Namespace) :
    (contribute name doc decls nss).map Namespace.name
      = if name ∈ nss.map Namespace.name then nss.map Namespace.name
        else nss.map Namespace.name ++ [name] := by
  induction nss with
  | nil => simp [contribute]
  | cons ns rest ih =>
      simp only [contribute]
      by_cases hns : ns.name = name
      · simp [hns]
      · simp only [if_neg hns, List.map_cons, ih, List.mem_cons,
          Ne.symm hns, false_or]
        split <;> simp

theorem mem_names_contribute {n name : String} {doc : Doc}
    {decls : List Declaration} {nss : List Namespace} :
    n ∈ (contribute name doc decls nss).map Namespace.name
      ↔ n = name ∨ n ∈ nss.map Namespace.name := by
  rw [names_contribute]
  split
  · next h => exact ⟨Or.inr, fun hn => hn.elim (fun heq => heq ▸ h) id⟩
  · rw [List.mem_append, List.mem_singleton, or_comm]

theorem nodup_names_contribute {name : String} {doc : Doc}
    {decls : List Declaration} {nss : List Namespace}
    (h : (nss.map Namespace.name).Nodup) :
    ((contribute name doc decls nss).map Namespace.name).Nodup := by
  rw [names_contribute]
  split
  · exact h
  · next hname =>
      refine List.nodup_append.mpr ⟨h, by simp, ?_⟩
      intro a ha b hb heq
      rw [List.mem_singleton.mp hb] at heq
      exact hname (heq ▸ ha)

/-! ## Declarations by name -/

/-- The declarations of the namespaces with the given name. -/
def declsNamed (n : String) (nss : List Namespace) : List Declaration :=
  (nss.filter fun ns => ns.name == n).flatMap Namespace.decls

theorem declsNamed_eq_nil {n : String} {nss : List Namespace}
    (h : n ∉ nss.map Namespace.name) : declsNamed n nss = [] := by
  rw [declsNamed, List.filter_eq_nil_iff.mpr, List.flatMap_nil]
  intro ns hns heq
  exact h (List.mem_map.mpr ⟨ns, hns, by simpa using heq⟩)

theorem declsNamed_cons (n : String) (ns : Namespace) (nss : List Namespace) :
    declsNamed n (ns :: nss) = (if ns.name = n then ns.decls else [])
      ++ declsNamed n nss := by
  by_cases hns : ns.name = n <;> simp [declsNamed, hns]

theorem declsNamed_contribute {nss : List Namespace}
    (h : (nss.map Namespace.name).Nodup) (n name : String) (doc : Doc)
    (decls : List Declaration) :
    declsNamed n (contribute name doc decls nss)
      = declsNamed n nss ++ if name = n then decls else [] := by
  induction nss with
  | nil => simp only [contribute, declsNamed_cons, declsNamed_eq_nil,
      List.map_nil, List.not_mem_nil, not_false_eq_true, List.append_nil,
      List.nil_append]
  | cons ns rest ih =>
      rw [List.map_cons, List.nodup_cons] at h
      simp only [contribute]
      by_cases hns : ns.name = name
      · rw [if_pos hns, declsNamed_cons, declsNamed_cons]
        by_cases hn : name = n
        -- names are distinct, so nothing of that name stands behind the first
        · have hrest : declsNamed n rest = [] :=
            declsNamed_eq_nil (hn ▸ hns ▸ h.1)
          simp [hns, hn, hrest]
        · simp [hns, hn]
      · rw [if_neg hns, declsNamed_cons, declsNamed_cons, ih h.2,
          List.append_assoc]

/-- Under distinct names, what stands under the name of a namespace is what
it holds. -/
theorem declsNamed_name {nss : List Namespace}
    (h : (nss.map Namespace.name).Nodup) {ns : Namespace} (hns : ns ∈ nss) :
    declsNamed ns.name nss = ns.decls := by
  induction nss with
  | nil => cases hns
  | cons ns' rest ih =>
      rw [List.map_cons, List.nodup_cons] at h
      rw [declsNamed_cons]
      rcases List.mem_cons.mp hns with rfl | hrest
      · rw [if_pos rfl, declsNamed_eq_nil h.1, List.append_nil]
      · have hne : ns'.name ≠ ns.name := fun heq =>
          h.1 (heq ▸ List.mem_map_of_mem hrest)
        rw [if_neg hne, ih h.2 hrest, List.nil_append]

section Fold

variable {α : Type} (name : α → String) (doc : α → Doc)
  (decls : α → List Declaration)

theorem nodup_names_foldl_contribute (as : List α) :
    ∀ (nss : List Namespace), (nss.map Namespace.name).Nodup →
      ((as.foldl (fun nss a => contribute (name a) (doc a) (decls a) nss)
        nss).map Namespace.name).Nodup := by
  induction as with
  | nil => exact fun _ h => h
  | cons a as ih => exact fun nss h => ih _ (nodup_names_contribute h)

theorem mem_names_foldl_contribute {n : String} (as : List α) :
    ∀ (nss : List Namespace),
      n ∈ (as.foldl (fun nss a => contribute (name a) (doc a) (decls a) nss)
        nss).map Namespace.name
        ↔ n ∈ nss.map Namespace.name ∨ n ∈ as.map name := by
  induction as with
  | nil => simp
  | cons a as ih =>
      intro nss
      rw [List.foldl_cons, ih, mem_names_contribute, List.map_cons,
        List.mem_cons, or_comm (a := n = name a), or_assoc]

theorem declsNamed_foldl_contribute (n : String) (as : List α) :
    ∀ (nss : List Namespace), (nss.map Namespace.name).Nodup →
      declsNamed n
        (as.foldl (fun nss a => contribute (name a) (doc a) (decls a) nss) nss)
        = declsNamed n nss
          ++ (as.filter fun a => name a == n).flatMap decls := by
  induction as with
  | nil => simp
  | cons a as ih =>
      intro nss h
      rw [List.foldl_cons, ih _ (nodup_names_contribute h),
        declsNamed_contribute h, List.append_assoc]
      by_cases ha : name a = n <;> simp [ha]

end Fold

/-! ## Extensions -/

def Namespace.append (ns : Namespace) (decls : List Declaration) : Namespace :=
  { ns with decls := ns.decls ++ decls }

/-- `result` is `host` with the declarations `added n` appended to each
namespace `n`, followed by new namespaces that hold what is added under their
own names and nothing else. -/
structure Extends (added : String → List Declaration)
    (host result fresh : List Namespace) :
    Prop where
  /-- The namespaces of the host come first, in order, with additions. -/
  eq_append : result = host.map (fun ns => ns.append (added ns.name)) ++ fresh
  /-- What comes behind them is new. -/
  name_not_mem : ∀ ns ∈ fresh, ns.name ∉ host.map Namespace.name
  /-- New namespaces hold additions, and at least one. -/
  decls_eq : ∀ ns ∈ fresh, ns.decls = added ns.name ∧ ns.decls ≠ []
  /-- New namespaces have distinct names. -/
  nodup : (fresh.map Namespace.name).Nodup
  /-- Nothing is added under a name without a namespace. -/
  covered : ∀ n, added n ≠ [] → n ∈ result.map Namespace.name

theorem Namespace.append_nil (ns : Namespace) : ns.append [] = ns := by
  simp [append]

theorem Extends.refl (host : List Namespace) :
    Extends (fun _ => []) host host [] where
  eq_append := by simp [Namespace.append_nil]
  name_not_mem := by simp
  decls_eq := by simp
  nodup := by simp
  covered := by simp

theorem contribute_append_of_mem {name : String} {doc : Doc}
    {decls : List Declaration} :
    ∀ {front : List Namespace} (back : List Namespace),
      name ∈ front.map Namespace.name →
      contribute name doc decls (front ++ back)
        = contribute name doc decls front ++ back
  | [], _, h => nomatch h
  | ns :: rest, back, h => by
      rw [List.cons_append, contribute, contribute]
      by_cases hns : ns.name = name
      · rw [if_pos hns, if_pos hns, List.cons_append]
      · have hrest : name ∈ rest.map Namespace.name :=
          (List.mem_cons.mp h).resolve_left (Ne.symm hns)
        rw [if_neg hns, if_neg hns, contribute_append_of_mem back hrest,
          List.cons_append]

theorem contribute_append_of_not_mem {name : String} {doc : Doc}
    {decls : List Declaration} :
    ∀ {front : List Namespace} (back : List Namespace),
      name ∉ front.map Namespace.name →
      contribute name doc decls (front ++ back)
        = front ++ contribute name doc decls back
  | [], _, _ => rfl
  | ns :: rest, back, h => by
      rw [List.map_cons, List.mem_cons, not_or] at h
      rw [List.cons_append, contribute, if_neg (Ne.symm h.1),
        contribute_append_of_not_mem back h.2, List.cons_append]

theorem contribute_cons_self (ns : Namespace) (added decls : List Declaration)
    (rest : List Namespace) :
    contribute ns.name [] decls (ns.append added :: rest)
      = ns.append (added ++ decls) :: rest := by
  obtain ⟨name, doc, old⟩ := ns
  cases doc <;> simp [contribute, Namespace.append]

/-- A contribution to a namespace of the host is one more addition there. -/
theorem contribute_map_append {name : String} {decls : List Declaration}
    (added : String → List Declaration) :
    ∀ {host : List Namespace}, (host.map Namespace.name).Nodup →
      name ∈ host.map Namespace.name →
        contribute name [] decls (host.map fun ns => ns.append (added ns.name))
          = host.map fun ns =>
          ns.append (added ns.name ++ if name = ns.name then decls else [])
  | [], _, h => nomatch h
  | ns :: rest, hnodup, h => by
      rw [List.map_cons, List.nodup_cons] at hnodup
      rw [List.map_cons, List.map_cons]
      by_cases hns : ns.name = name
      · have hrest : ∀ ns' ∈ rest, ¬name = ns'.name := fun ns' hns' heq =>
          hnodup.1 (hns.trans heq ▸ List.mem_map_of_mem hns')
        have hmap : (rest.map fun ns => ns.append (added ns.name))
            = rest.map fun ns =>
            ns.append (added ns.name ++ if name = ns.name then decls else []) :=
          List.map_congr_left fun ns' hns' => by rw [if_neg (hrest ns' hns'),
            List.append_nil]
        rw [← hns, contribute_cons_self, if_pos rfl, hns, hmap]
      · have hrest : name ∈ rest.map Namespace.name :=
          (List.mem_cons.mp h).resolve_left (Ne.symm hns)
        rw [contribute,
          if_neg (show ¬(ns.append (added ns.name)).name = name from hns),
          contribute_map_append added hnodup.2 hrest, if_neg (Ne.symm hns),
          List.append_nil]

theorem names_map_append (added : String → List Declaration)
    (host : List Namespace) :
    (host.map fun ns => ns.append (added ns.name)).map Namespace.name
      = host.map Namespace.name := by
  simp [Namespace.append, Function.comp_def]

section Contribute

variable {added : String → List Declaration}
  {host result fresh : List Namespace} {name : String}
    {decls : List Declaration}

theorem Extends.covered_contribute (hE : Extends added host result fresh)
    {n : String} (hn : (added n ++ if name = n then decls else []) ≠ []) :
    n ∈ (Exemplar.contribute name [] decls result).map Namespace.name := by
  rw [mem_names_contribute]
  by_cases heq : name = n
  · exact Or.inl heq.symm
  · rw [if_neg heq, List.append_nil] at hn
    exact Or.inr (hE.covered n hn)

/-- A contribution to a namespace of the host leaves the new ones alone. -/
theorem Extends.contribute_old (hE : Extends added host result fresh)
    (hhost : (host.map Namespace.name).Nodup)
    (hmem : name ∈ host.map Namespace.name) :
    Extends (fun n => added n ++ if name = n then decls else []) host
      (Exemplar.contribute name [] decls result) fresh := by
  refine ⟨?_, hE.name_not_mem, fun ns hns => ?_, hE.nodup,
    fun n hn => hE.covered_contribute hn⟩
  · rw [hE.eq_append,
      contribute_append_of_mem fresh (names_map_append added host ▸ hmem),
      contribute_map_append added hhost hmem]
  · have hne : ¬name = ns.name := fun heq => hE.name_not_mem ns hns (heq ▸ hmem)
    rw [if_neg hne, List.append_nil]
    exact hE.decls_eq ns hns

/-- What the new namespaces hold under a name that is not the host's. -/
theorem Extends.declsNamed_fresh (hE : Extends added host result fresh)
    {n : String} (hn : n ∉ host.map Namespace.name) :
    declsNamed n fresh = added n := by
  by_cases hfresh : n ∈ fresh.map Namespace.name
  · obtain ⟨ns, hns, rfl⟩ := List.mem_map.mp hfresh
    rw [declsNamed_name hE.nodup hns, (hE.decls_eq ns hns).1]
  · rw [declsNamed_eq_nil hfresh]
    apply Classical.byContradiction
    intro hne
    have hcov := hE.covered n (Ne.symm hne)
    rw [hE.eq_append, List.map_append, names_map_append] at hcov
    exact (List.mem_append.mp hcov).elim hn hfresh

/-- Another contribution goes to the new namespaces, or makes one more. -/
theorem Extends.contribute_new (hE : Extends added host result fresh)
    (hmem : name ∉ host.map Namespace.name) (hdecls : decls ≠ []) :
    Extends (fun n => added n ++ if name = n then decls else []) host
      (Exemplar.contribute name [] decls result)
        (Exemplar.contribute name [] decls fresh) := by
  have hfresh :
      ((Exemplar.contribute name [] decls fresh).map Namespace.name).Nodup :=
    nodup_names_contribute hE.nodup
  have hnew : ∀ ns ∈ Exemplar.contribute name [] decls fresh,
      ns.name ∉ host.map Namespace.name := by
    intro ns hns
    rcases mem_names_contribute.mp (List.mem_map_of_mem hns) with heq | hn
    · rw [heq]
      exact hmem
    · obtain ⟨ns', hns', heq⟩ := List.mem_map.mp hn
      rw [← heq]
      exact hE.name_not_mem ns' hns'
  refine ⟨?_, hnew, fun ns hns => ?_, hfresh,
    fun n hn => hE.covered_contribute hn⟩
  · rw [hE.eq_append,
      contribute_append_of_not_mem fresh (names_map_append added host ▸ hmem)]
    congr 1
    refine List.map_congr_left fun ns hns => ?_
    have hne : ¬name = ns.name := fun heq =>
      hmem (heq ▸ List.mem_map_of_mem hns)
    rw [if_neg hne, List.append_nil]
  · have heq : ns.decls
        = added ns.name ++ if name = ns.name then decls else [] := by
      rw [← declsNamed_name hfresh hns, declsNamed_contribute hE.nodup,
        hE.declsNamed_fresh (hnew ns hns)]
    refine ⟨heq, ?_⟩
    rw [heq]
    by_cases hname : name = ns.name
    · rw [if_pos hname]
      exact fun h => hdecls (List.append_eq_nil_iff.mp h).2
    · -- it was there before, and not empty
      have hold : ns.name ∈ fresh.map Namespace.name :=
        (mem_names_contribute.mp (List.mem_map_of_mem hns)).resolve_left
          (Ne.symm hname)
      obtain ⟨ns', hns', hname'⟩ := List.mem_map.mp hold
      rw [if_neg hname, List.append_nil, ← hname', ← (hE.decls_eq ns' hns').1]
      exact (hE.decls_eq ns' hns').2

/-- One contribution extends an extension. -/
theorem Extends.contribute (hE : Extends added host result fresh)
    (hhost : (host.map Namespace.name).Nodup) (name : String)
    (hdecls : decls ≠ []) :
    ∃ fresh', Extends (fun n => added n ++ if name = n then decls else []) host
      (contribute name [] decls result) fresh' := by
  by_cases hmem : name ∈ host.map Namespace.name
  · exact ⟨fresh, hE.contribute_old hhost hmem⟩
  · exact ⟨_, hE.contribute_new hmem hdecls⟩

end Contribute

/-! ## Nothing is lost or doubled -/

/-- Sorting by distinct keys, one key after the other, only reorders. -/
theorem perm_flatMap_filter {α κ : Type} [BEq κ] [LawfulBEq κ] (key : α → κ) :
    ∀ {names : List κ} {as : List α}, names.Nodup → (∀ a ∈ as, key a ∈ names) →
      (names.flatMap fun n => as.filter fun a => key a == n).Perm as
  | [], as, _, hkeys => by
      cases as with
      | nil => exact .refl _
      | cons a as => exact absurd (hkeys a (by simp)) List.not_mem_nil
  | n :: names, as, hnodup, hkeys => by
      rw [List.nodup_cons] at hnodup
      have hothers : (names.flatMap fun m => as.filter fun a => key a == m)
          = names.flatMap fun m => (as.filter fun a => !(key a == n)).filter
              fun a => key a == m := by
        refine List.flatMap_congr fun m hm => ?_
        rw [List.filter_filter]
        refine List.filter_congr fun a _ => ?_
        by_cases ha : key a = m
        · have hne : m ≠ n := fun heq => hnodup.1 (heq ▸ hm)
          simp [ha, hne]
        · simp [ha]
      rw [List.flatMap_cons, hothers]
      refine .trans (.append_left _ (perm_flatMap_filter key hnodup.2 ?_))
        (List.filter_append_perm (fun a => key a == n) as)
      intro a ha
      obtain ⟨hmem, hne⟩ := List.mem_filter.mp ha
      exact (List.mem_cons.mp (hkeys a hmem)).resolve_left (by simpa using hne)

theorem Extends.names_eq {added : String → List Declaration}
    {host result fresh : List Namespace}
    (hE : Extends added host result fresh) :
    result.map Namespace.name = host.map Namespace.name
      ++ fresh.map Namespace.name := by
  rw [hE.eq_append, List.map_append, names_map_append]

/-- Names stay distinct. -/
theorem Extends.nodup_names {added : String → List Declaration}
    {host result fresh : List Namespace} (hE : Extends added host result fresh)
    (hhost : (host.map Namespace.name).Nodup) :
    (result.map Namespace.name).Nodup := by
  rw [hE.names_eq, List.nodup_append]
  refine ⟨hhost, hE.nodup, fun n hn m hm heq => ?_⟩
  obtain ⟨ns, hns, rfl⟩ := List.mem_map.mp hm
  exact hE.name_not_mem ns hns (heq ▸ hn)

/-- If what is added under each name is what has that key, then everything is
added, and once. -/
theorem Extends.perm_added {added : String → List Declaration}
    {host result fresh : List Namespace} (hE : Extends added host result fresh)
    (hhost : (host.map Namespace.name).Nodup) {α : Type} {key : α → String}
    {f : α → Declaration} {as : List α}
    (hadded : ∀ n, added n = (as.filter fun a => key a == n).map f) :
    (host.flatMap (fun ns => added ns.name)
      ++ fresh.flatMap Namespace.decls).Perm
      (as.map f) := by
  have hnames := hE.names_eq
  have hnodup := hE.nodup_names hhost
  have hkeys : ∀ a ∈ as, key a ∈ result.map Namespace.name := by
    intro a ha
    apply hE.covered
    rw [hadded]
    intro hnil
    have hmem : a ∈ as.filter fun a' => key a' == key a :=
      List.mem_filter.mpr ⟨ha, by simp⟩
    rw [List.map_eq_nil_iff.mp hnil] at hmem
    cases hmem
  have hall : host.flatMap (fun ns => added ns.name)
    ++ fresh.flatMap Namespace.decls
      = ((result.map Namespace.name).flatMap fun n => as.filter fun a =>
        key a == n).map f := by
    have hfresh : fresh.flatMap Namespace.decls = fresh.flatMap fun ns =>
      added ns.name :=
      List.flatMap_congr fun ns hns => (hE.decls_eq ns hns).1
    rw [hfresh, ← List.flatMap_append, hnames, ← List.map_append,
      List.flatMap_map, List.map_flatMap]
    exact List.flatMap_congr fun ns _ => hadded ns.name
  rw [hall]
  exact (perm_flatMap_filter key hnodup hkeys).map f

end Exemplar
