import Exemplar.Proofs.Grammar.Recovery

/-!
# Items and where they stand

A declaration stands in the namespaces around the tokens it was read from
(`StandsIn`). The readers of items stay where they are, so the items of a block
stand where its first one does, up to the brace that closes the block
(`itemsUpTo_stands`).
-/

namespace Exemplar

open Reading

namespace Reading

variable {ts x : List Token} {base : List (Option String)} {n k : Nat}
  {c c' : Cursor}

/-! ## Items -/

theorem stays_bodyOrHeader : Stays ts base n k false anyToken bodyOrHeader := by
  refine .eat_bind rfl .pure (.peek_bind fun kind => ?_)
  split
  · exact .bind stays_body.of_any fun _ => .pure
  · exact .expected

theorem stays_callable {kind : Kind} (hkind : kind.passes true = true)
    (ctx : Context) (what : CallableKind) (doc : Doc)
    (attributes : List Attribute) :
    Stays ts base n k true (fun t => t.kind = kind)
      (callable ctx what doc attributes) :=
  .offset_bind fun _ => .advance_bind hkind (.name_bind fun _ => .mark_bind rfl
    (.bind (.of_takes takes_params nofun) fun _ => .mark_bind rfl
      (.mark_bind rfl (.bind (.of_takes takes_type nofun) fun _ =>
            .bind stays_bodyOrHeader fun _ =>
        .spanFrom_bind fun _ => .pure))))

theorem stays_specialization {kind : Kind} (hkind : kind.passes true = true)
    (ctx : Context) (variant : Variant) (doc : Doc) :
    Stays ts base n k true (fun t => t.kind = kind)
      (specialization ctx variant doc) :=
  .offset_bind fun _ =>
    .advance_bind hkind (.bind (.of_takes takes_path nofun) fun _ =>
    .bind stays_bodyOrHeader fun _ => .spanFrom_bind fun _ => .pure)

theorem stays_attributed (ctx : Context) (doc : Doc) :
    Stays ts base n k true anyToken (attributed ctx doc) := by
  refine .bind (.of_takes takes_attributes nofun) fun p =>
    .peek_bind fun kind => ?_
  split
  · exact .of_takes (takes_newtype ctx _ _).of_any fun _ _ h =>
      h.2.2.encloses.ne_nil rfl
  · exact stays_callable rfl ..
  · exact stays_callable rfl ..
  · exact .expected

theorem stays_item (ctx : Context) (doc : Doc) :
    Stays ts base n k true anyToken (item ctx doc) := by
  refine .peek_bind fun kind => ?_
  split
  · exact .bind_moved (.of_takes takes_openDirective.of_any fun _ _ h =>
        h.ne_nil rfl) fun _ =>
      .pure
  · exact .fault
  · exact .bind_moved (stays_specialization rfl ..) fun _ => .pure
  · exact .bind_moved (stays_specialization rfl ..) fun _ => .pure
  · exact .bind_moved (stays_attributed ctx doc).of_any fun _ => .pure
  · exact .bind_moved (stays_attributed ctx doc).of_any fun _ => .pure
  · exact .bind_moved (stays_attributed ctx doc).of_any fun _ => .pure
  · exact .bind_moved (stays_attributed ctx doc).of_any fun _ => .pure
  · exact .expected

/-- A declaration starts at one of the tokens it is read from. -/
theorem exists_start_item {us : List Token} {ctx : Context} {doc : Doc}
    {d : Declaration} (hc : c.Closed) (hus : c.ahead = us ++ c'.ahead)
    (h : item ctx doc c = .read (.decl d) c') :
    ∃ t ∈ us, t.span.start = d.span.start := by
  obtain ⟨vs, hpast, hitem⟩ :=
    (takes_item (p := .any) ctx doc).of_read hc trivial h
  obtain rfl := List.append_cancel_right (hus.symm.trans hpast.ahead)
  obtain ⟨-, hitem⟩ := hitem trivial
  cases hitem with
  | decl attributes decl =>
      obtain ⟨t, ht, hstart⟩ := Option.map_eq_some_iff.mp decl.encloses.start
      exact ⟨t, List.mem_append_right _ (List.mem_of_mem_head? ht), hstart⟩

end Reading

/-- The tokens from which the declaration was read, its documentation
included, stand in the given namespaces. -/
def StandsIn (ts : List Token) (ctx : Context) (names : List String)
    (d : Declaration) : Prop :=
  ∃ x ds y, ts = x ++ ds ++ y ∧ Around names x ds
    ∧ (∃ t ∈ ds, t.span.start = d.span.start)
    ∧ ∃ c c', c.ahead = ds ++ y ∧ c'.ahead = y
      ∧ (docs >>= item ctx) c = .read (.decl d) c'

namespace Reading

variable {ts x us : List Token} {base : List (Option String)} {c c₁ c₂ : Cursor}
  {lines : List String}

theorem mem_decls_addTo {i : Item} {block : Block} {d : Declaration}
    (h : d ∈ (i.addTo block).decls) : d ∈ block.decls ∨ i = .decl d := by
  cases i with
  | opening o => exact Or.inl h
  | decl d' =>
      rcases List.mem_append.mp h with h | h
      · exact Or.inl h
      · rw [List.mem_singleton.mp h]
        exact Or.inr rfl

theorem inside_docs (hc : c.Inside ts base x)
    (hdocs : docs c = .read lines c₁) :
    ∃ us, c₁.Inside ts base (x ++ us) ∧ Around (namesOf base) x us := by
  obtain ⟨us, hpast, -⟩ :=
    (takes_docs (p := .any)).of_read hc.closed trivial hdocs
  exact ⟨us, hc.past hpast⟩

/-- An item that is read stands where its reader does. -/
theorem standsIn_item {ctx : Context} {i : Item} (hc : c.Inside ts base x)
    (hdocs : docs c = .read lines c₁) (hread : item ctx lines c₁ = .read i c₂)
    (hs : Sound ts c₂.faults) :
    ∃ us, us ≠ [] ∧ c₂.Inside ts base (x ++ us)
      ∧ ∀ d, i = .decl d → StandsIn ts ctx (namesOf base) d := by
  have hitem : ∀ n, Stays ts base n 0 true anyToken (item ctx lines) :=
    fun n => stays_item ctx lines
  obtain ⟨us, hc₁, haround⟩ := inside_docs hc hdocs
  obtain ⟨vs, hc₂, haround₂, hne⟩ :=
    (hitem _).read hc₁ (Nat.le_refl _) trivial hread hs
  refine ⟨us ++ vs, List.append_ne_nil_of_right_ne_nil _ (hne rfl), ?_, ?_⟩
  · rwa [← List.append_assoc]
  · rintro d rfl
    obtain ⟨t, ht, hstart⟩ :=
      exists_start_item hc₁.closed (hc₁.ahead_eq hc₂.toBehind) hread
    refine ⟨x, us ++ vs, c₂.ahead, ?_, haround.append haround₂,
      ⟨t, List.mem_append_right _ ht, hstart⟩, c, c₂, ?_, rfl, ?_⟩
    · rw [← List.append_assoc]
      exact hc₂.tokens
    · rw [hc.ahead_eq hc₁.toBehind, hc₁.ahead_eq hc₂.toBehind,
        List.append_assoc]
    · exact bind_eq_read.mpr ⟨lines, c₁, hdocs, hread⟩

/-! ## Going on behind an item that failed -/

theorem passes_skipItem (start : Nat) : Passes anyToken (skipItem start) :=
  .of_takes (takes_skipItem (p := .any) start)

theorem sound_of_skipItem {α : Type} {again : Reading α} {why : Fault}
    {start : Nat} (hagain : Passes anyToken again) (hc₂ : c₂.Closed)
    (hs : Sound ts ((skipItem start >>= fun _ => again)
      { c₂ with faults := c₂.faults ++ [why] }).cursor.faults) :
    Sound ts c₂.faults := by
  have hpasses := (passes_skipItem start).bind fun _ => hagain
  have hc : ({ c₂ with faults := c₂.faults ++ [why] } : Cursor).Closed := hc₂
  exact (hpasses.sound hc trivial rfl hs).earlier
    (List.prefix_append c₂.faults [why])

/-- An item that failed is skipped, and something is skipped. -/
theorem skipped_item (faults : List Fault) (hc : c.Inside ts base x)
    (hne : c.ahead ≠ []) (hc₂ : c₂.Behind ts (x ++ us))
    (hbraces : c₂.ahead ≠ [] → (Nest.after (x ++ us)).braces = base)
    (hclose : us = [] → c.current.kind = .mark .rBrace → base = []) :
    ∃ vs c₃, skipItem c.taken { c₂ with faults := faults } = .read () c₃
      ∧ c₃.Inside ts base (x ++ vs) ∧ c₃.ahead.length < c.ahead.length := by
  have htaken : c₂.taken = c.taken + us.length := by
    rw [hc₂.taken, List.length_append, hc.taken]
  have hstop : c₂.current.kind = .mark .rBrace → c.taken < c₂.taken
      ∨ base = [] := by
    intro hkind
    by_cases hus : us = []
    · rw [hus, List.append_nil] at hc₂
      exact Or.inr
        (hclose hus (by rw [← hkind]; exact hc.toBehind.kind_current hc₂))
    · have hpos := List.length_pos_iff.mpr hus
      left
      omega
  obtain ⟨vs, c₃, hskip, hc₃, hmoved⟩ :=
    skipItem_inside (hc₂.withFaults faults) hbraces
      (by show c.taken ≤ c₂.taken; omega) hstop
  refine ⟨us ++ vs, c₃, hskip, by rwa [← List.append_assoc], ?_⟩
  have hlength := hc.length
  have hlength₂ := hc₂.length
  have hlength₃ := hc₃.length
  have htaken₃ := hc₃.taken
  have hpos := List.length_pos_iff.mpr hne
  rw [hc.taken] at hmoved
  simp only [List.length_append] at hlength₂ hlength₃ htaken₃
  rcases hmoved with hend | hmoved
  · have hend : c₂.ahead = [] := hend
    rw [hend, List.length_nil] at hlength₂
    omega
  · omega

/-! ## Items of a block -/

/-- What the reader of items does behind documentation: it stops, or tries an
item. -/
theorem itemsUpTo_cases (origin : Origin) (n : Nat) (block : Block)
    (hdocs : docs c = .read lines c₁) :
    (c₁.current.kind = .mark .rBrace ∨ c₁.current.kind = .eof)
      ∧ itemsUpTo origin (n + 1) block c = .read (block, .closed) c₁
    ∨ c₁.current.kind ≠ .mark .rBrace ∧ c₁.current.kind ≠ .eof
      ∧ itemsUpTo origin (n + 1) block c
        = resume (item ⟨origin, block.name⟩ lines)
          (fun i => itemsUpTo origin n (i.addTo block)) (skipItem c.taken)
          (itemsUpTo origin n block) (pure (block, .spent)) c₁ := by
  rw [itemsUpTo, taken_bind, bind_of_read hdocs, peek_bind]
  by_cases hclose : c₁.current.kind = .mark .rBrace
  · rw [hclose]
    exact Or.inl ⟨Or.inl rfl, rfl⟩
  by_cases heof : c₁.current.kind = .eof
  · rw [heof]
    exact Or.inl ⟨Or.inr rfl, rfl⟩
  refine Or.inr ⟨hclose, heof, ?_⟩
  cases hkind : c₁.current.kind with
  | eof => exact absurd hkind heof
  | mark sign =>
      cases sign <;> first
        | exact absurd hkind hclose
        | exact attempt_bind_eq_resume (fun _ => rfl) fun _ => rfl
  | literal _ | ident _ | doc _ | keyword _ =>
      exact attempt_bind_eq_resume (fun _ => rfl) fun _ => rfl

theorem passes_itemsUpTo (origin : Origin) (n : Nat) (block : Block) :
    Passes anyToken (itemsUpTo origin n block) :=
  .of_takes (takes_itemsUpTo (p := .any) origin n block)

theorem passes_item (ctx : Context) (doc : Doc) :
    Passes anyToken (item ctx doc) :=
  .of_takes (takes_item (p := .any) ctx doc)

/-- **The items of a block.** They are read up to the brace that closes the
block, or to the end, and stand where their reader starts. -/
theorem itemsUpTo_stands (origin : Origin) :
    ∀ (n : Nat) {block : Block} {x : List Token}
    {c : Cursor}, c.Inside ts base x → c.ahead.length < n →
    Sound ts (itemsUpTo origin n block c).cursor.faults →
      ∃ block' us c', itemsUpTo origin n block c = .read (block', .closed) c'
        ∧ c'.Inside ts base (x ++ us)
        ∧ (c'.current.kind = .mark .rBrace ∨ c'.current.kind = .eof)
        ∧ block'.name = block.name
        ∧ ∀ d ∈ block'.decls, d ∈ block.decls
          ∨ StandsIn ts ⟨origin, block.name⟩ (namesOf base) d := by
  intro n
  induction n with
  | zero =>
      intro block x c _ hn
      omega
  | succ n ih =>
      intro block x c hc hn hs
      obtain ⟨lines, c₁, hdocs, -⟩ := exists_docs c
      obtain ⟨us, hc₁, -⟩ := inside_docs hc hdocs
      rcases itemsUpTo_cases origin n block hdocs with
        ⟨hend, heq⟩ | ⟨hclose, heof, heq⟩
      · exact ⟨block, us, c₁, heq, hc₁, hend, rfl, fun d hd => Or.inl hd⟩
      rw [heq] at hs ⊢
      rcases resume_cases (item ⟨origin, block.name⟩ lines)
          (fun i => itemsUpTo origin n (i.addTo block)) (skipItem c.taken)
          (itemsUpTo origin n block) (pure (block, .spent)) c₁ with
        ⟨i, c₂, hread, heq⟩ | ⟨why, c₂, hfail, heq | ⟨c', heq, -, hlimit⟩⟩
      · -- an item is read, and the rest behind it
        rw [heq] at hs ⊢
        have hclosed := (passes_item _ _).closed hc₁.closed trivial hread
        obtain ⟨vs, hne, hc₂, hstands⟩ := standsIn_item hc hdocs hread
          ((passes_itemsUpTo origin _ _).sound hclosed trivial rfl hs)
        have hpos := List.length_pos_iff.mpr hne
        have hlength := hc₂.length
        rw [List.length_append, ← hc.length] at hlength
        obtain ⟨block', ws, c', hread', hc', hend, hname, hdecls⟩ :=
          ih hc₂ (by omega) hs
        rw [name_addTo] at hname hdecls
        refine ⟨block', vs ++ ws, c', hread', by rwa [← List.append_assoc],
          hend, hname, ?_⟩
        intro d hd
        rcases hdecls d hd with hd | hd
        · exact (mem_decls_addTo hd).imp_right (hstands d)
        · exact Or.inr hd
      · -- an item failed; it does not start with a closing brace, or the block
        -- would be over
        have hitem : ∀ l,
            Stays ts base l 0 true anyToken (item ⟨origin, block.name⟩ lines) :=
          fun l => stays_item ..
        rw [heq] at hs ⊢
        have hs₂ := sound_of_skipItem (passes_itemsUpTo origin n block)
          ((passes_item _ _).closed hc₁.closed trivial hfail) hs
        obtain ⟨-, vs, hc₂, -⟩ :=
          (hitem _).failed hc₁ (Nat.le_refl _) trivial hfail hs₂
        rw [List.append_assoc] at hc₂
        have hstart : us ++ vs = [] → c.current.kind = .mark .rBrace →
            base = [] := by
          intro hnil hkind
          rw [(List.append_eq_nil_iff.mp hnil).1, List.append_nil] at hc₁
          rw [hc.toBehind.kind_current hc₁.toBehind] at hkind
          exact absurd hkind hclose
        obtain ⟨ws, c₃, hskip, hc₃, hlength⟩ :=
          skipped_item (c₂.faults ++ [why]) hc
            (hc.ahead_ne_nil hc₁.toBehind heof) hc₂.toBehind hc₂.braces hstart
        rw [bind_of_read hskip] at hs ⊢
        obtain ⟨block', zs, c', hread', hc', hend, hname, hdecls⟩ :=
          ih hc₃ (by omega) hs
        exact ⟨block', ws ++ zs, c', hread', by rwa [← List.append_assoc], hend,
          hname, hdecls⟩
      · rw [heq] at hs
        exact absurd hs.few (Nat.not_lt.mpr hlimit)

end Reading

end Exemplar
