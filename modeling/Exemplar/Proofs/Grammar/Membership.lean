import Exemplar.Proofs.Grammar.Items

/-!
# Declarations and the namespaces they stand in

Whatever faults a text has, the declarations that are read from it are in the
blocks of the namespaces they stand in (`Parsed.inPlace_of_mem`). The proof
follows the readers from items to blocks and to the whole text: each comes to
a place with the braces open that it found, and the loops over items and over
blocks go on there after a fault, by what `Exemplar.Proofs.Grammar.Recovery`
says about skipping.

Two things lead a declaration astray (`misplaces_samples`). The skipping of a
statement stops at the first closing brace, also at one whose opening brace it
skipped, and from there on every closing brace closes too much. And when a
block finds no room for another fault it ends where it is, but the text goes
on.
-/

namespace Exemplar

open Reading

namespace Reading

variable {ts x us : List Token} {base : List (Option String)} {c c₁ : Cursor}
  {lines : List String}

/-! ## Namespace blocks -/

/-- The reader of a path in the first line of a block has come to its end. -/
def Heads (ts : List Token) (base : List (Option String)) (x : List Token) :
    Outcome String → Prop
  | .read path c =>
      ∃ us, c.Behind ts (x ++ us) ∧ Nest.after (x ++ us) = ⟨base, .named path⟩
  | .failed _ c =>
      ∃ us, c.Behind ts (x ++ us) ∧ (Nest.after (x ++ us)).braces = base

/-- The kinds of a path lead to its name. -/
theorem step_pathKinds (first : String) (parts : List String) :
    (Kind.ident first :: dottedKinds parts).foldl Nest.step ⟨base,
      .wanting none⟩
      = ⟨base, .named (joinPath first parts)⟩ := by
  have hparts : ∀ (parts : List String) (path : String),
      (dottedKinds parts).foldl Nest.step ⟨base, .named path⟩
        = ⟨base, .named (joinPath path parts)⟩ := by
    intro parts
    induction parts with
    | nil => exact fun _ => rfl
    | cons part parts ih => exact fun path => ih (path ++ "." ++ part)
  exact hparts parts first

theorem braces_after_calm {vs : List Token}
    (hvs : ∀ t ∈ vs, t.kind.isCalm = true)
    (hafter : (Nest.after x).braces = base) :
    (Nest.after (x ++ vs)).braces = base := by
  induction vs generalizing x with
  | nil => rwa [List.append_nil]
  | cons t vs ih =>
      obtain ⟨ht, hvs⟩ := List.forall_mem_cons.mp hvs
      have hrest := ih hvs (x := x ++ [t]) (by
        rw [Nest.after_concat, Nest.braces_step, hafter]
        all_goals
          intro hkind
          rw [hkind] at ht
          cases ht)
      rwa [List.append_assoc] at hrest

theorem heads_path (hc : c.Behind ts x)
    (hafter : Nest.after x = ⟨base, .wanting none⟩) :
    Heads ts base x (path c) := by
  have hpath : Takes true .any [] anyToken path IsPath := takes_path
  cases hread : path c with
  | read name c' =>
      obtain ⟨vs, hpast, hname⟩ := hpath.of_read hc.closed trivial hread
      obtain ⟨first, parts, rfl, hkinds⟩ := hname trivial
      refine ⟨vs, hc.past hpast, ?_⟩
      rw [Nest.after, List.foldl_append, ← Nest.after, hafter,
        ← step_pathKinds, ← hkinds, List.foldl_map]
  | failed f c' =>
      obtain ⟨-, vs, hpast⟩ := hpath.of_failed hc.closed trivial hread
      exact ⟨vs, hc.past hpast,
        braces_after_calm (hpast.kinds rfl) (by rw [hafter])⟩

def blockItems (origin : Origin) (block : Block) :
    Reading (Block × Ending) := fun c =>
  itemsUpTo origin (c.ahead.length + 1) block c

/-- Read what follows the items of a namespace block. -/
def closeBlock (start : Nat) : Block × Ending → Reading Block
  | (block, .spent) => return block
  | (block, .closed) => do
    mark .rBrace
    return { block with span := ← spanFrom start }

theorem passes_closeBlock (start : Nat) (out : Block × Ending) :
    Passes anyToken (closeBlock start out) := by
  obtain ⟨block, ending⟩ := out
  have htakes : Takes false .any [] anyToken (closeBlock start (block, ending))
      fun _ _ => True := by
    cases ending with
    | spent => exact .pure trivial
    | closed =>
        exact .mark_bind rfl fun _ _ _ => .spanFrom_bind fun _ _ =>
          .pure trivial
  exact .of_takes htakes

theorem namespaceBlock_eq (origin : Origin) (doc : Doc) :
    namespaceBlock origin doc = (do
    let start ← offset
    keyword .namespace
    let name ← path
    mark .lBrace
    blockItems origin ⟨name, doc, [], [], ⟨start, start⟩⟩
      >>= closeBlock start) := by
  refine congrArg (offset >>= ·) (funext fun start => ?_)
  refine congrArg (keyword .namespace >>= ·) (funext fun _ => ?_)
  refine congrArg (path >>= ·) (funext fun name => ?_)
  refine congrArg (mark .lBrace >>= ·) (funext fun _ => ?_)
  refine congrArg (blockItems origin _ >>= ·) (funext fun out => ?_)
  obtain ⟨block, ending⟩ := out
  cases ending <;> rfl

/-- A reader that started behind `x`, outside all braces, has moved on and is
outside again, with a value as asked for; or it failed, and a brace is open
only at the end. -/
def Leaves {α : Type} (ts x : List Token) (P : α → Prop) : Outcome α → Prop
  | .read v c => P v ∧ ∃ us, us ≠ [] ∧ c.Inside ts [] (x ++ us)
  | .failed _ c => ∃ us, c.Behind ts (x ++ us)
      ∧ (c.ahead ≠ [] → (Nest.after (x ++ us)).braces = [])

/-- The declarations of the block stand in a namespace with its name. -/
def BlockStands (ts : List Token) (origin : Origin) (b : Block) : Prop :=
  ∀ d ∈ b.decls, StandsIn ts ⟨origin, b.name⟩ [b.name] d

/-- Behind the brace that opens a block. -/
theorem leaves_items {origin : Origin} {block : Block} {start : Nat}
    (hc : c.Inside ts [some block.name] (x ++ us)) (hdecls : block.decls = [])
    (hs : Sound ts
      ((blockItems origin block >>= closeBlock start) c).cursor.faults) :
    Leaves ts x (BlockStands ts origin)
      ((blockItems origin block >>= closeBlock start) c) := by
  have hitems : Sound ts (blockItems origin block c).cursor.faults := by
    have hclosed := (passes_itemsUpTo origin (c.ahead.length + 1) block).closed
      hc.closed trivial rfl
    cases hread : blockItems origin block c with
    | failed f c' =>
        rw [bind_of_failed hread] at hs
        exact hs
    | read out c' =>
        rw [bind_of_read hread] at hs
        exact (passes_closeBlock start out).sound (hread ▸ hclosed)
          trivial rfl hs
  obtain ⟨block', vs, c', hread, hc', hend, hname, hall⟩ :=
    itemsUpTo_stands origin _ hc (Nat.lt_succ_self _) hitems
  have hread : blockItems origin block c = .read (block', .closed) c' := hread
  have hstands : BlockStands ts origin block' := by
    intro d hd
    rw [hname]
    rcases hall d hd with h | h
    · rw [hdecls] at h
      cases h
    · exact h
  rw [bind_of_read hread]
  rw [List.append_assoc] at hc'
  rcases hend with hclose | heof
  · obtain ⟨t, rest, hahead, ht⟩ := hc'.exists_of_kind hclose (by simp)
    have hmark : mark .rBrace c' = .read () c'.advance := by
      rw [mark_apply, if_pos hclose]
    rw [closeBlock, bind_of_read hmark, spanFrom_bind]
    have hout : c'.advance.Inside ts [] (x ++ (us ++ vs) ++ [t]) :=
      hc'.advance hahead (by rw [ht]; rfl)
    rw [List.append_assoc] at hout
    exact ⟨hstands, us ++ vs ++ [t], by simp, hout⟩
  · have hmark : mark .rBrace c' = expected (.mark .rBrace) c' := by
      rw [mark_apply, if_neg (by simp [heof])]
    rw [closeBlock, bind_of_failed hmark]
    exact ⟨us ++ vs, hc'.toBehind, fun hne =>
      absurd (hc'.ahead_eq_nil heof) hne⟩

/-- **Namespace blocks.** The declarations of a block stand in a namespace
with its name. -/
theorem leaves_namespaceBlock (origin : Origin) (doc : Doc)
    (hc : c.Inside ts [] x) (hkind : c.current.kind = .keyword .namespace)
    (hs : Sound ts (namespaceBlock origin doc c).cursor.faults) :
    Leaves ts x (BlockStands ts origin) (namespaceBlock origin doc c) := by
  rw [namespaceBlock_eq, offset_bind, keyword_bind_of_eq hkind,
    advance_bind] at hs ⊢
  obtain ⟨t, rest, hahead, ht⟩ := hc.exists_of_kind hkind (by simp)
  -- the word is read, and a path must follow
  have hafter : Nest.after (x ++ [t]) = ⟨[], .wanting none⟩ := by
    rw [Nest.after_concat, (hc.here t (by rw [hahead]; rfl)).2, ht]
    rfl
  have hheads := heads_path (hc.toBehind.advance hahead) hafter
  cases hpath : path c.advance with
  | failed f c₁ =>
      rw [hpath] at hheads
      obtain ⟨us, hc₁, hbraces⟩ := hheads
      rw [bind_of_failed hpath]
      rw [List.append_assoc] at hc₁ hbraces
      exact ⟨[t] ++ us, hc₁, fun _ => hbraces⟩
  | read name c₁ =>
      rw [hpath] at hheads
      obtain ⟨us, hc₁, hnamed⟩ := hheads
      rw [bind_of_read hpath] at hs ⊢
      rw [List.append_assoc] at hc₁ hnamed
      by_cases hbrace : c₁.current.kind = .mark .lBrace
      · have hmark : mark .lBrace c₁ = .read () c₁.advance := by
          rw [mark_apply, if_pos hbrace]
        rw [bind_of_read hmark] at hs ⊢
        obtain ⟨t₁, rest₁, hahead₁, ht₁⟩ := hc₁.exists_of_kind hbrace (by simp)
        -- the name that was read is the one the brace belongs to
        have hflat : Nest.after (x ++ ([t] ++ us) ++ [t₁])
            = .flat [some name] := by
          rw [Nest.after_concat, hnamed, ht₁]
          rfl
        have hopen := Cursor.Inside.of_flat (hc₁.advance hahead₁) hflat
        rw [List.append_assoc] at hopen
        exact leaves_items hopen rfl hs
      · have hmark : mark .lBrace c₁ = expected (.mark .lBrace) c₁ := by
          rw [mark_apply, if_neg hbrace]
        rw [bind_of_failed hmark]
        exact ⟨[t] ++ us, hc₁, fun _ => by rw [hnamed]⟩

/-! ## Whole texts -/

/-- What is in the draft stands where its block says. -/
structure DraftStands (ts : List Token) (origin : Origin) (draft : Draft) :
    Prop where
  name : draft.outside.name = ""
  outside : ∀ d ∈ draft.outside.decls, StandsIn ts ⟨origin, ""⟩ [] d
  blocks : ∀ b ∈ draft.blocks, BlockStands ts origin b

theorem DraftStands.addItem {origin : Origin} {draft : Draft} {i : Item}
    (h : DraftStands ts origin draft)
    (hi : ∀ d, i = .decl d → StandsIn ts ⟨origin, ""⟩ [] d) :
    DraftStands ts origin { draft with outside := i.addTo draft.outside } := by
  refine ⟨(name_addTo i _).trans h.name, fun d hd => ?_, h.blocks⟩
  rcases mem_decls_addTo hd with hd | hd
  · exact h.outside d hd
  · exact hi d hd

theorem DraftStands.addBlock {origin : Origin} {draft : Draft} {block : Block}
    (h : DraftStands ts origin draft) (hblock : BlockStands ts origin block) :
    DraftStands ts origin { draft with blocks := draft.blocks ++ [block] } := by
  refine ⟨h.name, h.outside, fun b hb => ?_⟩
  rcases List.mem_append.mp hb with hb | hb
  · exact h.blocks b hb
  · rwa [List.mem_singleton.mp hb]

theorem passes_topLevel (origin : Origin) (draft : Draft) (doc : Doc) :
    Passes anyToken (topLevel origin draft doc) :=
  .of_takes (takes_topLevel (p := .any) origin draft doc)

theorem passes_topLevelsUpTo (origin : Origin) (n : Nat) (draft : Draft) :
    Passes anyToken (topLevelsUpTo origin n draft) :=
  .of_takes (takes_topLevelsUpTo (p := .any) origin n draft)

/-- A namespace block, or an item outside. -/
theorem leaves_topLevel {origin : Origin} {draft : Draft}
    (hdraft : DraftStands ts origin draft) (hc : c.Inside ts [] x)
    (hdocs : docs c = .read lines c₁)
    (hs : Sound ts (topLevel origin draft lines c₁).cursor.faults) :
    Leaves ts x (DraftStands ts origin) (topLevel origin draft lines c₁) := by
  obtain ⟨us, hc₁, -⟩ := inside_docs hc hdocs
  rw [topLevel, peek_bind] at hs ⊢
  by_cases hkind : c₁.current.kind = .keyword .namespace
  · rw [if_pos hkind, bind_pure_apply] at hs ⊢
    rw [Outcome.cursor_map] at hs
    have hblock := leaves_namespaceBlock origin lines hc₁ hkind hs
    cases hread : namespaceBlock origin lines c₁ with
    | failed f c₂ =>
        rw [hread] at hblock
        obtain ⟨vs, hc₂, hbraces⟩ := hblock
        rw [List.append_assoc] at hc₂ hbraces
        exact ⟨us ++ vs, hc₂, hbraces⟩
    | read block c₂ =>
        rw [hread] at hblock
        obtain ⟨hblock, vs, hne, hc₂⟩ := hblock
        rw [List.append_assoc] at hc₂
        exact ⟨hdraft.addBlock hblock, us ++ vs,
          List.append_ne_nil_of_right_ne_nil _ hne, hc₂⟩
  · rw [if_neg hkind] at hs ⊢
    rw [bind_pure_apply]
    cases hread : item ⟨origin, ""⟩ lines c₁ with
    | failed f c₂ =>
        rw [bind_of_failed hread] at hs
        have hitem : Stays ts [] (4 * c₁.ahead.length) 0 true anyToken
            (item ⟨origin, ""⟩ lines) :=
          stays_item ..
        obtain ⟨-, vs, hc₂, -⟩ :=
          hitem.failed hc₁ (Nat.le_refl _) trivial hread hs
        rw [List.append_assoc] at hc₂
        exact ⟨us ++ vs, hc₂.toBehind, hc₂.braces⟩
    | read i c₂ =>
        rw [bind_of_read hread] at hs
        obtain ⟨vs, hne, hc₂, hstands⟩ := standsIn_item hc hdocs hread hs
        exact ⟨hdraft.addItem hstands, vs, hne, hc₂⟩

theorem topLevelsUpTo_cases (origin : Origin) (n : Nat) (draft : Draft)
    (hdocs : docs c = .read lines c₁) :
    c₁.current.kind = .eof ∧ topLevelsUpTo origin (n + 1) draft c
      = .read draft c₁
    ∨ c₁.current.kind ≠ .eof
      ∧ topLevelsUpTo origin (n + 1) draft c
        = resume (topLevel origin draft lines)
          (topLevelsUpTo origin n) (skipItem c.taken)
            (topLevelsUpTo origin n draft)
          (pure draft) c₁ := by
  rw [topLevelsUpTo, taken_bind, bind_of_read hdocs, peek_bind]
  cases c₁.current.kind with
  | eof => exact Or.inl ⟨rfl, rfl⟩
  | literal _ | ident _ | doc _ | keyword _ | mark _ =>
      exact Or.inr ⟨nofun, attempt_bind_eq_resume (fun _ => rfl) fun _ => rfl⟩

theorem topLevelsUpTo_stands (origin : Origin) :
    ∀ (n : Nat) {draft : Draft} {x : List Token}
    {c : Cursor}, DraftStands ts origin draft → c.Inside ts [] x →
      c.ahead.length < n →
    Sound ts (topLevelsUpTo origin n draft c).cursor.faults →
      ∃ draft' c', topLevelsUpTo origin n draft c = .read draft' c'
        ∧ DraftStands ts origin draft' := by
  intro n
  induction n with
  | zero =>
      intro draft x c _ _ hn
      omega
  | succ n ih =>
      intro draft x c hdraft hc hn hs
      obtain ⟨lines, c₁, hdocs, -⟩ := exists_docs c
      obtain ⟨vs, hc₁, -⟩ := inside_docs hc hdocs
      rcases topLevelsUpTo_cases origin n draft hdocs with
          ⟨-, heq⟩ | ⟨heof, heq⟩
      · exact ⟨draft, c₁, heq, hdraft⟩
      rw [heq] at hs ⊢
      rcases resume_cases (topLevel origin draft lines) (topLevelsUpTo origin n)
          (skipItem c.taken) (topLevelsUpTo origin n draft) (pure draft) c₁ with
        ⟨draft', c₂, hread, heq⟩ | ⟨why, c₂, hfail, heq | ⟨c', heq, -, hlimit⟩⟩
      · rw [heq] at hs ⊢
        have hclosed := (passes_topLevel origin draft lines).closed hc₁.closed
          trivial hread
        have hleaves := leaves_topLevel hdraft hc hdocs
          (by
            rw [hread]
            exact (passes_topLevelsUpTo origin _ _).sound hclosed trivial rfl
              hs)
        rw [hread] at hleaves
        obtain ⟨hdraft', us, hne, hc₂⟩ := hleaves
        have hpos := List.length_pos_iff.mpr hne
        have hlength := hc₂.length
        rw [List.length_append, ← hc.length] at hlength
        exact ih hdraft' hc₂ (by omega) hs
      · rw [heq] at hs ⊢
        have hs₂ := sound_of_skipItem (passes_topLevelsUpTo origin n draft)
          ((passes_topLevel origin draft lines).closed hc₁.closed trivial hfail)
          hs
        have hleaves :=
          leaves_topLevel hdraft hc hdocs (by rw [hfail]; exact hs₂)
        rw [hfail] at hleaves
        obtain ⟨us, hc₂, hbraces⟩ := hleaves
        obtain ⟨ws, c₃, hskip, hc₃, hlength⟩ :=
          skipped_item (c₂.faults ++ [why]) hc
            (hc.ahead_ne_nil hc₁.toBehind heof) hc₂ hbraces fun _ _ => rfl
        rw [bind_of_read hskip] at hs ⊢
        exact ih hdraft hc₃ (by omega) hs
      · rw [heq] at hs
        exact absurd hs.few (Nat.not_lt.mpr hlimit)

end Reading

/-- The declaration stands in a namespace with the name of its block, or
outside all namespaces, in the block without a name. -/
def InPlace (ts : List Token) (origin : Origin) (b : Block) (d : Declaration) :
    Prop :=
  StandsIn ts ⟨origin, b.name⟩ [b.name] d
    ∨ b.name = "" ∧ StandsIn ts ⟨origin, ""⟩ [] d

theorem Reading.DraftStands.inPlace {ts : List Token} {origin : Origin}
    {draft : Draft} {b : Block} {d : Declaration}
    (h : DraftStands ts origin draft) {span : Span}
    (hb : b ∈ { draft.outside with span := span } :: draft.blocks)
    (hd : d ∈ b.decls) :
    InPlace ts origin b d := by
  rcases List.mem_cons.mp hb with rfl | hb
  · exact Or.inr ⟨h.name, h.outside d hd⟩
  · exact Or.inl (h.blocks b hb d hd)

namespace Parsed

theorem faults_prefix_ofTokens (tokens : List Token) (origin : Origin) :
    (topLevelsUpTo origin ((Cursor.ofTokens tokens).ahead.length + 1) emptyDraft
      (Cursor.ofTokens tokens)).cursor.faults
        <+: (ofTokens tokens origin).faults := by
  unfold ofTokens emptyDraft
  dsimp only
  split
  · next hread =>
      rw [hread]
      split <;> exact List.prefix_rfl
  · next hfail =>
      rw [hfail]
      exact List.prefix_append ..

theorem mem_blocks_ofTokens {tokens : List Token} {origin : Origin}
    {draft : Draft} {c : Cursor}
    (hread : topLevelsUpTo origin ((Cursor.ofTokens tokens).ahead.length + 1)
      emptyDraft (Cursor.ofTokens tokens) = .read draft c) {b : Block}
    (hb : b ∈ (ofTokens tokens origin).blocks) :
    ∃ span, b ∈ { draft.outside with span := span } :: draft.blocks := by
  unfold emptyDraft at hread
  unfold ofTokens at hb
  dsimp only at hb
  rw [hread] at hb
  dsimp only at hb
  split at hb
  · exact ⟨.nowhere, List.mem_cons_of_mem _ hb⟩
  · exact ⟨_, hb⟩

/-- **Declarations stay in their namespaces.** A list of tokens ends with
`eof`, which occurs nowhere else. If there was room for every fault, and no
statement was given up in front of a brace that it was skipped over, then all
declarations stand where their blocks say, whatever the faults are. -/
theorem inPlace_of_mem {front : List Token} {span : Span} {origin : Origin}
    {p : Parsed} (heof : ∀ t ∈ front, t.kind ≠ .eof)
    (hp : ofTokens (front ++ [⟨.eof, span⟩]) origin = p)
    (hfew : p.faults.length < faultLimit)
    (htame : ∀ f ∈ p.faults, f.skipsBrace front = false) {b : Block}
    (hb : b ∈ p.blocks) {d : Declaration} (hd : d ∈ b.decls) :
    InPlace front origin b d := by
  subst hp
  have hstart : Cursor.ofTokens (front ++ [⟨.eof, span⟩])
      = ⟨front, ⟨.eof, span⟩, 0, 0, []⟩ := by
    simp [Cursor.ofTokens]
  have hc : (Cursor.ofTokens (front ++ [⟨.eof, span⟩])).Inside front [] [] := by
    rw [hstart]
    exact .of_flat ⟨rfl, rfl, rfl, heof⟩ rfl
  have hempty : DraftStands front origin emptyDraft :=
    ⟨rfl, by simp [emptyDraft], by simp [emptyDraft]⟩
  have hsound : Sound front
    (ofTokens (front ++ [⟨.eof, span⟩]) origin).faults := ⟨hfew, htame⟩
  obtain ⟨draft, c, hread, hdraft⟩ := topLevelsUpTo_stands origin _ hempty hc
    (Nat.lt_succ_self _) (hsound.earlier (faults_prefix_ofTokens _ origin))
  obtain ⟨span', hb⟩ := mem_blocks_ofTokens hread hb
  exact hdraft.inPlace hb hd

end Parsed

/-! ## Texts with faults -/

namespace Sample

/-- The kinds of `function NAME() : Unit`. -/
def header (name : String) : List Kind :=
  [.keyword .function, .ident name, .mark .lParen, .mark .rParen, .mark .colon,
    .ident "Unit"]

/-- The tokens of a namespace block, `namespace A`, with the given items. Every
token takes up one place. -/
def block (items : List Kind) : List Token :=
  let kinds : List Kind :=
    [.keyword .namespace, .ident "A", .mark .lBrace] ++ items ++ [.mark .rBrace]
  kinds.mapIdx fun i k => ⟨k, ⟨i, i + 1⟩⟩

/-- A statement is given up, and an item that has braces: the functions have
the bodies `a b;` and none, and `c` and a pair of braces stands between them. -/
def twoFaults : List Token :=
  block (header "F" ++ [.mark .lBrace, .ident "a", .ident "b", .mark .semi,
    .mark .rBrace, .ident "c", .mark .lBrace, .mark .rBrace] ++ header "G"
      ++ [.mark .semi])

/-- A statement is given up in front of braces: the body of the first function
is `a`, a pair of braces and a semicolon. -/
def strayBraces : List Token :=
  block (header "F" ++ [.mark .lBrace, .ident "a", .mark .lBrace, .mark .rBrace,
    .mark .semi, .mark .rBrace] ++ header "G" ++ [.mark .semi])

/-- There is no room for another fault in the middle of a block: `open;` comes
nineteen times, and once more without the semicolon. -/
def manyFaults : List Token :=
  block ((List.replicate 19 [.keyword .open, .mark .semi]).flatten
    ++ [.keyword .open] ++ header "G"
    ++ [.mark .semi])

end Sample

namespace Parsed

/-- Behind two faults, the function that follows is still in its namespace. -/
theorem inPlace_of_mem_twoFaults :
    ∃ p, ofTokens (Sample.twoFaults ++ [⟨.eof, ⟨25, 25⟩⟩]) (.primary "main.vl")
      = p
      ∧ p.faults.length = 2 ∧ ∃ b ∈ p.blocks, ∃ d ∈ b.decls, d.name = ⟨"A", "G"⟩
        ∧ InPlace Sample.twoFaults (.primary "main.vl") b d := by
  refine ⟨_, rfl, ?_⟩
  generalize hp : ofTokens (Sample.twoFaults ++ [⟨.eof, ⟨25, 25⟩⟩])
    (.primary "main.vl") = p
  have hfaults : p.faults.length = 2 := by
    rw [← hp]
    decide +kernel
  have htame : ∀ f ∈ p.faults, f.skipsBrace Sample.twoFaults = false := by
    rw [← hp]
    decide +kernel
  have heof : ∀ t ∈ Sample.twoFaults, t.kind ≠ .eof := by decide +kernel
  obtain ⟨b, hb, d, hd, hname⟩ : ∃ b ∈ p.blocks, ∃ d ∈ b.decls,
      d.name = ⟨"A", "G"⟩ := by
    rw [← hp]
    decide +kernel
  exact ⟨hfaults, b, hb, d, hd, hname,
    inPlace_of_mem heof hp (by rw [hfaults]; decide) htame hb hd⟩

end Parsed

/-- With the given number of braces open, every brace is closed, and none is
closed that is not open. -/
def bracesMatch : Nat → List Token → Bool
  | depth, [] => depth == 0
  | depth, t :: ts =>
    match t.kind, depth with
    | .mark .lBrace, depth => bracesMatch (depth + 1) ts
    | .mark .rBrace, 0 => false
    | .mark .rBrace, depth + 1 => bracesMatch depth ts
    | _, depth => bracesMatch depth ts

theorem StandsIn.exists_start {ts : List Token} {ctx : Context}
    {names : List String} {d : Declaration} (h : StandsIn ts ctx names d) :
    ∃ i < ts.length, ts[i]?.map (·.span.start) = some d.span.start
      ∧ namespacesAround (ts.take i) = names := by
  obtain ⟨x, ds, y, rfl, haround, ⟨t, ht, hstart⟩, -⟩ := h
  obtain ⟨p, q, rfl⟩ := List.append_of_mem ht
  have hcut : x ++ (p ++ t :: q) ++ y = (x ++ p) ++ t :: (q ++ y) := by simp
  rw [hcut]
  refine ⟨(x ++ p).length, by simp, ?_, ?_⟩
  · rw [List.getElem?_append_right (Nat.le_refl _), Nat.sub_self]
    exact congrArg some hstart
  · rw [List.take_left]
    exact haround p t q rfl

/-- A declaration in the block without a name, whose tokens are in a
namespace. -/
theorem exists_not_inPlace {ts : List Token} {origin : Origin}
    {blocks : List Block} {space : String} (start : Nat)
    (hdecl : ∃ b ∈ blocks, b.name = "" ∧ ∃ d ∈ b.decls, d.span.start = start)
    (hspace : space ≠ "")
    (haround : ∀ i < ts.length, ts[i]?.map (·.span.start) = some start →
      namespacesAround (ts.take i) = [space]) :
    ∃ b ∈ blocks, ∃ d ∈ b.decls, ¬InPlace ts origin b d := by
  obtain ⟨b, hb, hname, d, hd, rfl⟩ := hdecl
  refine ⟨b, hb, d, hd, ?_⟩
  rintro (h | ⟨-, h⟩)
  · obtain ⟨i, hi, hstart, hnames⟩ := h.exists_start
    rw [haround i hi hstart, hname] at hnames
    exact hspace (List.cons.inj hnames).1
  · obtain ⟨i, hi, hstart, hnames⟩ := h.exists_start
    rw [haround i hi hstart] at hnames
    cases hnames

/-- The braces match, and yet a declaration does not stand where its block
says. -/
def Misplaces (front : List Token) (origin : Origin) : Prop :=
  (∀ t ∈ front, t.kind ≠ .eof) ∧ bracesMatch 0 front = true
    ∧ ∃ b ∈ (Parsed.ofTokens
        (front ++ [⟨.eof, ⟨front.length, front.length⟩⟩]) origin).blocks,
      ∃ d ∈ b.decls, ¬InPlace front origin b d

/-- **Declarations go astray.** A function of the namespace is read as one
outside, behind a statement given up in front of braces, and where there is no
room for another fault. -/
theorem misplaces_samples : Misplaces Sample.strayBraces (.primary "main.vl")
    ∧ Misplaces Sample.manyFaults (.primary "main.vl") := by
  have hspace : ("A" : String) ≠ "" := by decide
  constructor
  · exact ⟨by decide +kernel, by decide +kernel,
      exists_not_inPlace 15 (by decide +kernel) hspace (by decide +kernel)⟩
  · exact ⟨by decide +kernel, by decide +kernel,
      exists_not_inPlace 42 (by decide +kernel) hspace (by decide +kernel)⟩

end Exemplar
