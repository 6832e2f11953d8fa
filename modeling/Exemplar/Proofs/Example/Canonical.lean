import Exemplar.Example.Snippets
import Exemplar.Proofs.Docs.Bodies
import Exemplar.Proofs.Grammar.Printer

/-!
# Examples are taken whole

Documentation as people write it has an example section of prose lines and
fenced code, where each fence stands on a line of its own (`ExampleDoc`). This
file follows such documentation through the four things that are done to it:
it is split into sections, the example section is picked, its lines are
joined, and the text is searched for snippets. `ofProgram_example` says what
comes out: one snippet for each fenced block, in order, which is the body line
by line; and no fence is left open. Body lines may have the form of headings,
bodies may be empty, and other sections may come before and behind.

What a program's declarations contribute is independent of each other
(`textsOf_ofProgram`, `openFences_ofProgram`), so the headline says all of this
of a declaration anywhere in a program.
-/

namespace Exemplar

/-- If every step adds at the end, so does the whole run. -/
theorem foldl_appends {α β σ : Type} (view : σ → List β) {step : σ → α → σ}
    {adds : α → List β} (h : ∀ s a, view (step s a) = view s ++ adds a)
    (as : List α) (s : σ) :
    view (as.foldl step s) = view s ++ as.flatMap adds := by
  induction as generalizing s with
  | nil => exact (List.append_nil _).symm
  | cons a as ih =>
      rw [List.foldl_cons, ih, h, List.flatMap_cons, List.append_assoc]

/-! ## Documentation with an example -/

/-- The line has no fence in it. -/
def FenceFree (line : String) : Prop := ¬Fences.fence <:+: line.toList

instance (line : String) : Decidable (FenceFree line) :=
  inferInstanceAs (Decidable (¬Fences.fence <:+: line.toList))

/-- A part of an example section. -/
inductive ExamplePart where
  /-- A line of text that is no heading. -/
  | prose (line : String) (fenceFree : FenceFree line)
      (plain : Sections.heading? line = none)
  /-- Lines between fences, behind a language tag. -/
  | code (tag : String) (body : List String)
      (solid : ∀ c ∈ tag.toList, Chars.isBlank c = false ∧ c ≠ '\x60')
      (fenceFree : ∀ line ∈ body, FenceFree line)

namespace ExamplePart

def lines : ExamplePart → List String
  | .prose line .. => [line]
  | .code tag body .. => ("```" ++ tag) :: body ++ ["```"]

/-- The code in the part, each line with its newline. -/
def snippet? : ExamplePart → Option String
  | .prose .. => none
  | .code _ body .. => some (String.join (body.map (· ++ "\n")))

end ExamplePart

/-- Documentation with an example section. -/
structure ExampleDoc where
  before : List String
  heading : String
  parts : List ExamplePart
  after : List String
  before_fenceFree : ∀ line ∈ before, FenceFree line
  /-- No section before is one for examples. -/
  before_title : ∀ line ∈ before, ∀ title ∈ Sections.heading? line,
    Chars.equalIgnoringCase title "Example" = false
      ∧ Chars.equalIgnoringCase title "Examples" = false
  heading_title : ∃ title ∈ Sections.heading? heading,
    Chars.equalIgnoringCase title "Example" = true
  /-- What follows, if anything, starts with another heading. -/
  after_heading : ∀ line ∈ after.head?, (Sections.heading? line).isSome = true

namespace ExampleDoc

def sectionLines (e : ExampleDoc) : List String :=
  e.parts.flatMap ExamplePart.lines

def lines (e : ExampleDoc) : Doc :=
  e.before ++ e.heading :: (e.sectionLines ++ e.after)

def snippets (e : ExampleDoc) : List String :=
  e.parts.filterMap ExamplePart.snippet?

end ExampleDoc

/-! ## Sections -/

namespace Sections

theorem togglesFence_of_fenceFree {line : String} (h : FenceFree line) :
    togglesFence line = false := by
  rw [togglesFence, (Fences.count_eq_zero_iff _).mpr h]
  rfl

/-- Lines without fences leave no code open. -/
theorem fencedAfter_of_fenceFree {lines : List String}
    (h : ∀ line ∈ lines, FenceFree line) :
    fencedAfter false lines = false := by
  induction lines with
  | nil => rfl
  | cons line rest ih =>
      obtain ⟨hline, hrest⟩ := List.forall_mem_cons.mp h
      rw [fencedAfter, togglesFence_of_fenceFree hline]
      split
      · exact ih hrest
      · exact ih hrest

/-- The title of a section is that of a heading line. -/
theorem exists_heading_of_mem {lines : List String} {fenced : Bool}
    {s : Section} (h : s ∈ (split fenced lines).2) :
    ∃ line ∈ lines, heading? line = some s.title := by
  induction lines generalizing fenced with
  | nil => cases h
  | cons line rest ih =>
      rw [split] at h
      split at h
      · next title htitle =>
          rcases List.mem_cons.mp h with rfl | h
          · refine ⟨line, List.mem_cons_self .., ?_⟩
            cases fenced with
            | true => cases htitle
            | false => exact htitle
          · obtain ⟨line', hmem, hline'⟩ := ih h
            exact ⟨line', List.mem_cons_of_mem _ hmem, hline'⟩
      · obtain ⟨line', hmem, hline'⟩ := ih h
        exact ⟨line', List.mem_cons_of_mem _ hmem, hline'⟩

/-- Lines that start with a heading leave the sections before as they are. -/
theorem extend_of_nil (front : List String × List Section)
    (sections : List Section) :
    (extend front ([], sections)).2 = front.2 ++ sections := by
  rw [extend]
  cases hlast : front.2.getLast? with
  | none => rw [List.getLast?_eq_none_iff.mp hlast, List.nil_append]
  | some s =>
      obtain ⟨ss, hss⟩ := List.getLast?_eq_some_iff.mp hlast
      simp [hss]

theorem split_heading {line title : String} (h : heading? line = some title)
    (rest : List String) :
    split false (line :: rest)
      = ([], ⟨title, (split false rest).1⟩ :: (split false rest).2) := by
  simp [split, h]

/-- Inside fenced code every line without a fence is text. -/
theorem split_fenced {lines : List String} (h : ∀ line ∈ lines, FenceFree line)
    (rest : List String) :
    split true (lines ++ rest)
      = (lines ++ (split true rest).1, (split true rest).2) := by
  induction lines with
  | nil => rfl
  | cons line lines ih =>
      obtain ⟨hline, hlines⟩ := List.forall_mem_cons.mp h
      rw [List.cons_append, split, togglesFence_of_fenceFree hline]
      simp only [if_true, Bool.bne_false, ih hlines, List.cons_append]

theorem heading?_fence (tag : String) : heading? ("```" ++ tag) = none := by
  have htext : ("```" ++ tag).toList
      = '\x60' :: '\x60' :: '\x60' :: tag.toList := by
    rw [String.toList_append]
    rfl
  have htrim : Chars.trimStart ('\x60' :: '\x60' :: '\x60' :: tag.toList)
      = '\x60' :: '\x60' :: '\x60' :: tag.toList := rfl
  rw [heading?, htext, htrim]
  rfl

theorem togglesFence_fence {tag : String} (h : ∀ c ∈ tag.toList, c ≠ '\x60') :
    togglesFence ("```" ++ tag) = true := by
  have hfree : ¬Fences.fence <:+: tag.toList := fun hmarked =>
    h '\x60' (hmarked.subset (List.mem_cons_self ..)) rfl
  have hcount : Fences.count ("```" ++ tag).toList
      = Fences.count tag.toList + 1 := by
    rw [String.toList_append]
    rfl
  rw [togglesFence, hcount, (Fences.count_eq_zero_iff _).mpr hfree]
  rfl

/-- A part stays whole, and leaves no code open. -/
theorem split_part (p : ExamplePart) (rest : List String) :
    split false (p.lines ++ rest)
      = (p.lines ++ (split false rest).1, (split false rest).2) := by
  cases p with
  | prose line hfree hplain =>
      simp [ExamplePart.lines, split, hplain, togglesFence_of_fenceFree hfree]
  | code tag body hsolid hfree =>
      have hopen : togglesFence ("```" ++ tag) = true :=
        togglesFence_fence fun c hc => (hsolid c hc).2
      have hclose : togglesFence "```" = true := by decide
      have hbody := split_fenced hfree ("```" :: rest)
      have hend : split true ("```" :: rest)
          = ("```" :: (split false rest).1, (split false rest).2) := by
        rw [split, hclose]
        rfl
      rw [hend] at hbody
      simp only [ExamplePart.lines, List.cons_append, List.append_assoc,
        List.nil_append, split, heading?_fence, hopen, Bool.false_eq_true,
        if_false, Bool.false_bne, hbody]

theorem split_parts (ps : List ExamplePart) (rest : List String) :
    split false (ps.flatMap ExamplePart.lines ++ rest)
      = (ps.flatMap ExamplePart.lines ++ (split false rest).1,
        (split false rest).2) := by
  induction ps with
  | nil => rfl
  | cons p ps ih =>
      rw [List.flatMap_cons, List.append_assoc, split_part, ih,
        List.append_assoc]

/-- What stands behind the example is not part of it. -/
theorem split_after {after : List String}
    (h : ∀ line ∈ after.head?, (heading? line).isSome = true) :
    (split false after).1 = [] := by
  cases after with
  | nil => rfl
  | cons line rest =>
      obtain ⟨title, htitle⟩ := Option.isSome_iff_exists.mp (h line rfl)
      rw [split_heading htitle]

/-- The example is found under its heading, whatever comes before and behind. -/
theorem exampleText_lines (e : ExampleDoc) :
    (ofDoc e.lines).exampleText = String.intercalate "\n" e.sectionLines := by
  obtain ⟨title, htitle, hexample⟩ := e.heading_title
  have hsplit : split false (e.heading :: (e.sectionLines ++ e.after))
      = ([], ⟨title, e.sectionLines⟩ :: (split false e.after).2) := by
    rw [split_heading htitle, ExampleDoc.sectionLines, split_parts,
      split_after e.after_heading, List.append_nil]
  have hsections : (ofDoc e.lines).sections
      = (split false e.before).2
        ++ ⟨title, e.sectionLines⟩ :: (split false e.after).2 := by
    rw [ExampleDoc.lines, sections_append,
      fencedAfter_of_fenceFree e.before_fenceFree, hsplit, extend_of_nil]
  have hbefore : (split false e.before).2.find?
      (fun sec => Chars.equalIgnoringCase sec.title "Example") = none := by
    refine List.find?_eq_none.mpr fun sec hsec => ?_
    obtain ⟨line, hmem, hline⟩ := exists_heading_of_mem hsec
    rw [(e.before_title line hmem _ hline).1]
    exact Bool.false_ne_true
  have hfind : (ofDoc e.lines).find? "Example"
      = some ⟨title, e.sectionLines⟩ := by
    rw [find?, hsections, List.find?_append, hbefore, List.find?_cons, hexample]
    rfl
  rw [exampleText, hfind]
  rfl

end Sections

/-! ## The text of an example -/

namespace Fences

/-- Text without fences is passed over, up to a blank. -/
theorem scan_blank {prose : List Char} {b : Char} (hprose : ¬fence <:+: prose)
    (hb : Chars.isBlank b = true) (rest : List Char) :
    scan (prose ++ b :: rest) = scan rest := by
  have hcut := breakOn_append hb prose rest
  rw [breakOn_of_unmarked hprose] at hcut
  cases hrest : Chars.breakOn fence rest with
  | none =>
      rw [hrest] at hcut
      rw [scan_of_none hcut, scan_of_none hrest]
  | some cut =>
      rw [hrest] at hcut
      cases hclose : Chars.breakOn fence (bodyOf cut.2) with
      | none => rw [scan_of_unclosed hcut hclose, scan_of_unclosed hrest hclose]
      | some cut' =>
          rw [scan_of_closed hcut hclose, scan_of_closed hrest hclose]

theorem scan_prose {prose rest : List Char} (hprose : ¬fence <:+: prose)
    (hrest : rest = [] ∨ StartsBlank rest) :
    scan (prose ++ rest) = scan rest := by
  rcases hrest with rfl | ⟨b, more, rfl, hb⟩
  · rw [List.append_nil, scan_of_none (breakOn_of_unmarked hprose)]
    exact (scan_of_none rfl).symm
  · have hblank : scan ([] ++ b :: more) = scan more :=
      scan_blank (by simp [fence_eq]) hb more
    rw [scan_blank hprose hb, ← hblank]
    rfl

/-- Lines, each behind a newline. -/
def onLines (lines : List String) : List Char :=
  lines.flatMap fun line => '\n' :: line.toList

theorem onLines_append (ls ms : List String) :
    onLines (ls ++ ms) = onLines ls ++ onLines ms :=
  List.flatMap_append

theorem onLines_starts (lines : List String) :
    onLines lines = [] ∨ StartsBlank (onLines lines) := by
  cases lines with
  | nil => exact Or.inl rfl
  | cons line rest => exact Or.inr ⟨'\n', _, rfl, rfl⟩

/-- A newline in front of the first line changes nothing. -/
theorem scan_intercalate (lines : List String) :
    scan (String.intercalate "\n" lines).toList = scan (onLines lines) := by
  cases lines with
  | nil => rfl
  | cons line rest =>
      have htext : (String.intercalate "\n" (line :: rest)).toList
          = line.toList ++ onLines rest := by
        rw [String.toList_intercalate, show "\n".toList = ['\n'] from rfl,
          List.map_cons, intercalate_cons, List.flatMap_map]
        rfl
      have hfirst : onLines (line :: rest)
        = [] ++ '\n' :: (line.toList ++ onLines rest) := rfl
      rw [htext, hfirst, scan_blank (by simp [fence_eq]) (by decide)]

/-- Lines with their newlines, as the body of fenced code. -/
theorem plain_lines {body : List String} (h : ∀ line ∈ body, FenceFree line) :
    Plain (body.flatMap fun line => line.toList ++ ['\n']) := by
  induction body with
  | nil => exact ⟨by simp [fence_eq], by simp⟩
  | cons line rest ih =>
      obtain ⟨hline, hrest⟩ := List.forall_mem_cons.mp h
      obtain ⟨hfree, hlast⟩ := ih hrest
      have hcons : (line :: rest).flatMap (fun line => line.toList ++ ['\n'])
          = line.toList ++ '\n' :: rest.flatMap fun line =>
          line.toList ++ ['\n'] := by
        rw [List.flatMap_cons, List.append_assoc]
        rfl
      rw [hcons]
      constructor
      · rw [← count_eq_zero_iff] at hfree ⊢
        rw [count_append (by decide), (count_eq_zero_iff _).mpr hline, hfree]
      · rw [List.getLast?_append, List.getLast?_cons]
        intro htick
        cases hrest : (rest.flatMap fun line => line.toList ++ ['\n']).getLast?
          with
        | none => rw [hrest] at htick; simp at htick
        | some c => rw [hrest] at htick hlast; exact hlast htick

/-- Behind a newline or in front of one, the lines of a body are the same. -/
theorem onLines_newline (body : List String) :
    onLines body ++ ['\n'] = '\n' :: body.flatMap fun line =>
      line.toList ++ ['\n'] := by
  induction body with
  | nil => rfl
  | cons line rest ih =>
      rw [onLines, List.flatMap_cons, List.append_assoc]
      show '\n' :: line.toList ++ (onLines rest ++ ['\n']) = _
      rw [ih, List.flatMap_cons]
      simp

/-- The search finds the code of a part, and goes on behind it. -/
theorem scan_part (p : ExamplePart) {rest : List Char}
    (hrest : rest = [] ∨ StartsBlank rest) :
    scan (onLines p.lines ++ rest)
      = ⟨(p.snippet?.map String.toList).toList ++ (scan rest).snippets,
        (scan rest).unclosed⟩ := by
  cases p with
  | prose line hfree _ =>
      have hline : ¬fence <:+: '\n' :: line.toList := by
        rw [← count_eq_zero_iff, ← List.nil_append ('\n' :: line.toList),
          count_append (by decide), (count_eq_zero_iff _).mpr hfree]
        rfl
      have htext : onLines [line] = '\n' :: line.toList := List.append_nil _
      rw [ExamplePart.lines, htext, scan_prose hline hrest]
      rfl
  | code tag body hsolid hfree =>
      let piece : Piece :=
        { prose := ['\n']
          tag := tag.toList
          blank := '\n'
          body := body.flatMap fun line => line.toList ++ ['\n']
          suffix := []
          prose_plain := by decide +kernel
          tag_solid := fun c hc => (hsolid c hc).1
          blank_isBlank := by decide
          body_plain := plain_lines hfree
          suffix_solid := nofun }
      have htext : onLines (ExamplePart.code tag body hsolid hfree).lines
          = piece.text := by
        have hcode : onLines (ExamplePart.code tag body hsolid hfree).lines
            = '\n' :: (fence ++ tag.toList)
              ++ (onLines body ++ ['\n'] ++ fence) := by
          simp [ExamplePart.lines, onLines, fence]
        rw [hcode, onLines_newline]
        simp [piece, Piece.text]
      have hbody : (String.join (body.map (· ++ "\n"))).toList
          = piece.body := by
        rw [String.toList_join, List.flatMap_map]
        simp [piece]
      rw [htext, scan_piece piece hrest, ← hbody]
      rfl

/-- The search finds the code of all parts. -/
theorem scan_parts (ps : List ExamplePart) :
    scan (onLines (ps.flatMap ExamplePart.lines))
      = ⟨(ps.filterMap ExamplePart.snippet?).map String.toList, none⟩ := by
  induction ps with
  | nil => exact scan_of_none rfl
  | cons p ps ih =>
      rw [List.flatMap_cons, onLines_append, scan_part p (onLines_starts _), ih,
        List.filterMap_cons]
      cases p <;> rfl

/-- The search gives back the code of an example. -/
theorem scan_exampleText (e : ExampleDoc) :
    scan (Sections.ofDoc e.lines).exampleText.toList
      = ⟨e.snippets.map String.toList, none⟩ := by
  rw [Sections.exampleText_lines, scan_intercalate, ExampleDoc.sectionLines,
    scan_parts]
  rfl

end Fences

/-! ## The snippets of a program -/

/-- The namespace as snippets are filed under it. -/
def Namespace.space (ns : Namespace) : Option String :=
  if ns.isGlobal then none else some ns.name

/-- What is found in the examples of a declaration. -/
def Declaration.found (d : Declaration) : Fences.Found :=
  Fences.scan (Sections.ofDoc d.doc).exampleText.toList

namespace Snippets

def textsOf (s : Snippets) (space : Option String) : List String :=
  (s.groups.lookup space).getD []

/-- What a declaration of a namespace adds to the snippets of `space`. -/
def textsIn (space : Option String) (ns : Namespace) (d : Declaration) :
    List String :=
  if space = ns.space then d.found.snippets.map String.ofList else []

/-- What a declaration of a namespace adds to the fences that are never
closed. -/
def openIn (ns : Namespace) (d : Declaration) : List OpenFence :=
  d.found.unclosed.toList.map fun text => ⟨ns.space, d.name, String.ofList text⟩

theorem lookup_group (space key : Option String) (texts : List String)
    (groups : List (Option String × List String)) :
    ((key, texts) :: groups).lookup space
      = if space = key then some texts else groups.lookup space := by
  by_cases h : space = key
  · simp [h]
  · simp [h, List.lookup_cons, beq_false_of_ne h]

theorem textsOf_push (s : Snippets) (space target : Option String)
    (text : String) :
    (s.push target text).textsOf space
      = s.textsOf space ++ if space = target then [text] else [] := by
  obtain ⟨groups, fences⟩ := s
  show ((pushTo target text groups).lookup space).getD []
    = (groups.lookup space).getD [] ++ if space = target then [text] else []
  induction groups with
  | nil =>
      rw [pushTo, lookup_group]
      split <;> rfl
  | cons group groups ih =>
      obtain ⟨key, texts⟩ := group
      rw [pushTo, lookup_group]
      by_cases hkey : key = target
      · by_cases hspace : space = key <;> simp [← hkey, hspace, lookup_group]
      · by_cases hspace : space = key
        · simp [hspace, hkey]
        · simpa [hspace, hkey, lookup_group] using ih

theorem textsOf_addDeclaration (s : Snippets) (space : Option String)
    (ns : Namespace) (d : Declaration) :
    (s.addDeclaration ns.space d).textsOf space = s.textsOf space
      ++ textsIn space ns d := by
  have hpush : (d.found.snippets.foldl
        (fun s text => s.push ns.space (String.ofList text)) s).textsOf space
      = s.textsOf space ++ textsIn space ns d := by
    rw [foldl_appends (fun s : Snippets => s.textsOf space)
      (fun s text => textsOf_push s space ns.space (String.ofList text))]
    by_cases h : space = ns.space
    · simp [h, textsIn, List.map_eq_flatMap]
    · simp [h, textsIn]
  rw [← hpush, addDeclaration]
  split <;> rfl

theorem openFences_addDeclaration (s : Snippets) (ns : Namespace)
    (d : Declaration) :
    (s.addDeclaration ns.space d).openFences = s.openFences ++ openIn ns d := by
  have hpush : (d.found.snippets.foldl
      (fun s text => s.push ns.space (String.ofList text)) s).openFences
        = s.openFences :=
    List.foldlRecOn
      (motive := fun s' : Snippets => s'.openFences = s.openFences) _ _ rfl
      fun _ ih _ _ => ih
  rw [addDeclaration, openIn, Declaration.found]
  cases (Fences.scan (Sections.ofDoc d.doc).exampleText.toList).unclosed with
  | none => exact hpush.trans (List.append_nil _).symm
  | some text => exact congrArg (· ++ _) hpush

/-- Each declaration that is searched adds its own snippets. -/
theorem textsOf_ofProgram (settings : Settings) (p : Program)
    (space : Option String) :
    (ofProgram settings p).textsOf space
      = p.namespaces.flatMap fun ns =>
          (ns.decls.filter (searches settings)).flatMap (textsIn space ns) := by
  have hspace : ∀ s ns, (addNamespace settings s ns).textsOf space
      = s.textsOf space ++ (ns.decls.filter (searches settings)).flatMap
        (textsIn space ns) :=
    fun s ns => foldl_appends (fun s : Snippets => s.textsOf space)
      (fun s d => textsOf_addDeclaration s space ns d) _ s
  exact foldl_appends (fun s : Snippets => s.textsOf space) hspace
    p.namespaces empty

/-- Each declaration that is searched adds its own open fence. -/
theorem openFences_ofProgram (settings : Settings) (p : Program) :
    (ofProgram settings p).openFences
      = p.namespaces.flatMap fun ns =>
          (ns.decls.filter (searches settings)).flatMap (openIn ns) := by
  have hspace : ∀ s ns, (addNamespace settings s ns).openFences
      = s.openFences ++ (ns.decls.filter (searches settings)).flatMap
        (openIn ns) :=
    fun s ns => foldl_appends Snippets.openFences
      (fun s d => openFences_addDeclaration s ns d) _ s
  exact foldl_appends Snippets.openFences hspace p.namespaces empty

/-- The examples of a declaration are extracted whole. The snippets of its
namespace are those of the program before it, one for each block of fenced
code, and those of the program behind it; it adds none to other namespaces and
leaves no fence open. -/
theorem ofProgram_example (settings : Settings) (p : Program)
    {before after : List Namespace} {ns : Namespace}
    {front back : List Declaration} {d : Declaration} (e : ExampleDoc)
    (hspaces : p.namespaces = before ++ ns :: after)
    (hdecls : ns.decls = front ++ d :: back)
    (hprimary : d.origin.isPrimary = true) (hdoc : d.doc = e.lines) :
    let upTo := ofProgram settings ⟨before ++ [{ ns with decls := front }],
      p.entryPoints⟩
    let behind := ofProgram settings ⟨{ ns with decls := back } :: after,
      p.entryPoints⟩
    (ofProgram settings p).textsOf ns.space
        = upTo.textsOf ns.space ++ e.snippets ++ behind.textsOf ns.space
      ∧ (∀ space ≠ ns.space,
          (ofProgram settings p).textsOf space = upTo.textsOf space
            ++ behind.textsOf space)
      ∧ (ofProgram settings p).openFences = upTo.openFences
        ++ behind.openFences := by
  intro upTo behind
  have hfound : d.found = ⟨e.snippets.map String.toList, none⟩ := by
    rw [Declaration.found, hdoc, Fences.scan_exampleText]
  have hsearched : ns.decls.filter (searches settings)
      = front.filter (searches settings)
        ++ d :: back.filter (searches settings) := by
    rw [hdecls, List.filter_append,
      List.filter_cons_of_pos (by simp [searches, hprimary])]
  have htexts : ∀ space, (ofProgram settings p).textsOf space
      = upTo.textsOf space ++ (textsIn space ns d ++ behind.textsOf space) := by
    intro space
    simp only [upTo, behind, textsOf_ofProgram, hspaces, hsearched,
      List.flatMap_append, List.flatMap_cons, List.flatMap_nil, List.append_nil,
      List.append_assoc]
    rfl
  refine ⟨?_, fun space hspace => ?_, ?_⟩
  · have hown : textsIn ns.space ns d = e.snippets := by
      simp [textsIn, hfound, Function.comp_def]
    rw [htexts, hown, List.append_assoc]
  · rw [htexts, textsIn, if_neg hspace, List.nil_append]
  · have hopen : openIn ns d = [] := by rw [openIn, hfound]; rfl
    simp only [upTo, behind, openFences_ofProgram, hspaces, hsearched,
      List.flatMap_append, List.flatMap_cons, List.flatMap_nil, List.append_nil,
      List.append_assoc, hopen, List.nil_append]
    rfl

/-- What a language tag may hold, computed. -/
theorem solid_of_all {cs : List Char}
    (h : (cs.all fun c => !Chars.isBlank c && c != '\x60') = true) :
    ∀ c ∈ cs, Chars.isBlank c = false ∧ c ≠ '\x60' := by
  intro c hc
  simpa using List.all_eq_true.mp h c hc

/-- A section before, a body line that looks like a heading, an empty body,
and a fence behind the example that is never closed. -/
def sumDoc : ExampleDoc where
  before := ["Adds.", "", "# Input"]
  heading := " # EXAMPLE "
  parts :=
    [.prose "Note the sum:" (by decide +kernel) (by decide +kernel),
      .code "vela" ["let x = 1;", "# no heading"]
        (solid_of_all (by decide +kernel)) (by decide +kernel),
      .code "" [] (solid_of_all rfl) (by decide +kernel)]
  after := ["# Example", "```open"]
  before_fenceFree := by decide +kernel
  before_title := by decide +kernel
  heading_title := by decide +kernel
  after_heading := by decide +kernel

/-- A declaration of `A` with the documentation `doc`. -/
def documented (doc : Doc) : Declaration :=
  ⟨⟨"A", "T"⟩, doc, .primary "", ⟨0, 0⟩, .newtype (.builtin .int) []⟩

/-- The snippets of the example come behind those of the declaration before. -/
theorem ofProgram_example_sum :
    let ns : Namespace := ⟨"A", [], [documented ["# Examples", "``` f() ```"],
      documented sumDoc.lines]⟩
    (documented sumDoc.lines).origin.isPrimary = true
      ∧ sumDoc.lines = ["Adds.", "", "# Input", " # EXAMPLE ", "Note the sum:",
        "```vela",
          "let x = 1;", "# no heading", "```", "```", "```", "# Example",
          "```open"]
      ∧ (ofProgram {} ⟨[ns], []⟩).textsOf (some "A")
          = ["f() ", "let x = 1;\n# no heading\n", ""]
      ∧ (ofProgram {} ⟨[ns], []⟩).openFences = [] := by
  intro ns
  have hspaces : (⟨[ns], []⟩ : Program).namespaces = [] ++ ns :: [] := rfl
  have hdecls : ns.decls
      = [documented ["# Examples", "``` f() ```"]]
        ++ documented sumDoc.lines :: [] := rfl
  obtain ⟨htexts, -, hopen⟩ :=
    ofProgram_example {} ⟨[ns], []⟩ sumDoc hspaces hdecls rfl rfl
  refine ⟨rfl, by decide +kernel, ?_, ?_⟩
  · refine htexts.trans ?_
    decide +kernel
  · refine hopen.trans ?_
    decide +kernel

end Snippets

end Exemplar
