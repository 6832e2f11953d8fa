/-!
# Characters and cuts

Blank characters, trimming, and cutting a text at a separator. Everything
works on `List Char`; the `String` forms at the end wrap it.

"Blank" is the Unicode property White_Space, a fixed set of twenty-five
characters, and not the smaller set of `Char.isWhitespace`.
-/

namespace Exemplar.Chars

/-! ## Blanks -/

/-- The White_Space characters outside the ranges of `isBlank`. -/
def loneBlanks : List Nat :=
  [0x20, 0x85, 0xA0, 0x1680, 0x2028, 0x2029, 0x202F, 0x205F, 0x3000]

/-- The character has the Unicode property White_Space. -/
def isBlank (c : Char) : Bool :=
  (0x09 ≤ c.toNat && c.toNat ≤ 0x0D)
    || (0x2000 ≤ c.toNat && c.toNat ≤ 0x200A)
    || loneBlanks.contains c.toNat

def trimStart (cs : List Char) : List Char := cs.dropWhile isBlank

/-- Without trailing characters that satisfy `p`. -/
def dropTrailing (p : Char → Bool) (cs : List Char) : List Char :=
  (cs.reverse.dropWhile p).reverse

def trimEnd (cs : List Char) : List Char := dropTrailing isBlank cs

def trim (cs : List Char) : List Char := trimEnd (trimStart cs)

/-! ## Cuts -/

/-- The pieces between the occurrences of `sep`; one more than there are
occurrences, so never none. -/
def splitOn (sep : Char) : List Char → List (List Char)
  | [] => [[]]
  | c :: cs =>
    if c = sep then [] :: splitOn sep cs
    else
      match splitOn sep cs with
      | [] => [[c]]
      | piece :: pieces => (c :: piece) :: pieces

/-- What stands before and after the last occurrence of `sep`. -/
def splitAtLast (sep : Char) : List Char → Option (List Char × List Char)
  | [] => none
  | c :: cs =>
    match splitAtLast sep cs with
    | some (before, after) => some (c :: before, after)
    | none => if c = sep then some ([], cs) else none

/-- What follows the first occurrence of `needle`, with what precedes it. -/
def breakOn (needle : List Char) : List Char → Option (List Char × List Char)
  | [] => if needle.isEmpty then some ([], []) else none
  | c :: cs =>
    if needle.isPrefixOf (c :: cs) then
      some ([], (c :: cs).drop needle.length)
    else
      (breakOn needle cs).map fun (before, after) => (c :: before, after)

/-- The lines of a text. A line ends at a newline, or at a carriage return
followed by one; a text that ends in a newline has no empty last line. -/
def lines (cs : List Char) : List (List Char) :=
  let pieces := splitOn '\n' cs
  let ended := pieces.dropLast.map fun line =>
    if line.getLast? = some '\r' then line.dropLast else line
  match pieces.getLast? with
  | none | some [] => ended
  | some rest => ended ++ [rest]

def byteLength : List Char → Nat
  | [] => 0
  | c :: cs => c.utf8Size + byteLength cs

/-! ## On strings -/

def trimmed (s : String) : String := String.ofList (trim s.toList)

def isBlankText (s : String) : Bool := s.toList.all isBlank

/-- Equal but for the case of ASCII letters. -/
def equalIgnoringCase (a b : String) : Bool :=
  a.toList.map Char.toLower == b.toList.map Char.toLower

/-! ## Small laws -/

theorem splitOn_ne_nil (sep : Char) (cs : List Char) : splitOn sep cs ≠ [] := by
  induction cs with
  | nil => simp [splitOn]
  | cons c cs ih =>
    by_cases h : c = sep
    · simp [splitOn, h]
    · simp only [splitOn, h, if_false]
      split <;> simp

/-- Joining the pieces with the separator gives the text back. -/
theorem intercalate_splitOn (sep : Char) (cs : List Char) :
    [sep].intercalate (splitOn sep cs) = cs := by
  induction cs with
  | nil => simp [splitOn, List.intercalate]
  | cons c cs ih =>
    by_cases h : c = sep
    · subst h
      obtain ⟨p, ps, hp⟩ := List.exists_cons_of_ne_nil (splitOn_ne_nil c cs)
      rw [hp] at ih
      simp only [splitOn, if_true, hp]
      simp only [List.intercalate, List.intersperse_cons_cons,
        List.flatten_cons] at ih ⊢
      simp [ih]
    · obtain ⟨p, ps, hp⟩ := List.exists_cons_of_ne_nil (splitOn_ne_nil sep cs)
      rw [hp] at ih
      simp only [splitOn, h, if_false, hp]
      cases ps with
      | nil => simpa [List.intercalate] using ih
      | cons q qs =>
        simp only [List.intercalate, List.intersperse_cons_cons,
          List.flatten_cons] at ih ⊢
        simpa using ih

/-- The cut loses nothing but the separator. -/
theorem eq_append_of_splitAtLast {sep : Char} {cs before after : List Char}
    (h : splitAtLast sep cs = some (before, after)) :
    cs = before ++ sep :: after := by
  induction cs generalizing before after with
  | nil => simp [splitAtLast] at h
  | cons c cs ih =>
    cases hc : splitAtLast sep cs with
    | none =>
      simp only [splitAtLast, hc] at h
      split at h <;> simp_all
    | some p =>
      obtain ⟨b, a⟩ := p
      simp only [splitAtLast, hc, Option.some.injEq, Prod.mk.injEq] at h
      obtain ⟨rfl, rfl⟩ := h
      simp [ih hc]

@[simp] theorem byteLength_nil : byteLength [] = 0 := rfl

@[simp] theorem byteLength_cons (c : Char) (cs : List Char) :
    byteLength (c :: cs) = c.utf8Size + byteLength cs := rfl

@[simp] theorem byteLength_append (as bs : List Char) :
    byteLength (as ++ bs) = byteLength as + byteLength bs := by
  induction as with
  | nil => simp
  | cons a as ih =>
      rw [List.cons_append, byteLength_cons, byteLength_cons, ih, Nat.add_assoc]

end Exemplar.Chars
