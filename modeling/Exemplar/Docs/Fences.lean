import Exemplar.Text.Chars

/-!
# Fenced code

Code in documentation stands between fences of three backticks. The word
right after an opening fence is a language tag; it is passed over together
with the one blank that ends it. What stands right after a closing fence, up
to the next blank, is passed over as well. A fence that is never closed ends
the search, and what follows it is no snippet.
-/

namespace Exemplar.Fences

/-- The mark that opens and closes fenced code. -/
def fence : List Char := "```".toList

/-- How many fences a line holds; the characters of one are not counted for
another. -/
def count : List Char → Nat
  | '\x60' :: '\x60' :: '\x60' :: rest => count rest + 1
  | _ :: rest => count rest
  | [] => 0

/-- Past everything up to the next blank. -/
def skipWord (cs : List Char) : List Char :=
  cs.dropWhile fun c => !Chars.isBlank c

/-- Past one blank, if there is one. -/
def skipBlank : List Char → List Char
  | [] => []
  | c :: cs => if Chars.isBlank c then cs else c :: cs

/-- Where the code starts, after an opening fence. -/
def bodyOf (afterFence : List Char) : List Char :=
  skipBlank (skipWord afterFence)

theorem length_skipWord_le (cs : List Char) :
    (skipWord cs).length ≤ cs.length :=
  (List.dropWhile_sublist _).length_le

theorem length_skipBlank_le (cs : List Char) :
    (skipBlank cs).length ≤ cs.length := by
  cases cs with
  | nil => simp [skipBlank]
  | cons c cs =>
    simp only [skipBlank]
    split <;> simp

theorem length_bodyOf_le (cs : List Char) : (bodyOf cs).length ≤ cs.length :=
  Nat.le_trans (length_skipBlank_le _) (length_skipWord_le _)

theorem length_lt_of_breakOn {cs before after : List Char}
    (h : Chars.breakOn fence cs = some (before, after)) :
    after.length < cs.length := by
  induction cs generalizing before with
  | nil => simp [Chars.breakOn, fence] at h
  | cons c cs ih =>
    simp only [Chars.breakOn] at h
    split at h
    · obtain ⟨rfl, rfl⟩ := by simpa only [Option.some.injEq,
        Prod.mk.injEq] using h
      have hlen : fence.length = 3 := rfl
      rw [List.length_drop, List.length_cons, hlen]
      omega
    · obtain ⟨⟨b, a⟩, hba, heq⟩ := Option.map_eq_some_iff.1 h
      obtain ⟨-, rfl⟩ := by simpa using heq
      have := ih hba
      simp only [List.length_cons]
      omega

/-- The snippets of a text, and what follows a fence that is never closed. -/
structure Found where
  snippets : List (List Char)
  unclosed : Option (List Char)
deriving Repr, DecidableEq

def scan (cs : List Char) : Found :=
  match hOpen : Chars.breakOn fence cs with
  | none => ⟨[], none⟩
  | some (_, afterFence) =>
    match hClose : Chars.breakOn fence (bodyOf afterFence) with
    | none => ⟨[], some afterFence⟩
    | some (snippet, rest) =>
      have : (skipWord rest).length < cs.length :=
        Nat.lt_of_le_of_lt (length_skipWord_le rest) <|
          Nat.lt_trans (Nat.lt_of_lt_of_le (length_lt_of_breakOn hClose)
            (length_bodyOf_le afterFence)) (length_lt_of_breakOn hOpen)
      let found := scan (skipWord rest)
      ⟨snippet :: found.snippets, found.unclosed⟩
termination_by cs.length

end Exemplar.Fences
