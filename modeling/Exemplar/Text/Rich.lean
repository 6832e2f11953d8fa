/-!
# Rich text

Text made of pieces, each plain or in one style. Whoever shows it decides
whether the styles are: `Rich.plain` drops them, and `Rich.ansi` wraps every
styled piece, empty ones included, in an escape sequence and a reset. Where a
styled text brings a reset of its own, its style is turned on again after it.
-/

namespace Exemplar

inductive Colour where
  | red
  | green
  | yellow
  | blue
  | cyan
deriving Repr, DecidableEq

/-- The code that selects the colour of the letters. -/
def Colour.code : Colour → String
  | .red => "31"
  | .green => "32"
  | .yellow => "33"
  | .blue => "34"
  | .cyan => "36"

/-- How a piece of text looks. -/
inductive Style where
  | colour (c : Colour)
  | bold
  | boldColour (c : Colour)
  | dimmed
deriving Repr, DecidableEq

/-- The codes between `ESC[` and `m`. -/
def Style.codes : Style → String
  | .colour c => c.code
  | .bold => "1"
  | .boldColour c => "1;" ++ c.code
  | .dimmed => "2"

/-- A run of text in one look. -/
structure Piece where
  style : Option Style
  text : String
deriving Repr, DecidableEq

def Piece.plain (p : Piece) : String := p.text

/-- The escape sequence that turns a style on. -/
def Style.start (style : Style) : String := "\x1b[" ++ style.codes ++ "m"

/-- The text with the given sequence after every reset in it. -/
def afterResets (start : List Char) : List Char → List Char
  | [] => []
  | '\x1b' :: '[' :: '0' :: 'm' :: cs =>
    '\x1b' :: '[' :: '0' :: 'm' :: start ++ afterResets start cs
  | c :: cs => c :: afterResets start cs

/-- The text inside the escape sequences that turn its style on and off. -/
def Piece.ansi (p : Piece) : String :=
  match p.style with
  | none => p.text
  | some style =>
    style.start ++ String.ofList (afterResets style.start.toList p.text.toList)
      ++ "\x1b[0m"

/-- A text without escape characters has no resets in it. -/
theorem afterResets_eq_self {start cs : List Char} (h : '\x1b' ∉ cs) :
    afterResets start cs = cs := by
  induction cs with
  | nil => rfl
  | cons c cs ih =>
    have hc : '\x1b' ≠ c := fun e => h (e ▸ List.mem_cons_self)
    have hcs : '\x1b' ∉ cs := fun hmem => h (List.mem_cons_of_mem c hmem)
    rw [afterResets]
    · rw [ih hcs]
    · rintro rest rfl
      exact absurd rfl hc

/-- A text as its pieces. -/
abbrev Rich := List Piece

namespace Rich

def raw (text : String) : Rich := [⟨none, text⟩]

def styled (style : Style) (text : String) : Rich := [⟨some style, text⟩]

def plain (r : Rich) : String := String.join (r.map Piece.plain)

/-- The text with its styles as terminal escape sequences. -/
def ansi (r : Rich) : String := String.join (r.map Piece.ansi)

def toText (r : Rich) (colours : Bool) : String :=
  if colours then r.ansi else r.plain

/-! ## Piece by piece -/

@[simp] theorem plain_nil : plain [] = "" := rfl

@[simp] theorem plain_cons (p : Piece) (r : Rich) :
    plain (p :: r) = p.text ++ r.plain := by
  simp [plain, Piece.plain]

@[simp] theorem plain_append (r s : Rich) :
    plain (r ++ s) = r.plain ++ s.plain := by
  simp [plain]

@[simp] theorem plain_raw (text : String) : (raw text).plain = text := by
  simp [raw]

@[simp] theorem plain_styled (style : Style) (text : String) :
    (styled style text).plain = text := by
  simp [styled]

end Rich

end Exemplar
