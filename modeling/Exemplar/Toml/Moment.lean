/-!
# Dates and times

A moment is a date, a time, or a date with a time. Only a moment with both may
say how far its clock is from that of the zero meridian. Seconds can be left
out, and the last minute of a day may have one more than usual.

As with numbers, a moment is only judged, for no setting is one.
-/

namespace Exemplar.Toml

/-- Past a character of the given kind. -/
def skipOne? (kind : Char → Bool) : List Char → Option (List Char)
  | [] => none
  | c :: cs => if kind c then some cs else none

def decimalValue (digits : List Char) : Nat :=
  digits.foldl (fun n c => 10 * n + (c.toNat - 48)) 0

/-- Read a number of exactly `width` digits between two bounds. -/
def field? (width least most : Nat) (cs : List Char) :
    Option (Nat × List Char) :=
  let digits := cs.takeWhile Char.isDigit
  let n := decimalValue digits
  if digits.length = width && least ≤ n && n ≤ most then
    some (n, cs.dropWhile Char.isDigit)
  else none

def isLeapYear (year : Nat) : Bool :=
  year % 4 = 0 && (year % 100 ≠ 0 || year % 400 = 0)

def daysIn (year month : Nat) : Nat :=
  if month = 2 then (if isLeapYear year then 29 else 28)
  else if month = 4 || month = 6 || month = 9 || month = 11 then 30
  else 31

def date? (cs : List Char) : Option (List Char) := do
  let (year, cs) ← field? 4 0 9999 cs
  let cs ← skipOne? (· = '-') cs
  let (month, cs) ← field? 2 1 12 cs
  let cs ← skipOne? (· = '-') cs
  let (_, cs) ← field? 2 1 (daysIn year month) cs
  return cs

/-- Past the fraction of a second, if there is one. -/
def secondFraction? : List Char → Option (List Char)
  | '.' :: cs =>
      (skipOne? Char.isDigit cs).map fun cs => cs.dropWhile Char.isDigit
  | cs => some cs

/-- Past the seconds of a time, if it has them. -/
def seconds? : List Char → Option (List Char)
  | ':' :: cs => (field? 2 0 60 cs).bind fun (_, cs) => secondFraction? cs
  | cs => some cs

/-- Past the hours and minutes of a clock. -/
def clock? (cs : List Char) : Option (List Char) := do
  let (_, cs) ← field? 2 0 23 cs
  let cs ← skipOne? (· = ':') cs
  let (_, cs) ← field? 2 0 59 cs
  return cs

def time? (cs : List Char) : Option (List Char) := (clock? cs).bind seconds?

/-- Past the distance from the zero meridian, if it is given. -/
def offset? : List Char → Option (List Char)
  | [] => some []
  | c :: cs =>
    if c = 'Z' || c = 'z' then some cs
    else if c = '+' || c = '-' then clock? cs
    else none

/-- The character may stand between a date and its time. -/
def isTimeMark (c : Char) : Bool := c = 'T' || c = 't' || c = ' '

/-- The characters are a date, a time, or both. -/
def isMoment (cs : List Char) : Bool :=
  time? cs == some [] ||
    match date? cs with
    | none => false
    | some [] => true
    | some (mark :: cs) => isTimeMark mark && (time? cs).bind offset? == some []

end Exemplar.Toml
