/-!
# Double literals

A double literal is a non-negative binary64 number, kept as its bit pattern,
so that equality is decidable. Two things are done with it: it is read from
decimal digits, rounded to the nearest representable number with ties to the
even one, and it is written with the fewest digits that read back to it.

Both work in exact natural-number arithmetic on `mantissa * 2 ^ exponent`.
-/

namespace Exemplar

/-- A binary64 number, by its bit pattern. -/
structure Double where
  bits : UInt64
deriving Repr, DecidableEq

namespace Double

/-- The bit pattern of infinity, and the bound of all finite ones. -/
def infinityBits : Nat := 0x7FF0000000000000

/-! ## Reading -/

/-- `num / den`, rounded to the nearest integer, ties to even. -/
def roundDiv (num den : Nat) : Nat :=
  let q := num / den
  let twice := 2 * (num % den)
  if twice < den || (twice == den && q % 2 == 0) then q else q + 1

/-- `num / den` divided by `2 ^ e`, as a fraction. -/
def scaleDown (num den : Nat) (e : Int) : Nat × Nat :=
  if 0 ≤ e then (num, den * Nat.pow 2 e.toNat)
  else (num * Nat.pow 2 (-e).toNat, den)

/-- The least exponent of a binary64 mantissa. -/
def leastExponent : Int := -1074

/-- The bit pattern nearest to `num / den`. The exponent is the one that
makes the mantissa 53 bits wide, but never below the least; a mantissa that
rounds up to 54 bits carries into the exponent by itself. -/
def ofRatio (num den : Nat) : Double :=
  if num = 0 then ⟨0⟩
  else
    let guess : Int := (num.log2 : Int) - den.log2 - 53
    let (n, d) := scaleDown num den guess
    let wide := if n / d < Nat.pow 2 53 then guess else guess + 1
    let e := max wide leastExponent
    let (n, d) := scaleDown num den e
    let pattern := (e - leastExponent).toNat * Nat.pow 2 52 + roundDiv n d
    ⟨(min pattern infinityBits).toUInt64⟩

/-- The double nearest to `digits * 10 ^ exponent`. Exponents that put the
number out of range are recognised by the count of its digits, before any
power is formed. -/
def ofDecimal (digits : Nat) (exponent : Int) : Double :=
  let magnitude : Int := exponent + (Nat.toDigits 10 digits).length
  if digits = 0 ∨ magnitude < -400 then ⟨0⟩
  else if 400 < magnitude then ⟨infinityBits.toUInt64⟩
  else if 0 ≤ exponent then ofRatio (digits * Nat.pow 10 exponent.toNat) 1
  else ofRatio digits (Nat.pow 10 (-exponent).toNat)

/-! ## Writing -/

/-- The mantissa and exponent of a finite pattern. -/
def decode (x : Double) : Nat × Int :=
  let pattern := x.bits.toNat
  let biased : Nat := pattern / Nat.pow 2 52 % 2048
  let fraction : Nat := pattern % Nat.pow 2 52
  if biased = 0 then (fraction, leastExponent)
  else (fraction + Nat.pow 2 52, (biased : Int) - 1 + leastExponent)

/-- `digits * 10 ^ exponent` with neither digits nor exponent normalised. -/
structure Decimal where
  digits : Nat
  exponent : Int
deriving Repr, DecidableEq

/-- Both sides of a comparison of `a * 10 ^ ea * 2 ^ ta` with `b * 10 ^ eb *
2 ^ tb`, brought to one scale. -/
def commonScale (a : Nat) (ea ta : Int) (b : Nat) (eb tb : Int) : Nat × Nat :=
  let e := min ea eb
  let t := min ta tb
  (a * Nat.pow 10 (ea - e).toNat * Nat.pow 2 (ta - t).toNat,
    b * Nat.pow 10 (eb - e).toNat * Nat.pow 2 (tb - t).toNat)

/-- The decimal number reads back as this double. -/
def readsBack (x : Double) (d : Decimal) : Bool :=
  ofDecimal d.digits d.exponent == x

/-- The neighbours of the value on the grid of multiples of `10 ^ place`, the
nearer one first, and the upper one first when both are as near. -/
def neighbours (x : Double) (place : Int) : Decimal × Decimal :=
  let (m, q) := x.decode
  let (num, den) := commonScale m 0 q 1 place 0
  let low : Decimal := ⟨num / den, place⟩
  let high : Decimal := ⟨num / den + 1, place⟩
  if 2 * (num % den) < den then (low, high) else (high, low)

/-- The first neighbour that reads back, over coarser to finer grids. -/
def search (x : Double) (place : Int) : Nat → Decimal
  | 0 => (x.neighbours place).1
  | fuel + 1 =>
    let (first, second) := x.neighbours place
    if x.readsBack first then first
    else if x.readsBack second then second
    else search x (place - 1) fuel

/-- The decimal number with the fewest digits that reads back, and of those
the nearest. Seventeen digits always do. -/
def shortest (x : Double) : Decimal :=
  let (m, q) := x.decode
  let (num, den) := commonScale m 0 q 1 0 0
  let top : Int :=
    if den ≤ num then (Nat.toDigits 10 (num / den)).length
    else 1 - (Nat.toDigits 10 (den / num)).length
  x.search top 20

/-- The decimal number without trailing zeros before its exponent. -/
def Decimal.strip (d : Decimal) : Nat → Decimal
  | 0 => d
  | fuel + 1 =>
    if d.digits ≠ 0 ∧ d.digits % 10 = 0 then
      Decimal.strip ⟨d.digits / 10, d.exponent + 1⟩ fuel
    else d

/-- Positional text: no exponent, no point unless a fraction follows it. -/
def Decimal.positional (d : Decimal) : String :=
  let digits := Nat.toDigits 10 d.digits
  if 0 ≤ d.exponent then
    String.ofList (digits ++ List.replicate d.exponent.toNat '0')
  else
    let places := (-d.exponent).toNat
    let padded := List.replicate (places + 1 - digits.length) '0' ++ digits
    let whole := padded.length - places
    String.ofList (padded.take whole ++ '.' :: padded.drop whole)

def text (x : Double) : String :=
  if infinityBits ≤ x.bits.toNat then "inf"
  else if x.bits = 0 then "0"
  else (x.shortest.strip 20).positional

end Double

end Exemplar
