import ScriptTyping.Number

/-!
# The shortest decimal of a number

The decimals that read back as a finite number fill an interval around it. On the grids of
1, 2, … 17 significant digits the two neighbours of the number are tried; the first grid with a
neighbour inside the interval gives the digits, of two neighbours the nearer, of two equally near
the upper. Everything is exact: a magnitude is a numerator over a denominator.
-/

namespace ScriptTyping.Number

/-- A positive magnitude with the ends of the interval that rounds to it, as numerators over one
denominator. The ends belong to it when the mantissa is even. -/
structure Rounding where
  value : Nat
  lower : Nat
  upper : Nat
  denominator : Nat
  closed : Bool

/-- Below a power of two the gap is half as wide, except at the least exponent. -/
def rounding (n : Number) : Rounding :=
  let m := n.mantissa
  let unit := Nat.pow 2 n.scale
  let narrow := n.fraction = 0 ∧ 1 < n.exponentField
  { value := 4 * m * unit
    lower := (4 * m - if narrow then 1 else 2) * unit
    upper := (4 * m + 2) * unit
    denominator := 4 * Nat.pow 2 1074
    closed := m % 2 == 0 }

/-- A decimal `digits * 10 ^ exponent`. -/
structure Decimal where
  digits : Nat
  exponent : Int
deriving DecidableEq

namespace Rounding

/-- Numerator and denominator of a quantity divided by `10 ^ exponent`. -/
def onGrid (r : Rounding) (exponent : Int) (numerator : Nat) : Nat × Nat :=
  (numerator * Nat.pow 10 (-exponent).toNat, r.denominator * Nat.pow 10 exponent.toNat)

/-- Whether `digits * 10 ^ exponent` reads back as the value. -/
def readsBack (r : Rounding) (d : Decimal) : Bool :=
  let (lo, den) := r.onGrid d.exponent r.lower
  let (hi, _) := r.onGrid d.exponent r.upper
  let x := d.digits * den
  if r.closed then lo ≤ x && x ≤ hi else lo < x && x < hi

/-- The neighbour on the grid of `10 ^ exponent` that the digits are taken from. -/
def onGrid? (r : Rounding) (exponent : Int) : Option Decimal :=
  let (v, den) := r.onGrid exponent r.value
  let below : Decimal := ⟨v / den, exponent⟩
  let above : Decimal := ⟨v / den + 1, exponent⟩
  match r.readsBack below, r.readsBack above with
  | true, true => some (if 2 * (v % den) < den then below else above)
  | true, false => some below
  | false, true => some above
  | false, false => none

/-- The least `k ≤ fuel` with `denominator ≤ value * 10 ^ k`. -/
def leadingZeros (r : Rounding) : Nat → Nat → Nat
  | 0, k => k
  | fuel + 1, k =>
    if r.denominator ≤ r.value * Nat.pow 10 k then k else r.leadingZeros fuel (k + 1)

/-- The exponent of the power of ten just above the value. -/
def magnitude (r : Rounding) : Int :=
  if r.denominator ≤ r.value then (Nat.toDigits 10 (r.value / r.denominator)).length
  else 1 - (r.leadingZeros 400 0 : Int)

end Rounding

/-- Digits without trailing zeros. -/
def Decimal.strip (d : Decimal) : Nat → Decimal
  | 0 => d
  | fuel + 1 =>
    if d.digits % 10 = 0 ∧ d.digits ≠ 0 then
      Decimal.strip ⟨d.digits / 10, d.exponent + 1⟩ fuel
    else d

/-- The shortest decimal of a finite number other than zero. -/
def shortest (n : Number) : Decimal :=
  let r := n.rounding
  let grids := (List.range 17).map fun i : Nat => r.magnitude - (i + 1)
  ((grids.findSome? r.onGrid?).getD ⟨0, 0⟩).strip 20

end ScriptTyping.Number
