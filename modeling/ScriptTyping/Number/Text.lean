import ScriptTyping.Number.Shortest

/-!
# The text of a number

Always positional, with as few digits as read back.
-/

namespace ScriptTyping.Number

/-- The decimal written without an exponent. -/
def Decimal.positional (d : Decimal) : String :=
  let digits := Nat.toDigits 10 d.digits
  if 0 ≤ d.exponent then
    String.ofList (digits ++ List.replicate d.exponent.toNat '0')
  else
    let places := (-d.exponent).toNat
    if places < digits.length then
      let whole := digits.length - places
      String.ofList (digits.take whole ++ '.' :: digits.drop whole)
    else
      String.ofList ('0' :: '.' :: (List.replicate (places - digits.length) '0' ++ digits))

def magnitudeText (n : Number) : String :=
  if n.isFinite then
    if n.isZero then "0" else n.shortest.positional
  else "inf"

/-- The text that keeps every difference between numbers, the sign of zero included. -/
def text (n : Number) : String :=
  if n.isNaN then "NaN"
  else if n.isNegative then "-" ++ n.magnitudeText
  else n.magnitudeText

/-- A whole number below 10¹⁵ is shown as an integer, so zero has no sign; any other number by
its full text. -/
def display (n : Number) : String :=
  match n.wholePart? with
  | some whole =>
    if whole < Nat.pow 10 15 then
      let digits := String.ofList (Nat.toDigits 10 whole)
      if n.isNegative ∧ whole ≠ 0 then "-" ++ digits else digits
    else n.text
  | none => n.text

end ScriptTyping.Number
