/-!
# Numbers

A number is a binary64 value, kept as its 64 bits: a sign, eleven bits of exponent and 52 of
fraction.
-/

namespace ScriptTyping

structure Number where
  bits : UInt64
deriving DecidableEq

namespace Number

def isNegative (n : Number) : Bool := n.bits.toNat ≥ Nat.pow 2 63

def exponentField (n : Number) : Nat := n.bits.toNat / Nat.pow 2 52 % Nat.pow 2 11

def fraction (n : Number) : Nat := n.bits.toNat % Nat.pow 2 52

def isFinite (n : Number) : Bool := n.exponentField != 2047

def isNaN (n : Number) : Bool := !n.isFinite && n.fraction != 0

def isZero (n : Number) : Bool := n.bits.toNat % Nat.pow 2 63 == 0

/-- The magnitude of a finite number is `mantissa * 2 ^ (scale - 1074)`. -/
def mantissa (n : Number) : Nat :=
  if n.exponentField = 0 then n.fraction else Nat.pow 2 52 + n.fraction

def scale (n : Number) : Nat := n.exponentField - 1

/-- Equality of values: NaN differs from itself, and the two zeros are one value. -/
def same (a b : Number) : Bool :=
  !a.isNaN && !b.isNaN && (a.bits == b.bits || (a.isZero && b.isZero))

/-- The magnitude of a finite number that has no fractional part. -/
def wholePart? (n : Number) : Option Nat :=
  let scaled := n.mantissa * Nat.pow 2 n.scale
  if n.isFinite ∧ scaled % Nat.pow 2 1074 = 0 then some (scaled / Nat.pow 2 1074) else none

end Number

end ScriptTyping
