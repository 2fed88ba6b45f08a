namespace ClassTree.Decimal

structure BinaryFormat where
  fractionBits : Nat
  exponentBits : Nat

namespace BinaryFormat

def single : BinaryFormat := ⟨23, 8⟩

def double : BinaryFormat := ⟨52, 11⟩

def fraction (format : BinaryFormat) (bits : Nat) : Nat :=
  bits % Nat.pow 2 format.fractionBits

def biasedExponent (format : BinaryFormat) (bits : Nat) : Nat :=
  bits / Nat.pow 2 format.fractionBits % Nat.pow 2 format.exponentBits

def isNegative (format : BinaryFormat) (bits : Nat) : Bool :=
  bits / Nat.pow 2 (format.fractionBits + format.exponentBits) % 2 == 1

def isFinite (format : BinaryFormat) (bits : Nat) : Bool :=
  format.biasedExponent bits ≠ Nat.pow 2 format.exponentBits - 1

def isNaN (format : BinaryFormat) (bits : Nat) : Bool :=
  !format.isFinite bits && format.fraction bits ≠ 0

def isZero (format : BinaryFormat) (bits : Nat) : Bool :=
  format.biasedExponent bits == 0 && format.fraction bits == 0

/-- Equality of numbers: a NaN differs from everything, and the two zeros are equal. -/
def sameNumber (format : BinaryFormat) (bits₁ bits₂ : Nat) : Bool :=
  !format.isNaN bits₁ && !format.isNaN bits₂ &&
    (bits₁ == bits₂ || format.isZero bits₁ && format.isZero bits₂)

def significand (format : BinaryFormat) (bits : Nat) : Nat :=
  if format.biasedExponent bits = 0 then format.fraction bits
  else format.fraction bits + Nat.pow 2 format.fractionBits

def scale (format : BinaryFormat) (bits : Nat) : Int :=
  (max (format.biasedExponent bits) 1 : Nat) - (Nat.pow 2 (format.exponentBits - 1) - 1 : Nat)
    - format.fractionBits

end BinaryFormat
end ClassTree.Decimal
