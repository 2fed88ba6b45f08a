import ClassTree.Decimal.Binary

namespace ClassTree.Decimal

structure Numeral where
  digits : Nat
  exponent : Int

/-- A positive number and the ends of the interval that rounds to it, over one denominator. -/
structure Interval where
  low : Nat
  number : Nat
  high : Nat
  denominator : Nat
  /-- Whether the ends themselves round to the number. -/
  closed : Bool

/-- The interval of a finite number other than zero. Below a power of two the neighbouring
numbers are twice as dense, so there the lower end is half as far away. -/
def Interval.ofBits (format : BinaryFormat) (bits : Nat) : Interval :=
  let m := format.significand bits
  let q := format.scale bits - 2
  let below :=
    if format.fraction bits = 0 ∧ format.biasedExponent bits ≠ 0 then 1 else 2
  let factor := Nat.pow 2 q.toNat
  { low := (4 * m - below) * factor
    number := 4 * m * factor
    high := (4 * m + 2) * factor
    denominator := Nat.pow 2 (-q).toNat
    closed := m % 2 == 0 }

namespace Interval

/-- Compares `count * 10 ^ exponent` with `numerator / denominator`. -/
def compareGrid (interval : Interval) (count : Nat) (exponent : Int) (numerator : Nat) : Ordering :=
  compare (count * Nat.pow 10 exponent.toNat * interval.denominator)
    (numerator * Nat.pow 10 (-exponent).toNat)

def contains (interval : Interval) (count : Nat) (exponent : Int) : Bool :=
  match interval.compareGrid count exponent interval.low,
      interval.compareGrid count exponent interval.high with
  | .gt, .lt => true
  | .eq, .lt => interval.closed
  | .gt, .eq => interval.closed
  | _, _ => false

/-- The largest multiple of `10 ^ exponent` that is at most the number, in units of it. -/
def gridFloor (interval : Interval) (exponent : Int) : Nat :=
  interval.number * Nat.pow 10 (-exponent).toNat /
    (Nat.pow 10 exponent.toNat * interval.denominator)

/-- Whether the number is at least halfway from a grid point to the next. -/
def isUpperHalf (interval : Interval) (count : Nat) (exponent : Int) : Bool :=
  (2 * count + 1) * (Nat.pow 10 exponent.toNat * interval.denominator) ≤
    2 * interval.number * Nat.pow 10 (-exponent).toNat

/-- The neighbour of the number on a grid that lies in the interval: the nearer one if both do,
and the upper one on a tie. -/
def hit? (interval : Interval) (exponent : Int) : Option Numeral :=
  let lower := interval.gridFloor exponent
  match interval.contains lower exponent, interval.contains (lower + 1) exponent with
  | true, true =>
    some ⟨if interval.isUpperHalf lower exponent then lower + 1 else lower, exponent⟩
  | true, false => some ⟨lower, exponent⟩
  | false, true => some ⟨lower + 1, exponent⟩
  | false, false => none

def leadingExponent (interval : Interval) : Int :=
  let guess : Int :=
    (Nat.toDigits 10 interval.number).length - (Nat.toDigits 10 interval.denominator).length
  if interval.compareGrid 1 guess interval.number = .gt then guess - 1 else guess

/-- Seventeen digits tell any two numbers of the supported formats apart. -/
def shortest (interval : Interval) : Numeral :=
  let leading := interval.leadingExponent
  ((List.range 17).findSome? fun (n : Nat) => interval.hit? (leading - n)).getD
    ⟨interval.gridFloor (leading - 16), leading - 16⟩

end Interval
end ClassTree.Decimal
