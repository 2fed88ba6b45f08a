import ClassTree.Decimal.Shortest

namespace ClassTree.Decimal

/-- Leading digits without trailing zeros, and the exponent of the first of them. -/
def Numeral.normalized (number : Numeral) : List Char × Int :=
  let digits := Nat.toDigits 10 number.digits
  ((digits.reverse.dropWhile (· == '0')).reverse, number.exponent + digits.length - 1)

def positional (digits : List Char) (exponent : Int) : String :=
  if exponent < 0 then
    "0." ++ String.ofList (List.replicate (-exponent - 1).toNat '0' ++ digits)
  else
    let whole := exponent.toNat + 1
    let front := digits.take whole ++ List.replicate (whole - digits.length) '0'
    let back := digits.drop whole
    String.ofList front ++ "." ++ (if back.isEmpty then "0" else String.ofList back)

/-- One digit before the point, which is left out when no digit follows. -/
def scientific (digits : List Char) (exponent : Int) : String :=
  let back := digits.drop 1
  String.ofList (digits.take 1) ++ (if back.isEmpty then "" else "." ++ String.ofList back)
    ++ "e" ++ toString exponent

/-- Magnitudes from `10 ^ -4` up to `10 ^ 16` are written positionally. -/
def Numeral.text (number : Numeral) : String :=
  let (digits, exponent) := number.normalized
  if -4 ≤ exponent ∧ exponent < 16 then positional digits exponent
  else scientific digits exponent

/-- Text of a finite number given by its bits. -/
def BinaryFormat.text (format : BinaryFormat) (bits : Nat) : String :=
  let sign := if format.isNegative bits then "-" else ""
  if format.isZero bits then sign ++ "0.0"
  else sign ++ (Interval.ofBits format bits).shortest.text

end ClassTree.Decimal
