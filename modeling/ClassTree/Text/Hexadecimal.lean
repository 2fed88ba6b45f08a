namespace ClassTree.Text

def padLeft (width : Nat) (digits : List Char) : String :=
  String.ofList (List.replicate (width - digits.length) '0' ++ digits)

def hex (width n : Nat) : String :=
  padLeft width (Nat.toDigits 16 n)

def hexUpper (width n : Nat) : String :=
  padLeft width ((Nat.toDigits 16 n).map Char.toUpper)

end ClassTree.Text
