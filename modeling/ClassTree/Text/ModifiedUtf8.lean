import ClassTree.Bytes.BigEndian

namespace ClassTree.Text.ModifiedUtf8

def units (c : Char) : List Nat :=
  if c.toNat < 0x10000 then [c.toNat]
  else [0xD800 + (c.toNat - 0x10000) / 0x400, 0xDC00 + (c.toNat - 0x10000) % 0x400]

def encodeUnit (unit : Nat) : Bytes :=
  if unit ≠ 0 ∧ unit < 0x80 then [UInt8.ofNat unit]
  else if unit < 0x800 then
    [UInt8.ofNat (0xC0 + unit / 0x40), UInt8.ofNat (0x80 + unit % 0x40)]
  else
    [UInt8.ofNat (0xE0 + unit / 0x1000), UInt8.ofNat (0x80 + unit / 0x40 % 0x40),
      UInt8.ofNat (0x80 + unit % 0x40)]

def encode (text : String) : Bytes :=
  text.toList.flatMap fun c => (units c).flatMap encodeUnit

def isContinuation (byte : UInt8) : Bool :=
  byte.toNat / 0x40 == 2

/-- The first unit and what follows it. Longer forms than necessary are accepted. -/
def decodeUnit : Bytes → Option (Nat × Bytes)
  | [] => none
  | b₀ :: rest =>
    if b₀.toNat < 0x80 then some (b₀.toNat, rest)
    else if b₀.toNat / 0x20 = 6 then
      match rest with
      | b₁ :: rest =>
        if isContinuation b₁ then some (b₀.toNat % 0x20 * 0x40 + b₁.toNat % 0x40, rest) else none
      | [] => none
    else if b₀.toNat / 0x10 = 14 then
      match rest with
      | b₁ :: b₂ :: rest =>
        if isContinuation b₁ && isContinuation b₂ then
          some (b₀.toNat % 0x10 * 0x1000 + b₁.toNat % 0x40 * 0x40 + b₂.toNat % 0x40, rest)
        else none
      | _ => none
    else none

theorem decodeUnit_shorter {bytes rest : Bytes} {unit : Nat}
    (h : decodeUnit bytes = some (unit, rest)) : rest.length < bytes.length := by
  unfold decodeUnit at h
  repeat' split at h
  all_goals simp_all
  all_goals grind

def unitsFrom (found : List Nat) (bytes : Bytes) : Option (List Nat) :=
  match bytes with
  | [] => some found.reverse
  | b :: tail =>
    match h : decodeUnit (b :: tail) with
    | none => none
    | some (unit, rest) =>
      have := decodeUnit_shorter h
      unitsFrom (unit :: found) rest
termination_by bytes.length
decreasing_by assumption

def isHighSurrogate (unit : Nat) : Bool := unit / 0x400 == 0x36

def isLowSurrogate (unit : Nat) : Bool := unit / 0x400 == 0x37

/-- Characters of a sequence of units, after those already found (in reverse). A surrogate
outside of a pair denotes no character. -/
def charsFrom (found : List Char) : List Nat → Option (List Char)
  | [] => some found.reverse
  | [unit] =>
    if isHighSurrogate unit || isLowSurrogate unit then none
    else some (Char.ofNat unit :: found).reverse
  | high :: low :: rest =>
    if isHighSurrogate high then
      if isLowSurrogate low then
        charsFrom (Char.ofNat (0x10000 + high % 0x400 * 0x400 + low % 0x400) :: found) rest
      else none
    else if isLowSurrogate high then none
    else charsFrom (Char.ofNat high :: found) (low :: rest)

/-- The text that the bytes encode, if they are well formed. -/
def decode (bytes : Bytes) : Option String := do
  let units ← unitsFrom [] bytes
  let chars ← charsFrom [] units
  some (String.ofList chars)

end ClassTree.Text.ModifiedUtf8
