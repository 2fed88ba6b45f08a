namespace ClassTree

abbrev Bytes := List UInt8

namespace BigEndian

def digits : Nat → Nat → Bytes
  | 0, _ => []
  | width + 1, n => digits width (n / 256) ++ [UInt8.ofNat n]

def value (bytes : Bytes) : Nat :=
  bytes.foldl (fun total byte => total * 256 + byte.toNat) 0

@[simp] theorem length_digits (width n : Nat) : (digits width n).length = width := by
  induction width generalizing n with
  | zero => rfl
  | succ width ih => simp [digits, ih]

theorem value_append_singleton (bytes : Bytes) (byte : UInt8) :
    value (bytes ++ [byte]) = value bytes * 256 + byte.toNat := by
  simp [value]

/-- Writing drops what does not fit in the width, and nothing else. -/
theorem value_digits (width n : Nat) : value (digits width n) = n % Nat.pow 256 width := by
  induction width generalizing n with
  | zero => simp [digits, value, Nat.mod_one]
  | succ width ih =>
    have power : Nat.pow 256 (width + 1) = 256 * Nat.pow 256 width := Nat.mul_comm _ _
    rw [digits, value_append_singleton, ih, power, Nat.mod_mul]
    simp only [UInt8.toNat_ofNat']
    omega

def u8 (x : UInt8) : Bytes := [x]

def u16 (x : UInt16) : Bytes := digits 2 x.toNat

def u32 (x : UInt32) : Bytes := digits 4 x.toNat

def u64 (x : UInt64) : Bytes := digits 8 x.toNat

def i8 (x : Int8) : Bytes := u8 x.toUInt8

def i16 (x : Int16) : Bytes := u16 x.toUInt16

def i32 (x : Int32) : Bytes := u32 x.toUInt32

def i64 (x : Int64) : Bytes := u64 x.toUInt64

/-- A sequence is written after its length, of which 16 bits are kept. -/
def counted (item : α → Bytes) (items : List α) : Bytes :=
  u16 (UInt16.ofNat items.length) ++ items.flatMap item

end BigEndian
end ClassTree
