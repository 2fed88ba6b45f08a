import ClassTree.Proofs.Text.ModifiedUtf8

namespace ClassTree.Text.ModifiedUtf8

/-- The form of one 16-bit unit: as few bytes as possible, but two for the zero unit. -/
inductive CanonicalUnit : Bytes → Prop where
  | one {a : UInt8} : 0x01 ≤ a.toNat → a.toNat ≤ 0x7F → CanonicalUnit [a]
  | zero : CanonicalUnit [0xC0, 0x80]
  | two {a b : UInt8} : 0xC2 ≤ a.toNat → a.toNat ≤ 0xDF → isContinuation b → CanonicalUnit [a, b]
  | threeLow {b c : UInt8} : 0xA0 ≤ b.toNat → b.toNat ≤ 0xBF → isContinuation c →
      CanonicalUnit [0xE0, b, c]
  | three {a b c : UInt8} : 0xE1 ≤ a.toNat → a.toNat ≤ 0xEF → isContinuation b →
      isContinuation c → CanonicalUnit [a, b, c]

inductive Canonical : Bytes → Prop where
  | nil : Canonical []
  | cons {piece rest : Bytes} : CanonicalUnit piece → Canonical rest → Canonical (piece ++ rest)

theorem isContinuation_iff {byte : UInt8} :
    isContinuation byte = true ↔ 0x80 ≤ byte.toNat ∧ byte.toNat ≤ 0xBF := by
  rw [isContinuation, beq_iff_eq]
  omega

theorem ofNat_eq_of_eq (byte : UInt8) {n : Nat} (h : n = byte.toNat) : UInt8.ofNat n = byte := by
  rw [h, UInt8.ofNat_toNat]

/-- Canonical is what encoding writes. -/
theorem CanonicalUnit.encodes {piece : Bytes} (h : CanonicalUnit piece) :
    ∃ unit, unit < 0x10000 ∧ encodeUnit unit = piece := by
  cases h with
  | one hlow hhigh =>
    rename_i a
    refine ⟨a.toNat, by omega, ?_⟩
    rw [encodeUnit, if_pos ⟨by omega, by omega⟩, UInt8.ofNat_toNat]
  | zero => exact ⟨0, by decide, rfl⟩
  | two hlow hhigh hb =>
    rename_i a b
    obtain ⟨hb, hb'⟩ := isContinuation_iff.mp hb
    refine ⟨(a.toNat - 0xC0) * 0x40 + (b.toNat - 0x80), by omega, ?_⟩
    rw [encodeUnit, if_neg (by omega), if_pos (by omega), ofNat_eq_of_eq a (by omega),
      ofNat_eq_of_eq b (by omega)]
  | threeLow hlow hhigh hc =>
    rename_i b c
    obtain ⟨hc, hc'⟩ := isContinuation_iff.mp hc
    refine ⟨(b.toNat - 0x80) * 0x40 + (c.toNat - 0x80), by omega, ?_⟩
    rw [encodeUnit, if_neg (by omega), if_neg (by omega),
      ofNat_eq_of_eq 0xE0 (by rw [show (0xE0 : UInt8).toNat = 0xE0 from rfl]; omega),
      ofNat_eq_of_eq b (by omega), ofNat_eq_of_eq c (by omega)]
  | three hlow hhigh hb hc =>
    rename_i a b c
    obtain ⟨hb, hb'⟩ := isContinuation_iff.mp hb
    obtain ⟨hc, hc'⟩ := isContinuation_iff.mp hc
    refine ⟨(a.toNat - 0xE0) * 0x1000 + (b.toNat - 0x80) * 0x40 + (c.toNat - 0x80), by omega, ?_⟩
    rw [encodeUnit, if_neg (by omega), if_neg (by omega), ofNat_eq_of_eq a (by omega),
      ofNat_eq_of_eq b (by omega), ofNat_eq_of_eq c (by omega)]

theorem canonicalUnit_encodeUnit {unit : Nat} (h : unit < 0x10000) :
    CanonicalUnit (encodeUnit unit) := by
  have hbyte : ∀ {n : Nat}, n < 256 → (UInt8.ofNat n).toNat = n := UInt8.toNat_ofNat_of_lt'
  have hcontinuation : ∀ n, isContinuation (UInt8.ofNat (0x80 + n % 0x40)) = true := by
    intro n
    rw [isContinuation_iff, hbyte (by omega)]
    omega
  unfold encodeUnit
  split
  · exact .one (by rw [hbyte (by omega)]; omega) (by rw [hbyte (by omega)]; omega)
  · split
    · rcases Nat.eq_zero_or_pos unit with rfl | hpos
      · exact .zero
      · exact .two (by rw [hbyte (by omega)]; omega) (by rw [hbyte (by omega)]; omega)
          (hcontinuation _)
    · rcases Nat.lt_or_ge unit 0x1000 with hlow | hhigh
      · rw [ofNat_eq_of_eq 0xE0 (by rw [show (0xE0 : UInt8).toNat = 0xE0 from rfl]; omega)]
        exact .threeLow (by rw [hbyte (by omega)]; omega) (by rw [hbyte (by omega)]; omega)
          (hcontinuation _)
      · exact .three (by rw [hbyte (by omega)]; omega) (by rw [hbyte (by omega)]; omega)
          (hcontinuation _) (hcontinuation _)

theorem Canonical.encodes {payload : Bytes} (h : Canonical payload) :
    ∃ units : List Nat, (∀ unit ∈ units, unit < 0x10000) ∧ units.flatMap encodeUnit = payload := by
  induction h with
  | nil => exact ⟨[], nofun, rfl⟩
  | cons hpiece _ ih =>
    obtain ⟨unit, hlt, rfl⟩ := hpiece.encodes
    obtain ⟨units, hall, rfl⟩ := ih
    exact ⟨unit :: units, List.forall_mem_cons.mpr ⟨hlt, hall⟩, rfl⟩

theorem canonical_flatMap {units : List Nat} (h : ∀ unit ∈ units, unit < 0x10000) :
    Canonical (units.flatMap encodeUnit) := by
  induction units with
  | nil => exact .nil
  | cons unit units ih =>
    obtain ⟨hlt, hall⟩ := List.forall_mem_cons.mp h
    exact .cons (canonicalUnit_encodeUnit hlt) (ih hall)

theorem units_ofNat {n : Nat} (h : n.isValidChar) :
    units (Char.ofNat n) =
      if n < 0x10000 then [n]
      else [0xD800 + (n - 0x10000) / 0x400, 0xDC00 + (n - 0x10000) % 0x400] := by
  rw [units, Char.ofNat, dif_pos h]
  rfl

/-- The units of the characters that were found are those that were given. -/
theorem flatMap_units_of_charsFrom {found chars : List Char} {given : List Nat}
    (hlt : ∀ unit ∈ given, unit < 0x10000) (h : charsFrom found given = some chars) :
    chars.flatMap units = found.reverse.flatMap units ++ given := by
  fun_induction charsFrom found given with
  | case1 =>
    obtain rfl := Option.some.inj h
    exact (List.append_nil _).symm
  | case2 => cases h
  | case3 found unit hsurrogate =>
    obtain rfl := Option.some.inj h
    have hu := hlt unit List.mem_cons_self
    simp only [isHighSurrogate, isLowSurrogate, Bool.or_eq_true, beq_iff_eq, not_or] at hsurrogate
    have hvalid : unit.isValidChar := by
      unfold Nat.isValidChar
      omega
    rw [List.reverse_cons, List.flatMap_append, List.flatMap_singleton, units_ofNat hvalid,
      if_pos hu]
  | case4 found high low rest hhigh hlow ih =>
    have hl := hlt low (by simp)
    obtain ⟨hu, hrest⟩ := List.forall_mem_cons.mp hlt
    rw [ih (fun unit hm => hrest unit (List.mem_cons_of_mem _ hm)) h, List.reverse_cons,
      List.flatMap_append, List.flatMap_singleton, List.append_assoc]
    simp only [isHighSurrogate, isLowSurrogate, beq_iff_eq] at hhigh hlow
    have hvalid : (0x10000 + high % 0x400 * 0x400 + low % 0x400).isValidChar := by
      unfold Nat.isValidChar
      omega
    rw [units_ofNat hvalid, if_neg (by omega),
      show 0xD800 + (0x10000 + high % 0x400 * 0x400 + low % 0x400 - 0x10000) / 0x400 = high by
        omega,
      show 0xDC00 + (0x10000 + high % 0x400 * 0x400 + low % 0x400 - 0x10000) % 0x400 = low by
        omega]
    rfl
  | case5 => cases h
  | case6 => cases h
  | case7 found high low rest hhigh hlow ih =>
    obtain ⟨hu, hrest⟩ := List.forall_mem_cons.mp hlt
    simp only [isHighSurrogate, isLowSurrogate, beq_iff_eq] at hhigh hlow
    have hvalid : high.isValidChar := by
      unfold Nat.isValidChar
      omega
    rw [ih hrest h, List.reverse_cons, List.flatMap_append, List.flatMap_singleton,
      units_ofNat hvalid, if_pos hu, List.append_assoc, List.singleton_append]

theorem length_encodeUnit_le (unit : Nat) :
    (encodeUnit unit).length ≤ 3 ∧ (unit < 0x800 → (encodeUnit unit).length ≤ 2) := by
  unfold encodeUnit
  repeat' split
  all_goals simp_all

/-- Only units from 0x800 on need three bytes. -/
theorem decodeUnit_spares {payload rest : Bytes} {unit : Nat}
    (h : decodeUnit payload = some (unit, rest)) :
    unit < 0x800 ∧ rest.length + 1 ≤ payload.length ∨
      unit < 0x10000 ∧ rest.length + 3 ≤ payload.length := by
  unfold decodeUnit at h
  repeat' split at h
  all_goals cases h
  · exact .inl ⟨by omega, Nat.le_refl _⟩
  · exact .inl ⟨by omega, Nat.le_succ _⟩
  · exact .inr ⟨by omega, Nat.le_refl _⟩

/-- Encoding what was decoded takes at most twice as many bytes. -/
theorem length_flatMap_unitsFrom {payload : Bytes} {found given : List Nat}
    (h : unitsFrom found payload = some given) :
    ∃ new, given = found.reverse ++ new ∧ (∀ unit ∈ new, unit < 0x10000) ∧
      (new.flatMap encodeUnit).length ≤ 2 * payload.length := by
  fun_induction unitsFrom found payload with
  | case1 found =>
    obtain rfl := Option.some.inj h
    exact ⟨[], (List.append_nil _).symm, nofun, Nat.le_refl _⟩
  | case2 => cases h
  | case3 found first tail unit rest hdecode _ ih =>
    obtain ⟨new, rfl, hlt, hlength⟩ := ih h
    have hlong := length_encodeUnit_le unit
    have hspares := decodeUnit_spares hdecode
    refine ⟨unit :: new, by simp, List.forall_mem_cons.mpr ⟨by omega, hlt⟩, ?_⟩
    rw [List.flatMap_cons, List.length_append]
    omega

/-- Text that was decoded is encoded unit by unit as it was decoded. -/
theorem exists_units_of_decode {payload : Bytes} {text : String} (h : decode payload = some text) :
    ∃ given, unitsFrom [] payload = some given ∧ encode text = given.flatMap encodeUnit ∧
      (encode text).length ≤ 2 * payload.length := by
  obtain ⟨given, hgiven, h⟩ := Option.bind_eq_some_iff.mp h
  obtain ⟨chars, hchars, rfl⟩ : ∃ chars, charsFrom [] given = some chars ∧
      String.ofList chars = text := by
    simpa [Option.bind_eq_some_iff] using h
  obtain ⟨new, rfl, hlt, hlength⟩ := length_flatMap_unitsFrom hgiven
  have hencode : encode (String.ofList chars) = given.flatMap encodeUnit := by
    rw [encode, String.toList_ofList, ← List.flatMap_assoc, flatMap_units_of_charsFrom hlt hchars]
    rfl
  exact ⟨given, hgiven, hencode, hencode ▸ hlength⟩

/-- What is decoded is encoded as it was if it was in the canonical form, and else in another. -/
theorem encode_eq_iff_of_decode {payload : Bytes} {text : String} (h : decode payload = some text) :
    encode text = payload ↔ Canonical payload := by
  constructor
  · rintro rfl
    rw [encode, ← List.flatMap_assoc]
    refine canonical_flatMap fun unit hm => ?_
    obtain ⟨c, -, hc⟩ := List.mem_flatMap.mp hm
    exact units_lt c unit hc
  · intro hcanonical
    obtain ⟨given, hgiven, hencode, -⟩ := exists_units_of_decode h
    obtain ⟨units, hlt, rfl⟩ := hcanonical.encodes
    rw [unitsFrom_flatMap hlt] at hgiven
    obtain rfl : units = given := Option.some.inj hgiven
    exact hencode

end ClassTree.Text.ModifiedUtf8
