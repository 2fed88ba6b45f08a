import ClassTree.Text.ModifiedUtf8

namespace ClassTree.Text.ModifiedUtf8

theorem encodeUnit_ne_nil (unit : Nat) : encodeUnit unit ≠ [] := by
  unfold encodeUnit
  split
  · nofun
  · split <;> nofun

theorem decodeUnit_encodeUnit {unit : Nat} (h : unit < 0x10000) (rest : Bytes) :
    decodeUnit (encodeUnit unit ++ rest) = some (unit, rest) := by
  have hbyte : ∀ {n : Nat}, n < 256 → (UInt8.ofNat n).toNat = n := UInt8.toNat_ofNat_of_lt'
  have hcontinuation : ∀ {n : Nat}, isContinuation (UInt8.ofNat (0x80 + n % 0x40)) = true := by
    intro n
    rw [isContinuation, hbyte (by omega), beq_iff_eq]
    omega
  unfold encodeUnit
  split
  · rw [List.singleton_append, decodeUnit.eq_def]
    dsimp only
    rw [hbyte (by omega), if_pos (by omega)]
  · split
    · rw [List.cons_append, List.singleton_append, decodeUnit.eq_def]
      dsimp only
      rw [hbyte (by omega), if_neg (by omega), if_pos (by omega)]
      simp only [hcontinuation, if_true, hbyte (show 0x80 + unit % 0x40 < 256 by omega)]
      congr 2
      omega
    · rw [List.cons_append, List.cons_append, List.singleton_append, decodeUnit.eq_def]
      dsimp only
      rw [hbyte (by omega), if_neg (by omega), if_neg (by omega), if_pos (by omega)]
      simp only [hcontinuation, Bool.and_self, if_true,
        hbyte (show 0x80 + unit % 0x40 < 256 by omega),
        hbyte (show 0x80 + unit / 0x40 % 0x40 < 256 by omega)]
      congr 2
      omega

theorem unitsFrom_flatMap {units : List Nat} (h : ∀ unit ∈ units, unit < 0x10000)
    (found : List Nat) :
    unitsFrom found (units.flatMap encodeUnit) = some (found.reverse ++ units) := by
  induction units generalizing found with
  | nil => simp [unitsFrom]
  | cons unit units ih =>
    have hdecode := decodeUnit_encodeUnit (h unit List.mem_cons_self) (units.flatMap encodeUnit)
    rw [List.flatMap_cons]
    obtain ⟨byte, tail, hbytes⟩ := List.exists_cons_of_ne_nil (encodeUnit_ne_nil unit)
    rw [hbytes, List.cons_append] at hdecode ⊢
    rw [unitsFrom]
    split
    · rename_i hnone
      cases hnone.symm.trans hdecode
    · rename_i unit' rest hsome
      obtain ⟨rfl, rfl⟩ : unit = unit' ∧ units.flatMap encodeUnit = rest := by
        simpa using hdecode.symm.trans hsome
      rw [ih fun other hm => h other (List.mem_cons_of_mem _ hm)]
      simp

/-- A character is below U+D800, or from U+E000 on. -/
theorem isSurrogate_toNat (c : Char) :
    isHighSurrogate c.toNat = false ∧ isLowSurrogate c.toNat = false ∧ c.toNat < 0x110000 := by
  have hvalid := c.valid
  simp only [UInt32.isValidChar, Nat.isValidChar] at hvalid
  change c.toNat < 0xd800 ∨ 0xdfff < c.toNat ∧ c.toNat < 0x110000 at hvalid
  simp only [isHighSurrogate, isLowSurrogate, beq_eq_false_iff_ne]
  omega

theorem units_lt (c : Char) : ∀ unit ∈ units c, unit < 0x10000 := by
  obtain ⟨-, -, hlt⟩ := isSurrogate_toNat c
  intro unit hm
  unfold units at hm
  split at hm
  · rwa [List.mem_singleton.mp hm]
  · simp only [List.mem_cons, List.not_mem_nil, or_false] at hm
    omega

theorem charsFrom_units (c : Char) (rest : List Nat) (found : List Char) :
    charsFrom found (units c ++ rest) = charsFrom (c :: found) rest := by
  obtain ⟨hhigh, hlow, hlt⟩ := isSurrogate_toNat c
  unfold units
  split
  · cases rest with
    | nil => simp [charsFrom, hhigh, hlow]
    | cons next rest => simp [charsFrom, hhigh, hlow]
  · rename_i hbeyond
    have hh : isHighSurrogate (0xD800 + (c.toNat - 0x10000) / 0x400) = true := by
      rw [isHighSurrogate, beq_iff_eq]
      omega
    have hl : isLowSurrogate (0xDC00 + (c.toNat - 0x10000) % 0x400) = true := by
      rw [isLowSurrogate, beq_iff_eq]
      omega
    have hchar : 0x10000 + (0xD800 + (c.toNat - 0x10000) / 0x400) % 0x400 * 0x400 +
        (0xDC00 + (c.toNat - 0x10000) % 0x400) % 0x400 = c.toNat := by
      omega
    rw [List.cons_append, List.singleton_append, charsFrom, if_pos hh, if_pos hl, hchar,
      Char.ofNat_toNat]

theorem charsFrom_flatMap (chars found : List Char) :
    charsFrom found (chars.flatMap units) = some (found.reverse ++ chars) := by
  induction chars generalizing found with
  | nil => simp [charsFrom]
  | cons c chars ih => simp [charsFrom_units, ih]

/-- All text survives. -/
theorem decode_of_encode (text : String) : decode (encode text) = some text := by
  have hunits : encode text = (text.toList.flatMap units).flatMap encodeUnit := by
    rw [encode, List.flatMap_assoc]
  have hlt : ∀ unit ∈ text.toList.flatMap units, unit < 0x10000 := by
    intro unit hm
    obtain ⟨c, -, hc⟩ := List.mem_flatMap.mp hm
    exact units_lt c unit hc
  rw [decode, hunits, unitsFrom_flatMap hlt]
  simp [charsFrom_flatMap]

end ClassTree.Text.ModifiedUtf8
