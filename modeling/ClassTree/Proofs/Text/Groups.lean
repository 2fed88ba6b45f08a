import ClassTree.Proofs.Text.Canonical

namespace ClassTree.Text.ModifiedUtf8

/-- A group of bytes, and the unit that is read from it. -/
inductive Reads : Bytes → Nat → Prop
  | one {a : UInt8} (lead : a.toNat < 0x80) : Reads [a] a.toNat
  | two {a b : UInt8} (lead : a.toNat / 0x20 = 6) (next : isContinuation b = true) :
      Reads [a, b] (a.toNat % 0x20 * 0x40 + b.toNat % 0x40)
  | three {a b c : UInt8} (lead : a.toNat / 0x10 = 14) (next : isContinuation b = true)
      (last : isContinuation c = true) :
      Reads [a, b, c] (a.toNat % 0x10 * 0x1000 + b.toNat % 0x40 * 0x40 + c.toNat % 0x40)

variable {group other payload rest : Bytes} {unit : Nat}

theorem decodeUnit_eq_some : decodeUnit payload = some (unit, rest) ↔
    ∃ group, Reads group unit ∧ payload = group ++ rest := by
  constructor
  · intro h
    unfold decodeUnit at h
    repeat' split at h
    all_goals cases h
    · exact ⟨_, .one ‹_›, rfl⟩
    · exact ⟨_, .two ‹_› ‹_›, rfl⟩
    · rename_i hlead _ _ _ hnext
      rw [Bool.and_eq_true] at hnext
      exact ⟨_, .three hlead hnext.1 hnext.2, rfl⟩
  · rintro ⟨group, hreads, rfl⟩
    cases hreads with
    | one lead => simp [decodeUnit, lead]
    | two lead next =>
      rw [List.cons_append, List.singleton_append, decodeUnit, if_neg (by omega), if_pos lead]
      simp [next]
    | three lead next last =>
      rw [List.cons_append, List.cons_append, List.singleton_append, decodeUnit,
        if_neg (by omega), if_neg (by omega), if_pos lead]
      simp [next, last]

/-- No group is the beginning of another one. -/
theorem Reads.unique {unit' : Nat} {rest' : Bytes} (h : Reads group unit) (h' : Reads other unit')
    (he : group ++ rest = other ++ rest') : group = other ∧ rest = rest' := by
  have hd : decodeUnit (other ++ rest') = some (unit, rest) :=
    decodeUnit_eq_some.mpr ⟨group, h, he.symm⟩
  have hd' : decodeUnit (other ++ rest') = some (unit', rest') :=
    decodeUnit_eq_some.mpr ⟨other, h', rfl⟩
  obtain ⟨-, rfl⟩ := Prod.mk.inj (Option.some.inj (hd.symm.trans hd'))
  exact ⟨List.append_cancel_right he, rfl⟩

theorem Reads.lt (h : Reads group unit) : unit < 0x10000 := by
  cases h <;> omega

theorem Reads.length_bounded (h : Reads group unit) : 1 ≤ group.length ∧ group.length ≤ 3 := by
  cases h <;> simp

/-- The bytes that a unit takes are all that it can do with, unless it is the zero unit. -/
theorem Reads.length_encodeUnit_le (h : Reads group unit) (hne : unit ≠ 0) :
    (encodeUnit unit).length ≤ group.length := by
  cases h with
  | one lead => rw [encodeUnit, if_pos ⟨hne, lead⟩]; exact Nat.le_refl _
  | two => exact (ModifiedUtf8.length_encodeUnit_le _).2 (by omega)
  | three => exact (ModifiedUtf8.length_encodeUnit_le _).1

theorem Reads.eq_encodeUnit (h : Reads group unit)
    (hlength : group.length = (encodeUnit unit).length) : group = encodeUnit unit := by
  cases h with
  | one lead =>
    unfold encodeUnit at hlength ⊢
    split
    · rw [UInt8.ofNat_toNat]
    · rename_i hlong
      rw [if_neg hlong] at hlength
      split at hlength <;> cases hlength
  | @two a b lead next =>
    obtain ⟨hlow, hhigh⟩ := isContinuation_iff.mp next
    unfold encodeUnit at hlength ⊢
    split
    · rename_i hshort
      rw [if_pos hshort] at hlength
      cases hlength
    · rw [if_pos (by omega), ofNat_eq_of_eq a (by omega), ofNat_eq_of_eq b (by omega)]
  | @three a b c lead next last =>
    obtain ⟨hlow, hhigh⟩ := isContinuation_iff.mp next
    obtain ⟨hlow', hhigh'⟩ := isContinuation_iff.mp last
    unfold encodeUnit at hlength ⊢
    split
    · rename_i hshort
      rw [if_pos hshort] at hlength
      cases hlength
    · rename_i hlong
      rw [if_neg hlong] at hlength
      split
      · rename_i hshort
        rw [if_pos hshort] at hlength
        cases hlength
      · rw [ofNat_eq_of_eq a (by omega), ofNat_eq_of_eq b (by omega), ofNat_eq_of_eq c (by omega)]

theorem reads_encodeUnit (h : unit < 0x10000) : Reads (encodeUnit unit) unit := by
  have hd := decodeUnit_encodeUnit h []
  obtain ⟨group, hreads, he⟩ := decodeUnit_eq_some.mp hd
  rw [List.append_nil, List.append_nil] at he
  exact he ▸ hreads

/-- No shorter group is read as the same unit. The zero unit takes two bytes all the same. -/
def Shortest (group : Bytes) : Prop :=
  ∃ unit, Reads group unit ∧
    if unit = 0 then group = [0xC0, 0x80]
    else ∀ other, Reads other unit → group.length ≤ other.length

theorem shortest_iff : Shortest group ↔ ∃ unit < 0x10000, encodeUnit unit = group := by
  constructor
  · rintro ⟨unit, hreads, hshort⟩
    refine ⟨unit, hreads.lt, ?_⟩
    split at hshort
    · rename_i hzero
      rw [hzero, hshort]
      rfl
    · rename_i hne
      exact (hreads.eq_encodeUnit (Nat.le_antisymm (hshort _ (reads_encodeUnit hreads.lt))
        (hreads.length_encodeUnit_le hne))).symm
  · rintro ⟨unit, hlt, rfl⟩
    refine ⟨unit, reads_encodeUnit hlt, ?_⟩
    split
    · rename_i hzero
      rw [hzero]
      rfl
    · rename_i hne
      exact fun other hother => hother.length_encodeUnit_le hne

/-- The bytes, cut into the groups that units are read from. -/
structure Cut (payload : Bytes) (groups : List Bytes) : Prop where
  whole : groups.flatten = payload
  reads : ∀ group ∈ groups, ∃ unit, Reads group unit

theorem Cut.unique {groups others : List Bytes} (h : Cut payload groups) (h' : Cut payload others) :
    others = groups := by
  obtain ⟨rfl, hreads⟩ := h
  obtain ⟨he, hreads'⟩ := h'
  induction groups generalizing others with
  | nil =>
    cases others with
    | nil => rfl
    | cons other others =>
      obtain ⟨unit, hu⟩ := hreads' other List.mem_cons_self
      rw [List.flatten_cons] at he
      obtain ⟨rfl, -⟩ := List.append_eq_nil_iff.mp he
      cases hu
  | cons group groups ih =>
    obtain ⟨unit, hu⟩ := hreads group List.mem_cons_self
    cases others with
    | nil =>
      obtain ⟨rfl, -⟩ := List.append_eq_nil_iff.mp he.symm
      cases hu
    | cons other others =>
      obtain ⟨unit', hu'⟩ := hreads' other List.mem_cons_self
      obtain ⟨rfl, hrest⟩ := hu'.unique hu he
      rw [ih (fun g hg => hreads g (List.mem_cons_of_mem _ hg)) hrest
        fun g hg => hreads' g (List.mem_cons_of_mem _ hg)]

theorem cut_of_unitsFrom {found units : List Nat} (h : unitsFrom found payload = some units) :
    ∃ groups, Cut payload groups := by
  fun_induction unitsFrom found payload with
  | case1 => exact ⟨[], rfl, fun _ hm => absurd hm List.not_mem_nil⟩
  | case2 => cases h
  | case3 found first tail unit rest hdecode _ ih =>
    obtain ⟨groups, hwhole, hreads⟩ := ih h
    obtain ⟨group, hu, he⟩ := decodeUnit_eq_some.mp hdecode
    refine ⟨group :: groups, ?_, List.forall_mem_cons.mpr ⟨⟨unit, hu⟩, hreads⟩⟩
    rw [List.flatten_cons, hwhole, he]

theorem canonical_flatten {groups : List Bytes} (h : ∀ group ∈ groups, Shortest group) :
    Canonical groups.flatten := by
  induction groups with
  | nil => exact .nil
  | cons group groups ih =>
    obtain ⟨hgroup, hgroups⟩ := List.forall_mem_cons.mp h
    obtain ⟨unit, hlt, rfl⟩ := shortest_iff.mp hgroup
    exact .cons (canonicalUnit_encodeUnit hlt) (ih hgroups)

theorem Cut.canonical_iff {groups : List Bytes} (h : Cut payload groups) :
    Canonical payload ↔ ∀ group ∈ groups, Shortest group := by
  constructor
  · intro hcanonical
    obtain ⟨units, hlt, hflat⟩ := hcanonical.encodes
    have hcut : Cut payload (units.map encodeUnit) := by
      refine ⟨by rw [← List.flatMap_def, hflat], fun group hg => ?_⟩
      obtain ⟨unit, hm, rfl⟩ := List.mem_map.mp hg
      exact ⟨unit, reads_encodeUnit (hlt unit hm)⟩
    intro group hg
    rw [hcut.unique h] at hg
    obtain ⟨unit, hm, rfl⟩ := List.mem_map.mp hg
    exact shortest_iff.mpr ⟨unit, hlt unit hm, rfl⟩
  · intro hshort
    exact h.whole ▸ canonical_flatten hshort

theorem CanonicalUnit.bytes_bounded {piece : Bytes} (h : CanonicalUnit piece) :
    ∀ byte ∈ piece, byte ≠ 0 ∧ byte < 0xF0 := by
  have hbound : ∀ {byte : UInt8}, 0 < byte.toNat → byte.toNat < 0xF0 → byte ≠ 0 ∧ byte < 0xF0 := by
    intro byte hlow hhigh
    refine ⟨?_, UInt8.lt_iff_toNat_lt.mpr hhigh⟩
    rintro rfl
    cases hlow
  have hnext : ∀ {byte : UInt8}, isContinuation byte = true → byte ≠ 0 ∧ byte < 0xF0 := by
    intro byte hc
    obtain ⟨hlow, hhigh⟩ := isContinuation_iff.mp hc
    exact hbound (by omega) (by omega)
  cases h with
  | one hlow hhigh => simpa using hbound (by omega) (by omega)
  | zero => simp
  | two hlow hhigh hb => simpa using ⟨hbound (by omega) (by omega), hnext hb⟩
  | threeLow hlow hhigh hc => simpa using ⟨hbound (by omega) (by omega), hnext hc⟩
  | three hlow hhigh hb hc => simpa using ⟨hbound (by omega) (by omega), hnext hb, hnext hc⟩

theorem Canonical.bytes_bounded (h : Canonical payload) :
    ∀ byte ∈ payload, byte ≠ 0 ∧ byte < 0xF0 := by
  induction h with
  | nil => nofun
  | cons hpiece _ ih =>
    intro byte hm
    rcases List.mem_append.mp hm with hm | hm
    · exact hpiece.bytes_bounded byte hm
    · exact ih byte hm

theorem canonical_encode (text : String) : Canonical (encode text) :=
  (encode_eq_iff_of_decode (decode_of_encode text)).mp rfl

/-- All text survives, in bytes that are neither zero nor from 0xF0 on. What is decoded is encoded
as it was if and only if each of its groups, of which there is no other choice, is as short as
encoding makes it. -/
theorem encoded_iff_shortest :
    (∀ text, decode (encode text) = some text ∧ ∀ byte ∈ encode text, byte ≠ 0 ∧ byte < 0xF0) ∧
    ∀ payload text, decode payload = some text →
      ∃ groups, Cut payload groups ∧ (∀ others, Cut payload others → others = groups) ∧
        (∀ group ∈ groups, 1 ≤ group.length ∧ group.length ≤ 3) ∧
        (encode text = payload ↔ ∀ group ∈ groups, Shortest group) := by
  refine ⟨fun text => ⟨decode_of_encode text, (canonical_encode text).bytes_bounded⟩, ?_⟩
  intro payload text h
  obtain ⟨units, hunits, -⟩ := exists_units_of_decode h
  obtain ⟨groups, hcut⟩ := cut_of_unitsFrom hunits
  refine ⟨groups, hcut, fun others hothers => hcut.unique hothers, ?_, ?_⟩
  · intro group hg
    obtain ⟨unit, hreads⟩ := hcut.reads group hg
    exact hreads.length_bounded
  · rw [encode_eq_iff_of_decode h, hcut.canonical_iff]

/-- The zero character and the last of all, and then a letter in more bytes than it takes. -/
theorem last_shortest :
    (decode [0xC0, 0x80, 0xED, 0xAF, 0xBF, 0xED, 0xBF, 0xBF] =
        some (String.ofList ['\x00', Char.ofNat 0x10FFFF]) ∧
      ∃ groups, Cut [0xC0, 0x80, 0xED, 0xAF, 0xBF, 0xED, 0xBF, 0xBF] groups ∧
        ∀ group ∈ groups, Shortest group) ∧
    decode [0xE0, 0x81, 0x81] = some (String.ofList ['A']) ∧
      ∃ groups, Cut [0xE0, 0x81, 0x81] groups ∧ ¬ ∀ group ∈ groups, Shortest group := by
  have hlast : encode (String.ofList ['\x00', Char.ofNat 0x10FFFF]) =
      [0xC0, 0x80, 0xED, 0xAF, 0xBF, 0xED, 0xBF, 0xBF] := by
    rw [encode, String.toList_ofList]
    decide
  have hletter : encode (String.ofList ['A']) = [0x41] := by
    rw [encode, String.toList_ofList]
    decide
  have hdecode : decode [0xC0, 0x80, 0xED, 0xAF, 0xBF, 0xED, 0xBF, 0xBF] =
      some (String.ofList ['\x00', Char.ofNat 0x10FFFF]) := hlast ▸ decode_of_encode _
  have hoverlong : decode [0xE0, 0x81, 0x81] = some (String.ofList ['A']) := by
    have hunits : unitsFrom [] [0xE0, 0x81, 0x81] = some [0x41] := by
      simp [unitsFrom, decodeUnit, isContinuation]
    rw [decode, hunits]
    rfl
  obtain ⟨groups, hcut, -, -, hiff⟩ := encoded_iff_shortest.2 _ _ hdecode
  obtain ⟨overlong, hcut', -, -, hiff'⟩ := encoded_iff_shortest.2 _ _ hoverlong
  refine ⟨⟨hdecode, groups, hcut, hiff.mp hlast⟩, hoverlong, overlong, hcut', ?_⟩
  rw [← hiff', hletter]
  decide

end ClassTree.Text.ModifiedUtf8
