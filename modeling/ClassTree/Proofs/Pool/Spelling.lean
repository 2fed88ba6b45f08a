import ClassTree.Proofs.Bytes.Sequential
import ClassTree.Proofs.Pool.Codec
import ClassTree.Proofs.Text.Canonical

namespace ClassTree.Pool

open Reader BigEndian

theorem HandleKind.code_of_ofCode? {code : UInt8} {kind : HandleKind}
    (h : HandleKind.ofCode? code = some kind) : kind.code = code := by
  unfold HandleKind.ofCode? at h
  split at h <;> cases h <;> rfl

namespace Constant

/-- The bytes are what a constant may stand as in a file. Only of texts is there more than one
form. -/
inductive Spells : Bytes → Constant → Prop where
  | text {payload : Bytes} {text : String} : payload.length < 0x10000 →
      Text.ModifiedUtf8.decode payload = some text →
      Spells (u8 1 ++ u16 (UInt16.ofNat payload.length) ++ payload) (utf8 text)
  | other {constant : Constant} : (∀ text, constant ≠ utf8 text) → Spells constant.encode constant

/-- In every form, the constant is read. -/
theorem Spells.reads {piece : Bytes} {constant : Constant} (h : Spells piece constant)
    (index : Index) (p : Nat) : Reads (read index) p piece constant := by
  cases h with
  | other h =>
    refine Constant.reads ?_ index p
    cases constant with
    | utf8 text => exact absurd rfl (h text)
    | _ => trivial
  | @text payload text hlt hdecode =>
    unfold read
    rw [List.append_assoc]
    refine (reads_u8 1 p).bind ((reads_u16 _ _).bind ?_)
    rw [UInt16.toNat_ofNat_of_lt' hlt]
    refine (reads_bytes payload _).bind_pure ?_
    rw [hdecode]

/-- After the tag come the fields. -/
theorem parses_fields {γ : Type} {fields : Reader γ} {write : γ → Bytes} {tag : UInt8}
    {make : γ → Constant} (h : Parses fields fun taken x => taken = write x)
    (hmake : ∀ x, (make x).encode = u8 tag ++ write x) (hother : ∀ x text, make x ≠ utf8 text) :
    Parses (fields >>= fun x => pure (make x)) fun taken constant =>
      Spells (u8 tag ++ taken) constant := by
  refine h.map fun {taken x} htaken => ?_
  rw [htaken, ← hmake]
  exact .other (hother x)

theorem parses_pair {tag : UInt8} {make : Index → Index → Constant}
    (hmake : ∀ x y, (make x y).encode = u8 tag ++ u16 x ++ u16 y)
    (hother : ∀ x y text, make x y ≠ utf8 text) :
    Parses (Reader.u16 >>= fun x => Reader.u16 >>= fun y => pure (make x y)) fun taken constant =>
      Spells (u8 tag ++ taken) constant := by
  refine parses_u16.bind fun {taken x} hx => parses_u16.map fun {more y} hy => ?_
  rw [hx, hy, ← List.append_assoc, ← hmake]
  exact .other (hother x y)

theorem parses_read (index : Index) : Parses (read index) Spells := by
  unfold read
  refine parses_u8.bind fun {taken tag} htag => ?_
  rw [htag]
  split
  · refine parses_u16.bind fun {taken count} hcount => ?_
    refine (parses_bytes count.toNat).bind fun {payload found} h => ?_
    obtain ⟨rfl, hlength⟩ := h
    split
    · rename_i text hdecode
      refine parses_pure ?_
      have hspells := Spells.text (hlength ▸ count.toNat_lt) hdecode
      rwa [hlength, UInt16.ofNat_toNat, ← hcount, List.append_assoc, ← List.append_nil found]
        at hspells
    · exact parses_fail _
  · exact parses_fields parses_i32 (fun _ => rfl) nofun
  · exact parses_fields parses_u32 (fun _ => rfl) nofun
  · exact parses_fields parses_i64 (fun _ => rfl) nofun
  · exact parses_fields parses_u64 (fun _ => rfl) nofun
  · exact parses_fields parses_u16 (fun _ => rfl) nofun
  · exact parses_fields parses_u16 (fun _ => rfl) nofun
  · exact parses_pair (fun _ _ => rfl) nofun
  · exact parses_pair (fun _ _ => rfl) nofun
  · exact parses_pair (fun _ _ => rfl) nofun
  · exact parses_pair (fun _ _ => rfl) nofun
  · refine parses_u8.bind fun {taken code} hcode => ?_
    split
    · rename_i kind hkind
      refine parses_u16.map fun {more member} hmember => ?_
      rw [hcode, hmember, ← List.append_assoc, ← HandleKind.code_of_ofCode? hkind]
      exact @Spells.other (methodHandle kind member) nofun
    · exact parses_fail _
  · exact parses_fields parses_u16 (fun _ => rfl) nofun
  · exact parses_pair (fun _ _ => rfl) nofun
  · exact parses_pair (fun _ _ => rfl) nofun
  · exact parses_fields parses_u16 (fun _ => rfl) nofun
  · exact parses_fields parses_u16 (fun _ => rfl) nofun
  · exact parses_fail _

def payload? : Bytes → Option Bytes
  | 1 :: _ :: _ :: payload => some payload
  | _ => none

/-- The text in the piece, if there is one, is spelled as writing spells it. -/
def Plain (piece : Bytes) : Prop :=
  ∀ payload, payload? piece = some payload → Text.ModifiedUtf8.Canonical payload

theorem payload?_text (length : UInt16) (payload : Bytes) :
    payload? (u8 1 ++ u16 length ++ payload) = some payload := by
  obtain ⟨a, b, h⟩ := List.length_eq_two.mp (length_u16 length)
  rw [h]
  rfl

theorem payload?_other {constant : Constant} (h : ∀ text, constant ≠ utf8 text) :
    payload? constant.encode = none := by
  cases constant with
  | utf8 text => exact absurd rfl (h text)
  | methodRef owner pair onInterface => cases onInterface <;> rfl
  | _ => rfl

/-- A constant is written as it stood, or its text is written in another form. In neither case can
what follows make up for a difference. -/
theorem Spells.encode_append {piece rest rest' : Bytes} {constant : Constant}
    (h : Spells piece constant) :
    constant.encode ++ rest = piece ++ rest' ↔ Plain piece ∧ rest = rest' := by
  cases h with
  | other h =>
    have hplain : Plain constant.encode := fun payload hp => by
      rw [payload?_other h] at hp
      cases hp
    rw [List.append_right_inj, and_iff_right hplain]
  | @text payload text hlt hdecode =>
    have hplain : Plain (u8 1 ++ u16 (UInt16.ofNat payload.length) ++ payload) ↔
        Text.ModifiedUtf8.encode text = payload := by
      rw [Text.ModifiedUtf8.encode_eq_iff_of_decode hdecode]
      simp only [Plain, payload?_text, Option.some.injEq, forall_eq']
    rw [hplain]
    constructor
    · intro heq
      obtain ⟨-, -, -, hle⟩ := Text.ModifiedUtf8.exists_units_of_decode hdecode
      rw [encode, List.append_assoc, List.append_assoc (_ ++ _)] at heq
      obtain ⟨hfront, hback⟩ := List.append_inj heq (by simp)
      have hcount := u16_injective (List.append_cancel_left hfront)
      -- the counts agree only up to multiples of 65536, but the new text is not twice as long
      have hlength : (Text.ModifiedUtf8.encode text).length = payload.length := by
        have hmod := congrArg UInt16.toNat hcount
        rw [UInt16.toNat_ofNat', UInt16.toNat_ofNat'] at hmod
        omega
      exact List.append_inj hback hlength
    · rintro ⟨htext, rfl⟩
      rw [encode, htext]

end Constant

namespace Constants

open Constant (Spells Plain)

/-- Constants are taken one after the other, and the last one passes the announced place at most
by the second place of a wide constant. -/
theorem parses_readFrom {count : Nat} {constants : Constants} (h : constants.next ≤ count + 1) :
    Parses (readFrom count constants) fun taken found => found.next ≤ count + 1 ∧
      ∃ pieces added, List.Forall₂ Spells pieces added ∧ taken = pieces.flatten ∧
        found.toList = constants.toList ++ added := by
  fun_induction readFrom count constants with
  | case1 constants hlt ih =>
    refine (Constant.parses_read _).bind fun {piece constant} hpiece => ?_
    have hnext : (constants.add constant).next ≤ count + 1 := by
      rw [add, Slots.next_push]
      split <;> omega
    refine (ih constant hnext).mono ?_
    rintro taken found ⟨hle, pieces, added, hall, rfl, hlist⟩
    refine ⟨hle, piece :: pieces, constant :: added, .cons hpiece hall, rfl, ?_⟩
    rw [hlist, toList_add, List.append_assoc, List.singleton_append]
  | case2 constants hge =>
    exact parses_pure ⟨h, [], [], .nil, rfl, (List.append_nil _).symm⟩

theorem parses_read : Parses read fun taken constants =>
    ∃ (count : UInt16) (pieces : List Bytes), taken = u16 count ++ pieces.flatten ∧
      List.Forall₂ Spells pieces constants.toList ∧ constants.next ≤ count.toNat + 1 := by
  refine parses_u16.bind fun {front count} hfront => ?_
  have hempty : empty.next ≤ count.toNat + 1 := Nat.le_add_left 1 _
  refine (parses_readFrom hempty).mono ?_
  rintro taken constants ⟨hle, pieces, added, hall, rfl, hlist⟩
  rw [hfront]
  exact ⟨count, pieces, rfl, (hlist : _ = added) ▸ hall, hle⟩

/-- Constants are written as they stood if and only if each of them is. -/
theorem flatMap_encode_eq_flatten {pieces : List Bytes} {constants : List Constant}
    (h : List.Forall₂ Spells pieces constants) :
    constants.flatMap Constant.encode = pieces.flatten ↔ ∀ piece ∈ pieces, Plain piece := by
  induction h with
  | nil => exact iff_of_true rfl nofun
  | cons hpiece _ ih =>
    rw [List.flatMap_cons, List.flatten_cons, hpiece.encode_append, ih, List.forall_mem_cons]

theorem encode_eq_iff {constants : Constants} {count : UInt16} {pieces : List Bytes}
    (h : List.Forall₂ Spells pieces constants.toList) (hle : constants.next ≤ count.toNat + 1) :
    constants.encode = u16 count ++ pieces.flatten ↔
      (∀ piece ∈ pieces, Plain piece) ∧ count.toNat = constants.next := by
  have hcount : UInt16.ofNat constants.next = count ↔ count.toNat = constants.next := by
    rw [← UInt16.toNat_inj, UInt16.toNat_ofNat']
    have hlt := count.toNat_lt
    omega
  rw [← flatMap_encode_eq_flatten h, ← hcount, encode]
  constructor
  · intro heq
    obtain ⟨hfront, hback⟩ := List.append_inj heq rfl
    exact ⟨hback, u16_injective hfront⟩
  · rintro ⟨hback, hfront⟩
    rw [hback, hfront]

/-- Constants that can be counted, with texts that can be, are read back as they were written, up to
where the bytes that follow begin. Constants that were read are written as they were read just when
all texts were spelled as writing spells them, and as many places as there are were announced. -/
theorem codec :
    (∀ constants : Constants, constants.Built → constants.next ≤ 0xFFFF →
      (∀ text, Constant.utf8 text ∈ constants.toList →
        (Text.ModifiedUtf8.encode text).length ≤ 0xFFFF) →
      ∀ rest position base, read.run ⟨constants.encode ++ rest, position, base⟩ =
        .ok (constants, ⟨rest, position + constants.encode.length, base⟩)) ∧
    (∀ (cursor : Cursor) (constants : Constants) (cursor' : Cursor),
      read.run cursor = .ok (constants, cursor') →
      ∃ (count : UInt16) (pieces : List Bytes),
        cursor.rest = u16 count ++ pieces.flatten ++ cursor'.rest ∧
        List.Forall₂ Spells pieces constants.toList ∧
        (constants.encode = u16 count ++ pieces.flatten ↔
          (∀ piece ∈ pieces, Plain piece) ∧ count.toNat = constants.next)) := by
  constructor
  · intro constants hbuilt hnext htexts rest position base
    refine hbuilt.reads (fun constant hm => ?_) (by omega) position rest base
    cases constant with
    | utf8 text => exact Nat.lt_succ_of_le (htexts text hm)
    | _ => trivial
  · intro cursor constants cursor' h
    obtain ⟨taken, hrest, -, count, pieces, rfl, hall, hle⟩ := parses_read.consumes h
    exact ⟨count, pieces, hrest, hall, encode_eq_iff hall hle⟩

end Constants

namespace Lenient

/-- Constants of which one takes two places. -/
def wide : Constants :=
  [.utf8 "A", .long 5, .classRef 1].foldl Constants.add .empty

def zero : Constants :=
  Constants.empty.add (.utf8 "\x00")

/-- The text with a zero byte in it, as writing never spells it. -/
def bytes : Bytes :=
  [0, 2, 1, 0, 1, 0]

theorem decode_zero : Text.ModifiedUtf8.decode [0] = some "\x00" := by
  simp [Text.ModifiedUtf8.decode, Text.ModifiedUtf8.unitsFrom, Text.ModifiedUtf8.decodeUnit,
    Text.ModifiedUtf8.charsFrom]
  rfl

theorem read_bytes : Constants.read.run ⟨bytes, 0, 0⟩ = .ok (zero, ⟨[], 6, 0⟩) := by
  have hconstant : Reads (Constant.read 1) 2 [1, 0, 1, 0] (.utf8 "\x00") :=
    (@Constant.Spells.text [0] _ (by decide) decode_zero).reads 1 2
  have hfrom : Reads (Constants.readFrom 2 .empty) 2 [1, 0, 1, 0] zero := by
    rw [Constants.readFrom, dif_pos (by decide)]
    refine hconstant.bind_nil ?_
    rw [Constants.readFrom, dif_neg (by decide)]
    exact reads_pure zero _
  exact (reads_u16 2 0).bind (f := fun count => Constants.readFrom count.toNat .empty) hfrom [] 0

/-- Both ways: a pool that is read as it was written, and one that is not written as it was read. -/
theorem codec_zero :
    Constants.read.run ⟨wide.encode ++ [7], 0, 0⟩ = .ok (wide, ⟨[7], wide.encode.length, 0⟩) ∧
    Constants.read.run ⟨bytes, 0, 0⟩ = .ok (zero, ⟨[], 6, 0⟩) ∧ zero.encode ≠ bytes := by
  refine ⟨?_, read_bytes, fun heq => ?_⟩
  · have htexts : ∀ text, Constant.utf8 text ∈ wide.toList →
        (Text.ModifiedUtf8.encode text).length ≤ 0xFFFF := by
      intro text hm
      obtain rfl : text = "A" := by
        simpa [wide, Constants.add, Slots.toList, Slots.push, Constants.empty, Slots.empty] using hm
      decide
    have h := Constants.codec.1 wide rfl (by decide) htexts [7] 0 0
    rwa [Nat.zero_add] at h
  · obtain ⟨count, pieces, hrest, hall, hiff⟩ := Constants.codec.2 _ _ _ read_bytes
    have hbytes : [0, 2] ++ [1, 0, 1, 0] = BigEndian.u16 count ++ pieces.flatten := by
      rwa [List.append_nil] at hrest
    obtain ⟨piece, _, -, hnil, rfl⟩ := List.forall₂_cons_right_iff.mp
      (hall : List.Forall₂ Constant.Spells pieces [.utf8 "\x00"])
    obtain rfl := List.forall₂_nil_right_iff.mp hnil
    obtain ⟨-, hpiece⟩ := List.append_inj hbytes (length_u16 count).symm
    rw [List.flatten_singleton] at hpiece
    have hcanonical : Text.ModifiedUtf8.Canonical [0] :=
      (hiff.mp (heq.trans hbytes)).1 piece List.mem_cons_self [0] (hpiece ▸ rfl)
    have hencode := (Text.ModifiedUtf8.encode_eq_iff_of_decode decode_zero).mpr hcanonical
    exact absurd hencode (by decide)

end Lenient
end ClassTree.Pool
