import ClassTree.Proofs.Bytes.Advancing
import ClassTree.Proofs.Bytes.Reading
import Mathlib.Data.List.Induction

namespace ClassTree

namespace BigEndian

theorem value_lt (bytes : Bytes) : value bytes < Nat.pow 256 bytes.length := by
  induction bytes using List.reverseRecOn with
  | nil => exact Nat.one_pos
  | append_singleton bytes byte ih =>
    have hbyte : byte.toNat < 256 := byte.toNat_lt
    have hpower : Nat.pow 256 (bytes ++ [byte]).length = Nat.pow 256 bytes.length * 256 := by
      rw [List.length_append]
      rfl
    rw [value_append_singleton, hpower]
    omega

/-- Bytes are the digits of what they stand for. -/
theorem digits_value (bytes : Bytes) : digits bytes.length (value bytes) = bytes := by
  induction bytes using List.reverseRecOn with
  | nil => rfl
  | append_singleton bytes byte ih =>
    have hbyte : byte.toNat < 256 := byte.toNat_lt
    rw [value_append_singleton, List.length_append, List.length_singleton, digits,
      show (value bytes * 256 + byte.toNat) / 256 = value bytes by omega, ih]
    congr 2
    apply UInt8.toNat_inj.mp
    rw [UInt8.toNat_ofNat']
    omega

theorem u16_injective : Function.Injective u16 := by
  intro x y h
  have hvalue := congrArg value h
  rw [u16, u16, value_digits, value_digits, Nat.mod_eq_of_lt (by exact x.toNat_lt),
    Nat.mod_eq_of_lt (by exact y.toNat_lt)] at hvalue
  exact UInt16.toNat_inj.mp hvalue

end BigEndian

namespace Reader

open BigEndian

variable {α β : Type} {position base : Nat} {taken more : Bytes} {a : α} {b : β}

/-- From there, the reader takes these bytes for this value, whatever follows them. Of any shorter
front of them it says that it is too short, at an offset that is not beyond its end. -/
structure Consumes (reader : Reader α) (position base : Nat) (taken : Bytes) (a : α) : Prop where
  whole : ∀ rest, reader.run ⟨taken ++ rest, position, base⟩ =
    .ok (a, ⟨rest, position + taken.length, base⟩)
  short : ∀ {front}, front <+: taken → front.length < taken.length →
    ∃ offset, reader.run ⟨front, position, base⟩ = .error (.malformed (.unexpectedEnd offset)) ∧
      offset ≤ base + position + front.length

/-- Whenever the reader finds something, that is what some bytes stand for, and it consumed just
these. -/
structure Parses (reader : Reader α) (stands : Bytes → α → Prop) : Prop where
  consumes : ∀ {cursor a cursor'}, reader.run cursor = .ok (a, cursor') →
    ∃ taken, cursor.rest = taken ++ cursor'.rest ∧
      Consumes reader cursor.position cursor.base taken a ∧ stands taken a

abbrev Sequential (reader : Reader α) : Prop :=
  Parses reader fun _ _ => True

variable {reader reader' : Reader α} {f : α → Reader β} {stands : Bytes → α → Prop}
  {stands' : Bytes → β → Prop}

theorem consumes_pure (a : α) (position base : Nat) : Consumes (pure a) position base [] a := by
  refine ⟨fun rest => rfl, fun hp hlt => ?_⟩
  exact absurd hlt (Nat.not_lt_zero _)

theorem Consumes.bind (h : Consumes reader position base taken a)
    (h' : Consumes (f a) (position + taken.length) base more b) :
    Consumes (reader >>= f) position base (taken ++ more) b := by
  refine ⟨fun rest => ?_, fun {front} hp hlt => ?_⟩
  · rw [List.append_assoc, run_bind_eq_ok]
    refine ⟨a, _, h.whole (more ++ rest), ?_⟩
    rw [h'.whole rest, List.length_append, Nat.add_assoc]
  · rw [List.length_append] at hlt
    rcases Nat.lt_or_ge front.length taken.length with hshort | hlong
    · obtain ⟨offset, hrun, hle⟩ := h.short
        (List.prefix_of_prefix_length_le hp (List.prefix_append _ _) (Nat.le_of_lt hshort)) hshort
      refine ⟨offset, ?_, hle⟩
      rw [StateT.run_bind, hrun]
      rfl
    · obtain ⟨later, rfl⟩ :=
        List.prefix_of_prefix_length_le (List.prefix_append taken more) hp hlong
      rw [List.length_append] at hlt ⊢
      obtain ⟨offset, hrun, hle⟩ := h'.short ((List.prefix_append_right_inj taken).mp hp)
        (by omega)
      refine ⟨offset, ?_, by omega⟩
      rw [StateT.run_bind, h.whole later]
      exact hrun

theorem Parses.mono {weaker : Bytes → α → Prop} (h : Parses reader stands)
    (hw : ∀ {taken a}, stands taken a → weaker taken a) : Parses reader weaker := by
  refine ⟨fun hr => ?_⟩
  obtain ⟨taken, hrest, hconsumes, hstands⟩ := h.consumes hr
  exact ⟨taken, hrest, hconsumes, hw hstands⟩

theorem Parses.sequential (h : Parses reader stands) : Sequential reader :=
  h.mono fun _ => trivial

theorem parses_pure (h : stands [] a) : Parses (pure a) stands := by
  refine ⟨fun {cursor a' cursor'} hr => ?_⟩
  obtain ⟨rfl, rfl⟩ := Prod.mk.inj (Except.ok.inj hr)
  exact ⟨[], rfl, consumes_pure _ _ _, h⟩

theorem parses_throw (fault : Error) : Parses (throw fault : Reader α) stands :=
  ⟨fun h => by cases h⟩

theorem parses_fail (cause : Malformed) : Parses (fail cause : Reader α) stands :=
  parses_throw (.malformed cause)

theorem parses_lift {x : Except Error α} (h : ∀ a, x = .ok a → stands [] a) :
    Parses (liftM x : Reader α) stands := by
  cases x with
  | error fault => exact ⟨fun h => by cases h⟩
  | ok a => exact parses_pure (h a rfl)

/-- What is read first comes first. -/
theorem Parses.bind (h : Parses reader stands)
    (hf : ∀ {taken a}, stands taken a → Parses (f a) fun more b => stands' (taken ++ more) b) :
    Parses (reader >>= f) stands' := by
  refine ⟨fun {cursor b cursor''} hr => ?_⟩
  obtain ⟨a, cursor', ha, hb⟩ := run_bind_eq_ok.mp hr
  obtain ⟨taken, hrest, hconsumes, hstands⟩ := h.consumes ha
  have hcursor : cursor' = ⟨cursor'.rest, cursor.position + taken.length, cursor.base⟩ := by
    have hwhole := hconsumes.whole cursor'.rest
    rw [← hrest] at hwhole
    exact (Prod.mk.inj (Except.ok.inj (ha.symm.trans hwhole))).2
  obtain ⟨more, hrest', hconsumes', hstands'⟩ := (hf hstands).consumes hb
  rw [hcursor] at hconsumes'
  refine ⟨taken ++ more, ?_, hconsumes.bind hconsumes', hstands'⟩
  rw [hrest, hrest', List.append_assoc]

theorem Sequential.bind (h : Sequential reader) (hf : ∀ a, Sequential (f a)) :
    Sequential (reader >>= f) :=
  Parses.bind h fun _ => hf _

theorem Parses.map {g : α → β} (h : Parses reader stands)
    (hg : ∀ {taken a}, stands taken a → stands' taken (g a)) :
    Parses (reader >>= fun a => pure (g a)) stands' := by
  refine h.bind fun {taken a} ha => parses_pure ?_
  rw [List.append_nil]
  exact hg ha

theorem Sequential.map (h : Sequential reader) (g : α → β) :
    Sequential (reader >>= fun a => pure (g a)) :=
  Parses.map h fun _ => trivial

theorem sequential_lift (x : Except Error α) : Sequential (liftM x : Reader α) :=
  parses_lift fun _ _ => trivial

theorem take_eq_error {cursor : Cursor} {count : Nat} (h : cursor.rest.length < count) :
    cursor.take count = .error (.malformed (.unexpectedEnd cursor.offset)) := by
  unfold Cursor.take
  rw [List.splitAt_eq]
  have hlength : (cursor.rest.take count).length ≠ count := by
    rw [List.length_take]
    omega
  exact if_neg hlength

/-- A number of bytes is there in full or not at all. -/
theorem consumes_bytes (taken : Bytes) (position base : Nat) :
    Consumes (bytes taken.length) position base taken taken := by
  refine ⟨fun rest => reads_bytes taken position rest base, fun {front} _ hlt => ?_⟩
  exact ⟨base + position, take_eq_error hlt, Nat.le_add_right _ _⟩

theorem parses_bytes (count : Nat) :
    Parses (bytes count) fun taken found => found = taken ∧ taken.length = count := by
  refine ⟨fun {cursor found cursor'} h => ?_⟩
  obtain ⟨hlength, hrest, -, -⟩ := take_eq_ok h
  exact ⟨found, hrest, hlength ▸ consumes_bytes found _ _, rfl, hlength⟩

/-- Bytes that are set apart for later are passed like others. -/
theorem sequential_part (count : Nat) : Sequential (part count) := by
  refine ⟨fun {cursor found cursor'} h => ?_⟩
  obtain ⟨⟨front, after⟩, htake, hp⟩ := bind_eq_ok.mp h
  obtain ⟨rfl, rfl⟩ := Prod.mk.inj (Except.ok.inj hp)
  obtain ⟨hlength, hrest, -, -⟩ := take_eq_ok htake
  have hconsumes := hlength ▸ consumes_bytes front cursor.position cursor.base
  refine ⟨front, hrest, ⟨fun rest => ?_, fun hf hlt => ?_⟩, trivial⟩
  · change (Cursor.take _ count >>= _) = _
    rw [show Cursor.take _ count = _ from hconsumes.whole rest]
    rfl
  · obtain ⟨offset, hrun, hle⟩ := hconsumes.short hf hlt
    refine ⟨offset, ?_, hle⟩
    change (Cursor.take _ count >>= _) = _
    rw [show Cursor.take _ count = _ from hrun]
    rfl

theorem sequential_timesOnto {item : Reader α} (h : Sequential item) (found : List α)
    (count : Nat) : Sequential (timesOnto item found count) := by
  induction count generalizing found with
  | zero => exact parses_pure trivial
  | succ count ih => exact h.bind fun next => ih (next :: found)

theorem sequential_times {item : Reader α} (h : Sequential item) (count : Nat) :
    Sequential (times count item) :=
  sequential_timesOnto h [] count

/-- A check before reading goes on. -/
theorem Parses.unless {condition : Prop} [Decidable condition] (fault : Error)
    (h : Parses reader stands) :
    Parses (if condition then throw fault >>= fun _ : PUnit => reader else reader) stands := by
  split
  · exact ⟨fun hr => by cases hr⟩
  · exact h

theorem parses_number (width : Nat) :
    Parses (number width) fun taken n => taken = digits width n ∧ n < Nat.pow 256 width := by
  refine (parses_bytes width).map fun {taken found} h => ?_
  obtain ⟨rfl, rfl⟩ := h
  exact ⟨(digits_value found).symm, value_lt found⟩

theorem parses_u8 : Parses Reader.u8 fun taken x => taken = BigEndian.u8 x := by
  refine (parses_number 1).map fun {taken n} h => ?_
  obtain ⟨rfl, -⟩ := h
  rfl

theorem parses_u16 : Parses Reader.u16 fun taken x => taken = BigEndian.u16 x := by
  refine (parses_number 2).map fun {taken n} h => ?_
  obtain ⟨rfl, hlt⟩ := h
  rw [BigEndian.u16, UInt16.toNat_ofNat_of_lt' hlt]

theorem parses_u32 : Parses Reader.u32 fun taken x => taken = BigEndian.u32 x := by
  refine (parses_number 4).map fun {taken n} h => ?_
  obtain ⟨rfl, hlt⟩ := h
  rw [BigEndian.u32, UInt32.toNat_ofNat_of_lt' hlt]

theorem parses_u64 : Parses Reader.u64 fun taken x => taken = BigEndian.u64 x := by
  refine (parses_number 8).map fun {taken n} h => ?_
  obtain ⟨rfl, hlt⟩ := h
  rw [BigEndian.u64, UInt64.toNat_ofNat_of_lt' hlt]

theorem parses_i32 : Parses Reader.i32 fun taken x => taken = BigEndian.i32 x :=
  parses_u32.map fun h => h

theorem parses_i64 : Parses Reader.i64 fun taken x => taken = BigEndian.i64 x :=
  parses_u64.map fun h => h

theorem sequential_counted {item : Reader α} (h : Sequential item) : Sequential (counted item) :=
  parses_u16.sequential.bind fun count => sequential_times h count.toNat

end Reader
end ClassTree
