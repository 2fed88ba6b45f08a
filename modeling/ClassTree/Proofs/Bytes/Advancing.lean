import ClassTree.Bytes.Cursor
import ClassTree.Proofs.Outcome

namespace ClassTree.Reader

variable {α β : Type}

/-- From the first cursor, the second one is reached by taking bytes from the front. -/
structure Passes (cursor cursor' : Cursor) : Prop where
  forward : cursor.position ≤ cursor'.position
  total : cursor'.position + cursor'.rest.length = cursor.position + cursor.rest.length

theorem Passes.refl (cursor : Cursor) : Passes cursor cursor :=
  ⟨Nat.le_refl _, rfl⟩

theorem Passes.trans {first second third : Cursor} (h : Passes first second)
    (h' : Passes second third) : Passes first third :=
  ⟨Nat.le_trans h.forward h'.forward, h'.total.trans h.total⟩

structure Finds (reader : Reader α) (P : α → Prop) : Prop where
  found : ∀ {cursor a cursor'}, reader.run cursor = .ok (a, cursor') → Passes cursor cursor' ∧ P a

abbrev Advances (reader : Reader α) : Prop :=
  Finds reader fun _ => True

variable {reader reader' : Reader α} {f : α → Reader β} {P : α → Prop} {Q : β → Prop}

theorem finds_pure {a : α} (h : P a) : Finds (pure a) P := by
  refine ⟨fun {cursor a' cursor'} hr => ?_⟩
  obtain ⟨rfl, rfl⟩ := Prod.mk.inj (Except.ok.inj hr)
  exact ⟨.refl _, h⟩

theorem finds_fail (cause : Malformed) : Finds (fail cause : Reader α) P :=
  ⟨fun h => by cases h⟩

theorem Finds.mono {P' : α → Prop} (h : Finds reader P) (hp : ∀ a, P a → P' a) : Finds reader P' :=
  ⟨fun hr => (h.found hr).imp_right (hp _)⟩

theorem Finds.bind (h : Finds reader P) (hf : ∀ a, P a → Finds (f a) Q) :
    Finds (reader >>= f) Q := by
  refine ⟨fun {cursor b cursor''} hr => ?_⟩
  obtain ⟨a, cursor', ha, hb⟩ := run_bind_eq_ok.mp hr
  obtain ⟨hpasses, hp⟩ := h.found ha
  obtain ⟨hpasses', hq⟩ := (hf a hp).found hb
  exact ⟨hpasses.trans hpasses', hq⟩

theorem Advances.bind (h : Advances reader) (hf : ∀ a, Finds (f a) Q) : Finds (reader >>= f) Q :=
  Finds.bind h fun a _ => hf a

theorem Advances.map (h : Advances reader) {g : α → β} (hg : ∀ a, Q (g a)) :
    Finds (reader >>= fun a => pure (g a)) Q :=
  h.bind fun a => finds_pure (hg a)

theorem finds_split {condition : Prop} [Decidable condition] (h : condition → Finds reader P)
    (h' : ¬ condition → Finds reader' P) : Finds (if condition then reader else reader') P := by
  split
  · exact h ‹_›
  · exact h' ‹_›

theorem finds_ite {condition : Prop} [Decidable condition] (h : Finds reader P)
    (h' : Finds reader' P) : Finds (if condition then reader else reader') P :=
  finds_split (fun _ => h) fun _ => h'

theorem finds_lift {x : Except Error α} (h : ∀ a, x = .ok a → P a) :
    Finds (liftM x : Reader α) P := by
  cases x with
  | error fault => exact ⟨fun h => by cases h⟩
  | ok a => exact finds_pure (h a rfl)

theorem advances_lift (x : Except Error α) : Advances (liftM x : Reader α) :=
  finds_lift fun _ _ => trivial

theorem advances_get : Advances (get : Reader Cursor) := by
  refine ⟨fun {cursor a cursor'} h => ?_⟩
  obtain ⟨-, rfl⟩ := Prod.mk.inj (Except.ok.inj h)
  exact ⟨.refl _, trivial⟩

theorem parse_eq_ok {cursor : Cursor} {a : α} :
    cursor.parse reader = .ok a ↔ ∃ cursor', reader.run cursor = .ok (a, cursor') := by
  unfold Cursor.parse StateT.run'
  change (Prod.fst <$> reader.run cursor) = _ ↔ _
  cases reader.run cursor with
  | error fault => exact iff_of_false nofun nofun
  | ok found =>
    constructor
    · intro h
      obtain rfl := Except.ok.inj h
      exact ⟨found.2, rfl⟩
    · rintro ⟨cursor', h⟩
      obtain rfl := Except.ok.inj h
      rfl

/-- Bytes that are taken are passed. -/
theorem take_eq_ok {cursor cursor' : Cursor} {count : Nat} {front : Bytes}
    (h : cursor.take count = .ok (front, cursor')) :
    front.length = count ∧ cursor.rest = front ++ cursor'.rest ∧
      cursor'.position = cursor.position + count ∧ cursor'.base = cursor.base := by
  unfold Cursor.take at h
  rw [List.splitAt_eq] at h
  dsimp only at h
  split at h
  · rename_i hlength
    obtain ⟨rfl, rfl⟩ := Prod.mk.inj (Except.ok.inj h)
    exact ⟨hlength, (List.take_append_drop _ _).symm, rfl, rfl⟩
  · cases h

theorem passes_take {cursor cursor' : Cursor} {count : Nat} {front : Bytes}
    (h : cursor.take count = .ok (front, cursor')) : Passes cursor cursor' := by
  obtain ⟨hlength, hrest, hposition, -⟩ := take_eq_ok h
  refine ⟨by omega, ?_⟩
  rw [hrest, List.length_append]
  omega

theorem advances_bytes (count : Nat) : Advances (bytes count) :=
  ⟨fun h => ⟨passes_take h, trivial⟩⟩

theorem advances_number (width : Nat) : Advances (number width) :=
  (advances_bytes width).map fun _ => trivial

theorem advances_u8 : Advances u8 := (advances_number 1).map fun _ => trivial

theorem advances_u16 : Advances u16 := (advances_number 2).map fun _ => trivial

theorem advances_u32 : Advances u32 := (advances_number 4).map fun _ => trivial

theorem advances_i8 : Advances i8 := advances_u8.map fun _ => trivial

theorem advances_i16 : Advances i16 := advances_u16.map fun _ => trivial

theorem advances_i32 : Advances i32 := advances_u32.map fun _ => trivial

theorem advances_align4 : Advances align4 :=
  advances_get.bind fun _ => (advances_bytes _).map fun _ => trivial

/-- Several things are as many as were asked for, and each is as it should be. -/
theorem finds_times (h : Finds reader P) (count : Nat) :
    Finds (times count reader) fun found => found.length = count ∧ ∀ a ∈ found, P a := by
  suffices hs : ∀ found : List α, (∀ a ∈ found, P a) →
      Finds (timesOnto reader found count) fun all =>
      all.length = found.length + count ∧ ∀ a ∈ all, P a from
    (hs [] nofun).mono fun all hall => ⟨hall.1.trans (Nat.zero_add count), hall.2⟩
  induction count with
  | zero =>
    exact fun found hf =>
      finds_pure ⟨List.length_reverse, fun a hm => hf a (List.mem_reverse.mp hm)⟩
  | succ count ih =>
    refine fun found hf => h.bind fun next hn => ?_
    refine (ih (next :: found) (List.forall_mem_cons.mpr ⟨hn, hf⟩)).mono fun all hall => ?_
    exact ⟨by rw [hall.1, List.length_cons]; omega, hall.2⟩

theorem advances_times (h : Advances reader) (count : Nat) : Advances (times count reader) :=
  (finds_times h count).mono fun _ _ => trivial

theorem finds_counted (h : Finds reader P) : Finds (counted reader) fun found => ∀ a ∈ found, P a :=
  advances_u16.bind fun _ => (finds_times h _).mono fun _ hall => hall.2

/-- A byte that is read has been passed. -/
theorem position_u8 {cursor cursor' : Cursor} {byte : UInt8}
    (h : u8.run cursor = .ok (byte, cursor')) : cursor'.position = cursor.position + 1 := by
  obtain ⟨n, middle, hn, hp⟩ := run_bind_eq_ok.mp h
  obtain ⟨front, middle', hb, hp'⟩ := run_bind_eq_ok.mp hn
  obtain ⟨-, rfl⟩ := Prod.mk.inj (Except.ok.inj hp)
  obtain ⟨-, rfl⟩ := Prod.mk.inj (Except.ok.inj hp')
  exact (take_eq_ok hb).2.2.1

end ClassTree.Reader
