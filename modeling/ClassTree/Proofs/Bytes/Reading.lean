import ClassTree.Bytes.Cursor
import ClassTree.Proofs.Outcome

namespace ClassTree

namespace BigEndian

@[simp] theorem length_u8 (x : UInt8) : (u8 x).length = 1 := rfl

@[simp] theorem length_u16 (x : UInt16) : (u16 x).length = 2 := length_digits 2 _

@[simp] theorem length_u32 (x : UInt32) : (u32 x).length = 4 := length_digits 4 _

@[simp] theorem length_u64 (x : UInt64) : (u64 x).length = 8 := length_digits 8 _

@[simp] theorem length_i8 (x : Int8) : (i8 x).length = 1 := rfl

@[simp] theorem length_i16 (x : Int16) : (i16 x).length = 2 := length_u16 _

@[simp] theorem length_i32 (x : Int32) : (i32 x).length = 4 := length_u32 _

end BigEndian

namespace Reader

open BigEndian

variable {α β : Type}

/-- At a position, the reader takes these bytes, whatever comes after, for this value. -/
def Reads (reader : Reader α) (position : Nat) (taken : Bytes) (a : α) : Prop :=
  ∀ rest base, reader.run ⟨taken ++ rest, position, base⟩ =
    .ok (a, ⟨rest, position + taken.length, base⟩)

variable {reader : Reader α} {f : α → Reader β} {p : Nat} {taken more : Bytes} {a : α} {c : β}

theorem reads_pure (a : α) (p : Nat) : Reads (pure a) p [] a :=
  fun _ _ => rfl

theorem Reads.run_bind (h : Reads reader p taken a) (rest : Bytes) (base : Nat) :
    (reader >>= f).run ⟨taken ++ rest, p, base⟩ = (f a).run ⟨rest, p + taken.length, base⟩ := by
  rw [StateT.run_bind, h rest base]
  rfl

theorem Reads.bind (h : Reads reader p taken a) (h' : Reads (f a) (p + taken.length) more c) :
    Reads (reader >>= f) p (taken ++ more) c := by
  intro rest base
  rw [List.append_assoc, run_bind_eq_ok]
  refine ⟨a, _, h (more ++ rest) base, ?_⟩
  rw [h' rest base, List.length_append, Nat.add_assoc]

theorem Reads.bind_nil (h : Reads reader p taken a) (h' : Reads (f a) (p + taken.length) [] c) :
    Reads (reader >>= f) p taken c := by
  have hb := h.bind h'
  rwa [List.append_nil] at hb

theorem Reads.bind_pure (h : Reads reader p taken a) (hf : f a = pure c) :
    Reads (reader >>= f) p taken c :=
  h.bind_nil (hf ▸ reads_pure c _)

theorem Reads.map (h : Reads reader p taken a) (g : α → β) :
    Reads (reader >>= fun a => pure (g a)) p taken (g a) :=
  h.bind_pure rfl

theorem Reads.parse (h : Reads reader 0 taken a) (base : Nat) :
    Cursor.parse ⟨taken, 0, base⟩ reader = .ok a := by
  have hr := h [] base
  rw [List.append_nil] at hr
  rw [Cursor.parse, StateT.run'_eq, hr]
  rfl

theorem reads_lift {x : Except Error α} (h : x = .ok a) (p : Nat) :
    Reads (liftM x : Reader α) p [] a := by
  intro rest base
  rw [h]
  rfl

/-- Things that are computed without reading leave the cursor where it is. -/
theorem run_lift {x : Except Error α} {a : α} {cursor cursor' : Cursor} :
    (liftM x : Reader α).run cursor = .ok (a, cursor') ↔ x = .ok a ∧ cursor' = cursor := by
  cases x with
  | error fault => exact iff_of_false nofun nofun
  | ok found =>
    change Except.ok (found, cursor) = _ ↔ _
    rw [Except.ok.injEq, Prod.mk.injEq, Except.ok.injEq, eq_comm (a := cursor)]

theorem run_mapM_lift {f : α → Except Error β} {l : List α} {l' : List β}
    {cursor cursor' : Cursor} :
    (l.mapM fun a => (liftM (f a) : Reader β)).run cursor = .ok (l', cursor') ↔
      List.Forall₂ (fun a c => f a = .ok c) l l' ∧ cursor' = cursor := by
  induction l generalizing l' cursor cursor' with
  | nil =>
    change Except.ok (([] : List β), cursor) = _ ↔ _
    rw [Except.ok.injEq, Prod.mk.injEq, List.forall₂_nil_left_iff, eq_comm, eq_comm (a := cursor)]
  | cons a l ih =>
    simp only [List.mapM_cons, run_bind_eq_ok, run_lift, ih, List.forall₂_cons_left_iff]
    constructor
    · rintro ⟨c, _, ⟨hc, rfl⟩, rest, _, ⟨hrest, rfl⟩, h⟩
      obtain ⟨rfl, rfl⟩ := Prod.mk.inj (Except.ok.inj h)
      exact ⟨⟨c, rest, hc, hrest, rfl⟩, rfl⟩
    · rintro ⟨⟨c, rest, hc, hrest, rfl⟩, rfl⟩
      exact ⟨c, _, ⟨hc, rfl⟩, rest, _, ⟨hrest, rfl⟩, rfl⟩

theorem reads_bytes (taken : Bytes) (p : Nat) : Reads (bytes taken.length) p taken taken := by
  intro rest base
  change Cursor.take ⟨taken ++ rest, p, base⟩ taken.length = _
  simp [Cursor.take, List.splitAt_eq]

theorem reads_number (width n p : Nat) :
    Reads (number width) p (digits width n) (n % Nat.pow 256 width) := by
  have h := (reads_bytes (digits width n) p).map value
  rw [length_digits, value_digits] at h
  exact h

theorem reads_u8 (x : UInt8) (p : Nat) : Reads Reader.u8 p (BigEndian.u8 x) x := by
  have h := (reads_number 1 x.toNat p).map UInt8.ofNat
  have hx : UInt8.ofNat (x.toNat % Nat.pow 256 1) = x := by
    rw [Nat.mod_eq_of_lt (by exact x.toNat_lt), UInt8.ofNat_toNat]
  have hd : digits 1 x.toNat = BigEndian.u8 x := by simp [digits, BigEndian.u8]
  rwa [hx, hd] at h

theorem reads_u16 (x : UInt16) (p : Nat) : Reads Reader.u16 p (BigEndian.u16 x) x := by
  have h := (reads_number 2 x.toNat p).map UInt16.ofNat
  rwa [Nat.mod_eq_of_lt (by exact x.toNat_lt), UInt16.ofNat_toNat] at h

theorem reads_u32 (x : UInt32) (p : Nat) : Reads Reader.u32 p (BigEndian.u32 x) x := by
  have h := (reads_number 4 x.toNat p).map UInt32.ofNat
  rwa [Nat.mod_eq_of_lt (by exact x.toNat_lt), UInt32.ofNat_toNat] at h

theorem reads_u64 (x : UInt64) (p : Nat) : Reads Reader.u64 p (BigEndian.u64 x) x := by
  have h := (reads_number 8 x.toNat p).map UInt64.ofNat
  rwa [Nat.mod_eq_of_lt (by exact x.toNat_lt), UInt64.ofNat_toNat] at h

theorem reads_i8 (x : Int8) (p : Nat) : Reads Reader.i8 p (BigEndian.i8 x) x := by
  have h := (reads_u8 x.toUInt8 p).map UInt8.toInt8
  rwa [Int8.toInt8_toUInt8] at h

theorem reads_i16 (x : Int16) (p : Nat) : Reads Reader.i16 p (BigEndian.i16 x) x := by
  have h := (reads_u16 x.toUInt16 p).map UInt16.toInt16
  rwa [Int16.toInt16_toUInt16] at h

theorem reads_i32 (x : Int32) (p : Nat) : Reads Reader.i32 p (BigEndian.i32 x) x := by
  have h := (reads_u32 x.toUInt32 p).map UInt32.toInt32
  rwa [Int32.toInt32_toUInt32] at h

theorem reads_i64 (x : Int64) (p : Nat) : Reads Reader.i64 p (BigEndian.i64 x) x := by
  have h := (reads_u64 x.toUInt64 p).map UInt64.toInt64
  rwa [Int64.toInt64_toUInt64] at h

theorem reads_align4 (p : Nat) : Reads align4 p (List.replicate ((4 - p % 4) % 4) 0) () := by
  intro rest base
  have h := reads_bytes (List.replicate ((4 - p % 4) % 4) 0) p rest base
  rw [List.length_replicate] at h ⊢
  rw [align4, run_bind_eq_ok]
  refine ⟨_, _, rfl, ?_⟩
  rw [run_bind_eq_ok]
  exact ⟨_, _, h, rfl⟩

/-- At a position, the reader takes these bytes, whatever comes after, and this holds of the value
that it finds, which may depend on where in the file they are. -/
def ReadsAs (reader : Reader α) (position : Nat) (taken : Bytes) (P : α → Prop) : Prop :=
  ∀ rest base, ∃ a, P a ∧ reader.run ⟨taken ++ rest, position, base⟩ =
    .ok (a, ⟨rest, position + taken.length, base⟩)

variable {P : α → Prop} {Q : β → Prop}

theorem Reads.toAs (h : Reads reader p taken a) (ha : P a) : ReadsAs reader p taken P :=
  fun rest base => ⟨a, ha, h rest base⟩

theorem ReadsAs.toReads (h : ReadsAs reader p taken P) (ha : ∀ a', P a' → a' = a) :
    Reads reader p taken a := by
  intro rest base
  obtain ⟨a', ha', hrun⟩ := h rest base
  rwa [ha a' ha'] at hrun

theorem ReadsAs.bind (h : ReadsAs reader p taken P)
    (h' : ∀ a, P a → ReadsAs (f a) (p + taken.length) more Q) :
    ReadsAs (reader >>= f) p (taken ++ more) Q := by
  intro rest base
  obtain ⟨a, ha, hrun⟩ := h (more ++ rest) base
  obtain ⟨c, hc, hrun'⟩ := h' a ha rest base
  refine ⟨c, hc, ?_⟩
  rw [List.append_assoc, run_bind_eq_ok]
  refine ⟨a, _, hrun, ?_⟩
  rw [hrun', List.length_append, Nat.add_assoc]

theorem Reads.bind_as (h : Reads reader p taken a)
    (h' : ReadsAs (f a) (p + taken.length) more Q) : ReadsAs (reader >>= f) p (taken ++ more) Q :=
  (h.toAs (P := (· = a)) rfl).bind fun _ hc => hc ▸ h'

theorem ReadsAs.map (h : ReadsAs reader p taken P) {g : α → β} (hg : ∀ a, P a → Q (g a)) :
    ReadsAs (reader >>= fun a => pure (g a)) p taken Q := by
  have hb := h.bind (f := fun a => pure (g a)) fun a ha =>
    (reads_pure (g a) (p + taken.length)).toAs (hg a ha)
  rwa [List.append_nil] at hb

/-- Bytes that are set apart are read later, from their first one on. -/
theorem readsAs_part (taken : Bytes) (p : Nat) :
    ReadsAs (part taken.length) p taken fun cursor => ∃ base, cursor = ⟨taken, 0, base⟩ := by
  intro rest base
  refine ⟨⟨taken, 0, base + p⟩, ⟨_, rfl⟩, ?_⟩
  change (Cursor.take ⟨taken ++ rest, p, base⟩ taken.length >>= _) = _
  simp [Cursor.take, List.splitAt_eq]
  rfl

/-- Items are read one after the other. -/
theorem readsAs_times {γ δ : Type} {item : Reader α} {write : γ → Bytes} {R : δ → α → Prop}
    {l : List δ} {written : List γ}
    (h : List.Forall₂ (fun x y => ∀ p, ReadsAs item p (write y) (R x)) l written) (p : Nat) :
    ReadsAs (times written.length item) p (written.flatMap write) (List.Forall₂ R l) := by
  suffices hs : ∀ before p, ReadsAs (timesOnto item before written.length) p
      (written.flatMap write)
      fun found => ∃ found', List.Forall₂ R l found' ∧ found = before.reverse ++ found' by
    intro rest base
    obtain ⟨a, ⟨found, hfound, ha⟩, hrun⟩ := hs [] p rest base
    obtain rfl : a = found := ha
    exact ⟨a, hfound, hrun⟩
  clear p
  induction h with
  | nil =>
    intro before p
    exact (reads_pure before.reverse p).toAs ⟨[], .nil, (List.append_nil _).symm⟩
  | cons hx _ ih =>
    intro before p
    refine (hx p).bind fun a ha rest base => ?_
    obtain ⟨_, ⟨found, hfound, rfl⟩, hrun⟩ := ih (a :: before) _ rest base
    exact ⟨_, ⟨a :: found, .cons ha hfound, by simp⟩, hrun⟩

/-- As many items are read as were written, if their number fits. -/
theorem readsAs_counted {γ δ : Type} {item : Reader α} {write : γ → Bytes} {R : δ → α → Prop}
    {l : List δ} {written : List γ}
    (h : List.Forall₂ (fun x y => ∀ p, ReadsAs item p (write y) (R x)) l written)
    (hl : l.length < 0x10000) (p : Nat) :
    ReadsAs (Reader.counted item) p (BigEndian.counted write written) (List.Forall₂ R l) := by
  refine (reads_u16 _ p).bind_as ?_
  rw [UInt16.toNat_ofNat_of_lt' (h.length_eq ▸ hl)]
  exact readsAs_times h _

theorem reads_times_of_forall₂ {γ : Type} {item : Reader α} {write : γ → Bytes} {l : List γ}
    {found : List α} (h : List.Forall₂ (fun x a => ∀ p, Reads item p (write x) a) l found)
    (p : Nat) :
    Reads (times l.length item) p (l.flatMap write) found := by
  refine (readsAs_times (R := fun x a => a = x) (h.flip.imp fun x y hy p => ?_) p).toReads ?_
  · exact (hy p).toAs rfl
  · intro l hl
    exact (List.forall₂_eq_eq_eq ▸ hl.flip : l = found)

theorem reads_times {γ : Type} {item : Reader α} {write : γ → Bytes} {g : γ → α} {l : List γ}
    (h : ∀ x ∈ l, ∀ p, Reads item p (write x) (g x)) (p : Nat) :
    Reads (times l.length item) p (l.flatMap write) (l.map g) :=
  reads_times_of_forall₂ (List.forall₂_map_right_iff.mpr (List.forall₂_same.mpr h)) p

theorem reads_counted {γ : Type} {item : Reader α} {write : γ → Bytes} {l : List γ}
    {found : List α} (h : List.Forall₂ (fun x a => ∀ p, Reads item p (write x) a) l found)
    (hl : l.length < 0x10000) (p : Nat) :
    Reads (Reader.counted item) p (BigEndian.counted write l) found := by
  refine (reads_u16 _ p).bind ?_
  rw [UInt16.toNat_ofNat_of_lt' hl]
  exact reads_times_of_forall₂ h _

end Reader
end ClassTree
