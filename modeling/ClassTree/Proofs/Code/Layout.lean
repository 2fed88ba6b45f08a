import ClassTree.Code.Encoding
import ClassTree.Proofs.Bytes.Reading
import ClassTree.Proofs.Pool.Building

namespace ClassTree.Code

open Pool Build BigEndian

variable {b b' : Builder} {code : List (Instruction Label)} {offsets : Offsets} {offset : Nat}

theorem lawful_size (offset : Nat) (insn : Instruction Label) : Lawful (size offset insn) := by
  cases insn with
  | load value => exact (lawful_literal value).bind fun _ => lawful_pure _
  | _ => exact lawful_pure _

theorem size_pos {insn : Instruction Label} (hreal : insn.isMarker = false) {n : Nat}
    (hy : Yields (size offset insn) b n b') : 0 < n := by
  cases insn with
  | load value =>
    obtain ⟨index, middle, -, hp⟩ := yields_bind.mp hy
    obtain ⟨rfl, -⟩ := yields_pure.mp hp
    split <;> omega
  | label | line | frame => cases hreal
  | var op slot =>
    obtain ⟨rfl, -⟩ := yields_pure.mp hy
    split
    · omega
    · split <;> omega
  | int | invoke | jump | increment =>
    obtain ⟨rfl, -⟩ := yields_pure.mp hy
    split <;> omega
  | _ =>
    obtain ⟨rfl, -⟩ := yields_pure.mp hy
    omega

theorem size_marker {insn : Instruction Label} (hmark : insn.isMarker = true) {n : Nat}
    (hy : Yields (size offset insn) b n b') : n = 0 := by
  cases insn with
  | label | line | frame => exact (yields_pure.mp hy).1.symm
  | _ => cases hmark

theorem lawful_layout (code : List (Instruction Label)) : Lawful (layout code) :=
  (lawful_foldlM (fun _ _ => (lawful_size _ _).bind fun _ => lawful_pure _) _ _).bind
    fun _ => lawful_pure _

theorem lawful_encodeInstruction (offset : Nat) (insn : Instruction Nat) :
    Lawful (encodeInstruction offset insn) := by
  cases insn with
  | type op name => exact (lawful_classRef name).bind fun _ => lawful_pure _
  | field op member => exact (lawful_field member).bind fun _ => lawful_pure _
  | invoke op member onInterface =>
    exact (lawful_method member onInterface).bind fun _ =>
      (lawful_ofExcept _).bind fun _ => lawful_pure _
  | invokeDynamic name descriptor method arguments =>
    exact (lawful_invokeDynamic name descriptor method arguments).bind fun _ => lawful_pure _
  | load value => exact (lawful_literal value).bind fun _ => lawful_pure _
  | multiArray descriptor dimensions =>
    exact (lawful_classRef descriptor).bind fun _ => lawful_pure _
  | _ => exact lawful_pure _

theorem lawful_encode (code : List (Instruction Label)) (offsets : Offsets)
    (labels : LabelOffsets) : Lawful (encode code offsets labels) :=
  (lawful_mapM (fun _ => lawful_encodeInstruction _ _) _).bind fun _ => lawful_pure _

/-- Elements are where they should be, as far as the pool knows how long they are. -/
structure Laid (b : Builder) (code : List (Instruction Label)) (offsets : Offsets) : Prop where
  size : offsets.size = code.length + 1
  first : offsets.getD 0 0 = 0
  next : ∀ {index insn}, code[index]? = some insn →
    Yields (Code.size (offsets.getD index 0) insn) b
      (offsets.getD (index + 1) 0 - offsets.getD index 0) b ∧
    offsets.getD index 0 ≤ offsets.getD (index + 1) 0

theorem Laid.mono (h : Laid b code offsets) (hw : b.Within b') : Laid b' code offsets where
  size := h.size
  first := h.first
  next := fun hc => ⟨(lawful_size _ _).again (h.next hc).1 hw, (h.next hc).2⟩

theorem getD_push_of_lt {index : Nat} (h : index < offsets.size) (next : Nat) :
    (offsets.push next).getD index 0 = offsets.getD index 0 := by
  simp [Array.getD_eq_getD_getElem?, Array.getElem?_push, Nat.ne_of_lt h]

theorem getD_push_size (offsets : Offsets) (next : Nat) :
    (offsets.push next).getD offsets.size 0 = next := by
  simp [Array.getD_eq_getD_getElem?]

/-- Offsets before those that are added stay, and the first one to be added is the current one. -/
theorem laid_of_foldlM {start : Offsets} {offset length : Nat}
    (hy : Yields (code.foldlM (fun (offsets, offset) insn =>
      return (offsets.push offset, offset + (← size offset insn))) (start, offset)) b
      (offsets, length) b') :
    offsets.size = start.size + code.length ∧
    (∀ index < start.size, offsets.getD index 0 = start.getD index 0) ∧
    (offsets.push length).getD start.size 0 = offset ∧
    ∀ {index insn}, code[index]? = some insn →
      Yields (size ((offsets.push length).getD (start.size + index) 0) insn) b'
        ((offsets.push length).getD (start.size + index + 1) 0 -
          (offsets.push length).getD (start.size + index) 0) b' ∧
      (offsets.push length).getD (start.size + index) 0 ≤
        (offsets.push length).getD (start.size + index + 1) 0 := by
  induction code generalizing start offset b with
  | nil =>
    obtain ⟨he, rfl⟩ := yields_pure.mp hy
    obtain ⟨rfl, rfl⟩ := Prod.mk.inj he
    simp
  | cons insn code ih =>
    rw [List.foldlM_cons] at hy
    obtain ⟨⟨start', offset'⟩, middle, hstep, hrest⟩ := yields_bind.mp hy
    obtain ⟨width, middle', hs, hp⟩ := yields_bind.mp hstep
    obtain ⟨he, rfl⟩ := yields_pure.mp hp
    obtain ⟨rfl, rfl⟩ := Prod.mk.inj he
    obtain ⟨hsize, hold, hfirst, hnext⟩ := ih hrest
    simp only [Array.size_push] at hsize hold hfirst hnext
    have hhere : offsets.getD start.size 0 = offset := by
      rw [hold start.size (Nat.lt_succ_self _), getD_push_size]
    have hlt : start.size < offsets.size := by omega
    refine ⟨by rw [hsize, List.length_cons]; omega, ?_, ?_, ?_⟩
    · intro index hi
      rw [hold index (by omega), getD_push_of_lt hi]
    · rw [getD_push_of_lt hlt, hhere]
    · intro index other hc
      cases index with
      | zero =>
        obtain rfl : insn = other := by simpa using hc
        rw [Nat.add_zero, getD_push_of_lt hlt, hhere, hfirst, Nat.add_sub_cancel_left]
        have hgrow := (lawful_foldlM (fun _ _ => (lawful_size _ _).bind fun _ => lawful_pure _)
          _ _).grows hrest
        exact ⟨(lawful_size _ _).again hs hgrow, Nat.le_add_right _ _⟩
      | succ index =>
        have hn := @hnext index other (by simpa using hc)
        rwa [show start.size + 1 + index = start.size + (index + 1) by omega] at hn

theorem laid_of_layout (hy : Yields (layout code) b offsets b') : Laid b' code offsets := by
  obtain ⟨⟨found, length⟩, middle, hf, hp⟩ := yields_bind.mp hy
  obtain ⟨rfl, rfl⟩ := yields_pure.mp hp
  obtain ⟨hsize, -, hfirst, hnext⟩ := laid_of_foldlM hf
  simp only [Array.size_empty, Nat.zero_add] at hsize hfirst hnext
  exact ⟨by rw [Array.size_push, hsize], hfirst, hnext⟩

theorem Laid.length_eq (h : Laid b code offsets) :
    offsets.length = offsets.getD code.length 0 := by
  rw [Offsets.length, Array.back?_eq_getElem?, h.size, Nat.add_sub_cancel,
    Array.getD_eq_getD_getElem?]

theorem Laid.le_of_le (h : Laid b code offsets) {i j : Nat} (hij : i ≤ j) (hj : j ≤ code.length) :
    offsets.getD i 0 ≤ offsets.getD j 0 := by
  induction hij with
  | refl => exact Nat.le_refl _
  | step _ ih =>
    have hn := h.next (List.getElem?_eq_getElem hj)
    exact Nat.le_trans (ih (Nat.le_of_lt hj)) hn.2

theorem Laid.le_length (h : Laid b code offsets) (i : Nat) :
    offsets.getD i 0 ≤ offsets.length := by
  rw [h.length_eq]
  by_cases hi : i ≤ code.length
  · exact h.le_of_le hi (Nat.le_refl _)
  · rw [Array.getD_eq_getD_getElem?, Array.getElem?_eq_none (by rw [h.size]; omega)]
    exact Nat.zero_le _

theorem length_encodeVar (op : Opcode) (slot : UInt16) : (encodeVar op slot).length =
    if isShortVar op slot then 1 else if slot ≤ 255 then 2 else 4 := by
  unfold encodeVar
  split
  · rfl
  · split <;> simp

theorem length_encodeIncrement (slot : UInt16) (amount : Int16) :
    (encodeIncrement slot amount).length = if isShortIncrement slot amount then 3 else 6 := by
  unfold encodeIncrement
  split <;> simp

theorem length_encodeInt (op : Opcode) (operand : Int32) :
    (encodeInt op operand).length = if op = .sipush then 3 else 2 := by
  unfold encodeInt
  split <;> simp

theorem length_encodeLoad (value : Literal) (index : Index) :
    (encodeLoad value index).length = if !value.isWide && index ≤ 255 then 2 else 3 := by
  unfold encodeLoad
  cases value.isWide with
  | true => simp
  | false =>
    by_cases hle : index ≤ 255 <;> simp [hle]

theorem length_encodeArgumentCount {op : Opcode} {descriptor : String} {count : Bytes}
    (h : encodeArgumentCount op descriptor = .ok count) :
    count.length = if op = .invokeinterface then 2 else 0 := by
  unfold encodeArgumentCount at h
  split at h
  · rename_i hop
    rw [if_pos hop]
    split at h
    · cases h
      rfl
    · cases h
  · rename_i hop
    rw [if_neg hop]
    cases h
    rfl

theorem length_flatMap_of_length {α : Type} {write : α → Bytes} {width : Nat}
    (h : ∀ x, (write x).length = width) (l : List α) :
    (l.flatMap write).length = width * l.length := by
  induction l with
  | nil => rfl
  | cons x l ih =>
    rw [List.flatMap_cons, List.length_append, h, ih, List.length_cons, Nat.mul_succ, Nat.add_comm]

/-- Sizes are those of the encodings. -/
theorem length_encodeInstruction {insn : Instruction Label} {place : Label → Nat} {n : Nat}
    {bytes : Bytes} (hs : Yields (size offset insn) b n b)
    (he : Yields (encodeInstruction offset (insn.mapLabels place)) b bytes b) :
    bytes.length = n := by
  cases insn with
  | plain op =>
    obtain ⟨rfl, -⟩ := yields_pure.mp hs
    obtain ⟨rfl, -⟩ := yields_pure.mp he
    rfl
  | int op operand =>
    obtain ⟨rfl, -⟩ := yields_pure.mp hs
    obtain ⟨rfl, -⟩ := yields_pure.mp he
    exact length_encodeInt op operand
  | var op slot =>
    obtain ⟨rfl, -⟩ := yields_pure.mp hs
    obtain ⟨rfl, -⟩ := yields_pure.mp he
    exact length_encodeVar op slot
  | type op name | field op member =>
    obtain ⟨rfl, -⟩ := yields_pure.mp hs
    obtain ⟨index, middle, -, hp⟩ := yields_bind.mp he
    obtain ⟨rfl, -⟩ := yields_pure.mp hp
    simp
  | invoke op member onInterface =>
    obtain ⟨rfl, -⟩ := yields_pure.mp hs
    obtain ⟨index, middle₁, -, he⟩ := yields_bind.mp he
    obtain ⟨count, middle₂, hc, hp⟩ := yields_bind.mp he
    obtain ⟨rfl, -⟩ := yields_pure.mp hp
    rw [List.length_append, length_encodeArgumentCount (yields_ofExcept.mp hc).1]
    split <;> simp
  | invokeDynamic name descriptor method arguments =>
    obtain ⟨rfl, -⟩ := yields_pure.mp hs
    obtain ⟨index, middle, -, hp⟩ := yields_bind.mp he
    obtain ⟨rfl, -⟩ := yields_pure.mp hp
    simp
  | jump op target =>
    obtain ⟨rfl, -⟩ := yields_pure.mp hs
    obtain ⟨rfl, -⟩ := yields_pure.mp he
    rw [List.length_append]
    split <;> simp
  | load value =>
    obtain ⟨index, middle, hi, hp⟩ := yields_bind.mp hs
    obtain ⟨rfl, rfl⟩ := yields_pure.mp hp
    obtain ⟨index', middle', hi', hp'⟩ := yields_bind.mp he
    obtain ⟨rfl, -⟩ := yields_pure.mp hp'
    obtain rfl := hi.value_eq hi'
    exact length_encodeLoad value index
  | increment slot amount =>
    obtain ⟨rfl, -⟩ := yields_pure.mp hs
    obtain ⟨rfl, -⟩ := yields_pure.mp he
    exact length_encodeIncrement slot amount
  | tableSwitch low high default targets =>
    obtain ⟨rfl, -⟩ := yields_pure.mp hs
    obtain ⟨rfl, -⟩ := yields_pure.mp he
    have ht := length_flatMap_of_length (fun target => length_i32 (displacement offset target))
      (targets.map place)
    rw [List.length_map] at ht
    rw [List.length_append, ht]
    simp
    omega
  | lookupSwitch default cases =>
    obtain ⟨rfl, -⟩ := yields_pure.mp hs
    obtain ⟨rfl, -⟩ := yields_pure.mp he
    have hc : ∀ l : List (Int32 × Nat), (l.flatMap fun entry =>
        i32 entry.1 ++ i32 (displacement offset entry.2)).length = 8 * l.length :=
      length_flatMap_of_length fun entry => by simp
    rw [List.length_append, hc, sortCases, List.length_mergeSort, List.length_map]
    simp
    omega
  | multiArray descriptor dimensions =>
    obtain ⟨rfl, -⟩ := yields_pure.mp hs
    obtain ⟨index, middle, -, hp⟩ := yields_bind.mp he
    obtain ⟨rfl, -⟩ := yields_pure.mp hp
    simp
  | label | line | frame =>
    obtain ⟨rfl, -⟩ := yields_pure.mp hs
    obtain ⟨rfl, -⟩ := yields_pure.mp he
    rfl

end ClassTree.Code
