import ClassTree.Code.Labels
import ClassTree.Proofs.Code.Layout
import Mathlib.Data.List.Induction

namespace ClassTree

open ClassTree.Flow

variable {code : List (Instruction Label)} {label : Label}

theorem Instruction.eq_of_placed? {insn : Instruction Label} (h : insn.placed? = some label) :
    insn = .label label := by
  cases insn with
  | label other => exact congrArg Instruction.label (Option.some.inj h)
  | _ => cases h

theorem Label.nodup_of_firstRepeated? {seen : Std.HashSet Label} {labels : List Label}
    (h : firstRepeated? seen labels = none) :
    labels.Nodup ∧ ∀ label ∈ labels, label ∉ seen := by
  induction labels generalizing seen with
  | nil => exact ⟨.nil, nofun⟩
  | cons label labels ih =>
    rw [firstRepeated?] at h
    split at h
    · cases h
    · rename_i hnew
      obtain ⟨hnodup, hout⟩ := ih h
      refine ⟨List.nodup_cons.mpr ⟨fun hm => ?_, hnodup⟩, ?_⟩
      · exact hout label hm Std.HashSet.mem_insert_self
      · intro other hm
        rcases List.mem_cons.mp hm with rfl | hm
        · simpa using hnew
        · exact fun hs => hout other hm (Std.HashSet.mem_insert.mpr (.inr hs))

/-- A method that is accepted places each label at most once. -/
theorem Method.nodup_placed {method : Method} {name : String}
    (h : method.checkLabels name = .ok ()) : method.body.placed.Nodup := by
  obtain ⟨_, hplaced, -⟩ := bind_eq_ok.mp h
  unfold checkPlacedOnce at hplaced
  split at hplaced
  · cases hplaced
  · rename_i hnone
    exact (Label.nodup_of_firstRepeated? hnone).1

theorem Label.firstRepeated?_eq_none {seen : Std.HashSet Label} {labels : List Label}
    (hnodup : labels.Nodup) (hout : ∀ label ∈ labels, label ∉ seen) :
    firstRepeated? seen labels = none := by
  induction labels generalizing seen with
  | nil => rfl
  | cons label labels ih =>
    rw [firstRepeated?, if_neg (by simpa using hout label (by simp))]
    refine ih (List.nodup_cons.mp hnodup).2 fun other hm hs => ?_
    rcases Std.HashSet.mem_insert.mp hs with he | hs
    · obtain rfl := eq_of_beq he
      exact (List.nodup_cons.mp hnodup).1 hm
    · exact hout other (List.mem_cons_of_mem _ hm) hs

theorem Method.checkLabels_of_nodup {method : Method} (h : method.body.placed.Nodup)
    (hresolved : ∀ label ∈ method.references, label ∈ method.body.placed) (name : String) :
    method.checkLabels name = .ok () := by
  have honce : method.checkPlacedOnce name = .ok () := by
    rw [checkPlacedOnce, Label.firstRepeated?_eq_none h (by simp)]
  have hplaced : method.checkResolved name = .ok () := by
    unfold checkResolved
    have hnone : (method.references.find? fun label =>
        !(Std.HashSet.ofList method.body.placed).contains label) = none :=
      List.find?_eq_none.mpr fun label hm => by simpa using hresolved label hm
    dsimp only
    rw [hnone]
  rw [checkLabels, honce, hplaced]
  rfl

theorem Method.checkLabels_eq_ok {method : Method} {name : String} :
    method.checkLabels name = .ok () ↔ method.body.placed.Nodup ∧
      ∀ label ∈ method.references, label ∈ method.body.placed := by
  refine ⟨fun h => ⟨nodup_placed h, fun label hm => ?_⟩, fun h => checkLabels_of_nodup h.1 h.2 name⟩
  obtain ⟨_, -, hresolved⟩ := bind_eq_ok.mp h
  unfold checkResolved at hresolved
  dsimp only at hresolved
  split at hresolved
  · cases hresolved
  · rename_i hnone
    simpa using List.find?_eq_none.mp hnone label hm

/-- A method that places a label twice is refused. -/
theorem Method.checkLabels_of_not_nodup {method : Method} (h : ¬ method.body.placed.Nodup)
    (name : String) : ∃ label, method.checkLabels name = .error (.duplicateLabel name label) := by
  cases hf : Label.firstRepeated? ∅ method.body.placed with
  | none => exact absurd (Label.nodup_of_firstRepeated? hf).1 h
  | some label =>
    refine ⟨label, ?_⟩
    rw [checkLabels, checkPlacedOnce, hf]
    rfl

namespace Flow.Positions

theorem ofCode_append_label (code : List (Instruction Label)) (label : Label) :
    ofCode (code ++ [.label label]) = (ofCode code).insert label code.length := by
  simp [ofCode, List.zipIdx_append, List.foldl_append]

theorem ofCode_append_of_placed? {insn : Instruction Label} (h : insn.placed? = none) :
    ofCode (code ++ [insn]) = ofCode code := by
  simp only [ofCode, List.zipIdx_append, List.foldl_append]
  cases insn with
  | label label => cases h
  | _ => rfl

/-- A label is at the last index at which it is placed. -/
theorem getElem?_ofCode {index : Nat} : (ofCode code)[label]? = some index ↔
    code[index]? = some (.label label) ∧ ∀ later, index < later →
      code[later]? ≠ some (.label label) := by
  induction code using List.reverseRecOn with
  | nil => simp [ofCode]
  | append_singleton code insn ih =>
    by_cases hl : insn = .label label
    · subst hl
      simp only [ofCode_append_label, Std.HashMap.getElem?_insert_self, Option.some.injEq]
      constructor
      · rintro rfl
        refine ⟨List.getElem?_concat_length, fun later hlt => ?_⟩
        rw [List.getElem?_eq_none (by simp; omega)]
        simp
      · rintro ⟨hi, hlast⟩
        have hle : index ≤ code.length := by
          have := (List.getElem?_eq_some_iff.mp hi).1
          simp at this
          omega
        by_contra hne
        exact hlast code.length (by omega) List.getElem?_concat_length
    · have hskip : (ofCode (code ++ [insn]))[label]? = (ofCode code)[label]? := by
        cases hp : insn.placed? with
        | none => rw [ofCode_append_of_placed? hp]
        | some other =>
          obtain rfl := Instruction.eq_of_placed? hp
          have hne : other ≠ label := fun he => hl (he ▸ rfl)
          simp [ofCode_append_label, Std.HashMap.getElem?_insert, hne]
      have hat : ∀ i : Nat, (code ++ [insn])[i]? = some (Instruction.label label) ↔
          code[i]? = some (Instruction.label label) := by
        intro i
        rw [List.getElem?_append]
        split
        · rfl
        · rename_i hge
          rw [List.getElem?_eq_none (Nat.le_of_not_lt hge)]
          cases hi : i - code.length with
          | zero => simpa using hl
          | succ n => simp
      simp only [hskip, ih, hat, ne_eq]

/-- A label that is placed once is at one index only. -/
theorem index_unique (h : (code.filterMap Instruction.placed?).count label ≤ 1) {i j : Nat}
    (hi : code[i]? = some (.label label)) (hj : code[j]? = some (.label label)) : i = j := by
  by_contra hne
  wlog hlt : i < j generalizing i j
  · exact this hj hi (Ne.symm hne) (by omega)
  have hfirst : label ∈ (code.take j).filterMap Instruction.placed? := by
    refine List.mem_filterMap.mpr ⟨.label label, ?_, rfl⟩
    exact List.mem_of_getElem? ((List.getElem?_take_of_lt hlt).trans hi)
  have hsecond : label ∈ (code.drop j).filterMap Instruction.placed? := by
    refine List.mem_filterMap.mpr ⟨.label label, ?_, rfl⟩
    refine List.mem_of_getElem? (i := 0) ?_
    rw [List.getElem?_drop, Nat.add_zero, hj]
  rw [← List.take_append_drop j code, List.filterMap_append, List.count_append] at h
  have := List.count_pos_iff.mpr hfirst
  have := List.count_pos_iff.mpr hsecond
  omega

theorem getElem?_ofCode_of_once (h : (code.filterMap Instruction.placed?).count label = 1)
    {index : Nat} (hi : code[index]? = some (.label label)) :
    (ofCode code)[label]? = some index := by
  refine getElem?_ofCode.mpr ⟨hi, fun later hlt hl => ?_⟩
  exact Nat.ne_of_lt hlt (index_unique (Nat.le_of_eq h) hi hl)

end Flow.Positions

namespace Code

/-- A label is at the offset of its last place. -/
theorem getElem?_labelOffsets (code : List (Instruction Label)) (offsets : Offsets)
    (label : Label) : (LabelOffsets.ofCode code offsets)[label]? =
      ((Positions.ofCode code)[label]?).map (offsets.getD · 0) := by
  induction code using List.reverseRecOn with
  | nil => simp [LabelOffsets.ofCode, Positions.ofCode]
  | append_singleton code insn ih =>
    simp only [LabelOffsets.ofCode, List.zipIdx_append, List.foldl_append] at ih ⊢
    cases hp : insn.placed? with
    | none =>
      rw [Positions.ofCode_append_of_placed? hp]
      cases insn with
      | label other => cases hp
      | _ => exact ih
    | some other =>
      obtain rfl := Instruction.eq_of_placed? hp
      rw [Positions.ofCode_append_label]
      by_cases hne : other = label
      · simp [hne]
      · simpa [Std.HashMap.getElem?_insert, hne] using ih

/-- A label that is not placed counts as being at the start. -/
theorem labelOffsets_at {b : Pool.Builder} {offsets : Offsets} (h : Laid b code offsets)
    (label : Label) : (LabelOffsets.ofCode code offsets).at label =
      offsets.getD ((Positions.ofCode code).getD label 0) 0 := by
  rw [LabelOffsets.at, Std.HashMap.getD_eq_getD_getElem?, getElem?_labelOffsets,
    Std.HashMap.getD_eq_getD_getElem?]
  cases (Positions.ofCode code)[label]? with
  | none => exact h.first.symm
  | some index => rfl

/-- A label that is placed once is at the offset of that place. -/
theorem exists_at_of_once {offsets : Offsets}
    (h : (code.filterMap Instruction.placed?).count label = 1) :
    ∃ index, code[index]? = some (.label label) ∧
      (∀ other, code[other]? = some (.label label) → other = index) ∧
      (LabelOffsets.ofCode code offsets).at label = offsets.getD index 0 := by
  have hm : label ∈ code.filterMap Instruction.placed? := List.count_pos_iff.mp (by omega)
  obtain ⟨insn, hmem, hp⟩ := List.mem_filterMap.mp hm
  obtain rfl := Instruction.eq_of_placed? hp
  obtain ⟨index, hi⟩ := List.getElem?_of_mem hmem
  refine ⟨index, hi, fun other ho => Positions.index_unique (Nat.le_of_eq h) ho hi, ?_⟩
  rw [LabelOffsets.at, Std.HashMap.getD_eq_getD_getElem?, getElem?_labelOffsets,
    Positions.getElem?_ofCode_of_once h hi]
  rfl

end Code
end ClassTree
