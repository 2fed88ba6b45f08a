import ClassTree.Numbering

namespace ClassTree

section

variable {α β : Type} [BEq α] [Hashable α] [LawfulBEq α] {entries : List (α × β)} {key : α}
  {value : β}

theorem mem_of_insertMany {map : Std.HashMap α β}
    (h : (map.insertMany entries)[key]? = some value) :
    (key, value) ∈ entries ∨ map[key]? = some value := by
  induction entries generalizing map with
  | nil => exact .inr (by simpa using h)
  | cons first rest ih =>
    obtain ⟨place, value⟩ := first
    rw [Std.HashMap.insertMany_cons] at h
    rcases ih h with hm | hold
    · exact .inl (List.mem_cons_of_mem _ hm)
    · rw [Std.HashMap.getElem?_insert] at hold
      split at hold
      · rename_i he
        obtain rfl := eq_of_beq he
        obtain rfl := Option.some.inj hold
        exact .inl List.mem_cons_self
      · exact .inr hold

/-- What is found in a map was listed. -/
theorem mem_of_ofList (h : (Std.HashMap.ofList entries)[key]? = some value) :
    (key, value) ∈ entries := by
  rw [Std.HashMap.ofList_eq_insertMany_empty] at h
  exact (mem_of_insertMany h).resolve_right (by simp)

end

namespace Numbering

variable {α : Type} [BEq α] [Hashable α] [LawfulBEq α] {numbers : Numbering α}
  {things : List α} {a b : α} {n : Nat}

theorem mem_see : a ∈ numbers.see b ↔ b = a ∨ a ∈ numbers := by
  simp [see, Std.HashMap.mem_insertIfNew]

theorem mem_foldl_see : a ∈ things.foldl see numbers ↔ a ∈ things ∨ a ∈ numbers := by
  induction things generalizing numbers with
  | nil => simp
  | cons thing things ih =>
    rw [List.foldl_cons, ih, mem_see, List.mem_cons]
    grind

/-- Exactly what is listed has a number. -/
theorem mem_ofList : a ∈ ofList things ↔ a ∈ things := by
  rw [ofList, mem_foldl_see]
  simp

/-- The numbers are those below their count, and no two things share one. -/
structure Faithful (numbers : Numbering α) : Prop where
  below : ∀ {a : α} {n}, numbers[a]? = some n → n < numbers.size
  used : ∀ {n}, n < numbers.size → ∃ a : α, numbers[a]? = some n
  apart : ∀ {a b : α} {n}, numbers[a]? = some n → numbers[b]? = some n → a = b

theorem Faithful.see (h : Faithful numbers) (thing : α) : Faithful (numbers.see thing) := by
  by_cases hold : thing ∈ numbers
  · have hsize : (numbers.see thing).size = numbers.size := by
      simp [Numbering.see, Std.HashMap.size_insertIfNew, hold]
    have hsame : ∀ other : α, (numbers.see thing)[other]? = numbers[other]? := by
      intro other
      rw [Numbering.see, Std.HashMap.getElem?_insertIfNew, if_neg]
      rintro ⟨-, hnew⟩
      exact hnew hold
    refine ⟨fun ha => ?_, fun hn => ?_, fun ha hb => ?_⟩
    · rw [hsame] at ha
      exact hsize ▸ h.below ha
    · obtain ⟨a, ha⟩ := h.used (hsize ▸ hn)
      exact ⟨a, (hsame a).trans ha⟩
    · rw [hsame] at ha hb
      exact h.apart ha hb
  · have hsize : (numbers.see thing).size = numbers.size + 1 := by
      simp [Numbering.see, Std.HashMap.size_insertIfNew, hold]
    have hcases : ∀ {other : α} {n}, (numbers.see thing)[other]? = some n →
        thing = other ∧ n = numbers.size ∨ numbers[other]? = some n := by
      intro other n ho
      rw [Numbering.see, Std.HashMap.getElem?_insertIfNew] at ho
      split at ho
      · rename_i hc
        exact .inl ⟨eq_of_beq hc.1, (Option.some.inj ho).symm⟩
      · exact .inr ho
    refine ⟨fun ha => ?_, fun hn => ?_, fun ha hb => ?_⟩
    · rw [hsize]
      rcases hcases ha with ⟨-, rfl⟩ | ha
      · exact Nat.lt_succ_self _
      · exact Nat.lt_succ_of_lt (h.below ha)
    · rw [hsize] at hn
      rcases Nat.lt_succ_iff_lt_or_eq.mp hn with hn | rfl
      · obtain ⟨a, ha⟩ := h.used hn
        refine ⟨a, ?_⟩
        have hin : a ∈ numbers := by
          rw [Std.HashMap.mem_iff_isSome_getElem?, ha]
          rfl
        rw [Numbering.see, Std.HashMap.getElem?_insertIfNew, if_neg, ha]
        rintro ⟨he, -⟩
        exact hold (eq_of_beq he ▸ hin)
      · refine ⟨thing, ?_⟩
        rw [Numbering.see, Std.HashMap.getElem?_insertIfNew, if_pos ⟨beq_self_eq_true _, hold⟩]
    · rcases hcases ha with ⟨rfl, rfl⟩ | ha <;> rcases hcases hb with ⟨rfl, hn⟩ | hb
      · rfl
      · exact absurd (h.below hb) (Nat.lt_irrefl _)
      · exact absurd (hn ▸ h.below ha) (Nat.lt_irrefl _)
      · exact h.apart ha hb

theorem faithful_ofList (things : List α) : Faithful (ofList things) := by
  suffices hs : ∀ numbers : Numbering α, Faithful numbers → Faithful (things.foldl see numbers) from
    hs ∅ ⟨by simp, by simp, by simp⟩
  intro numbers h
  induction things generalizing numbers with
  | nil => exact h
  | cons thing things ih => exact ih _ (h.see thing)

theorem getElem?_of_mem (h : a ∈ numbers) : numbers[a]? = some (numbers.getD a 0) := by
  rw [Std.HashMap.getD_eq_getD_getElem?]
  rw [Std.HashMap.mem_iff_isSome_getElem?, Option.isSome_iff_exists] at h
  obtain ⟨n, hn⟩ := h
  rw [hn]
  rfl

theorem getD_ofList_lt (h : a ∈ things) : (ofList things).getD a 0 < (ofList things).size :=
  (faithful_ofList things).below (getElem?_of_mem (mem_ofList.mpr h))

theorem exists_of_lt_size (h : n < (ofList things).size) :
    ∃ a ∈ things, (ofList things).getD a 0 = n := by
  obtain ⟨a, ha⟩ := (faithful_ofList things).used h
  have hin : a ∈ ofList things := by
    rw [Std.HashMap.mem_iff_isSome_getElem?, ha]
    rfl
  exact ⟨a, mem_ofList.mp hin, Option.some.inj ((getElem?_of_mem hin).symm.trans ha)⟩

/-- Different things that are listed have different numbers. -/
theorem getD_ofList_inj (ha : a ∈ things) (hb : b ∈ things)
    (h : (ofList things).getD a 0 = (ofList things).getD b 0) : a = b := by
  have hfirst := getElem?_of_mem (mem_ofList.mpr ha)
  have hsecond := getElem?_of_mem (mem_ofList.mpr hb)
  rw [← h] at hsecond
  exact (faithful_ofList things).apart hfirst hsecond

end Numbering
end ClassTree
