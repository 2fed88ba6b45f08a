import ClassTree.Pool.Slots

namespace ClassTree.Pool.Slots

variable {α : Type} {slots : Slots α} {entries : Array (Nat × α)} {element : α}
  {place index low high : Nat}

/-- Entries before `low` are at earlier places, and those from `high` on at later ones. -/
structure Narrows (entries : Array (Nat × α)) (place low high : Nat) : Prop where
  le : low ≤ high
  below : ∀ i (h : i < entries.size), i < low → entries[i].1 < place
  above : ∀ i (h : i < entries.size), high ≤ i → place < entries[i].1

/-- Looking at one entry leaves the part of the range that is on one side of it. -/
theorem Narrows.halve (h : Narrows entries place low high)
    (ha : ∀ i j (hi : i < entries.size) (hj : j < entries.size), i < j →
      entries[i].1 < entries[j].1)
    {middle : Nat} (hm : middle < entries.size) (hlow : low ≤ middle) (hhigh : middle < high) :
    (entries[middle].1 < place → Narrows entries place (middle + 1) high) ∧
      (place < entries[middle].1 → Narrows entries place low middle) := by
  refine ⟨fun hlt => ⟨hhigh, fun i hi hle => ?_, h.above⟩,
    fun hlt => ⟨hlow, h.below, fun i hi hle => ?_⟩⟩
  · rcases Nat.lt_or_eq_of_le (Nat.le_of_lt_succ hle) with hbefore | rfl
    · exact Nat.lt_trans (ha i middle hi hm hbefore) hlt
    · exact hlt
  · rcases Nat.lt_or_eq_of_le hle with hafter | rfl
    · exact Nat.lt_trans hlt (ha middle i hm hi hafter)
    · exact hlt

theorem search_spec {bound : high ≤ entries.size}
    (ha : ∀ i j (hi : i < entries.size) (hj : j < entries.size), i < j →
      entries[i].1 < entries[j].1)
    (h : Narrows entries place low high) :
    match search entries place low high bound with
    | .ok found => entries[found].1 = place
    | .error found => Narrows entries place found found ∧ found ≤ entries.size := by
  fun_induction search entries place low high bound with
  | case1 low high bound hlt middle found heq => exact heq
  | case2 low high bound hlt middle found hne hless ih =>
    exact ih ((h.halve ha middle.isLt (by grind) (by grind)).1 hless)
  | case3 low high bound hlt middle found hne hnot ih =>
    exact ih ((h.halve ha middle.isLt (by grind) (by grind)).2 (by grind))
  | case4 low high bound hge =>
    obtain rfl : low = high := Nat.le_antisymm h.le (Nat.not_lt.mp hge)
    exact ⟨h, bound⟩

theorem entries_lt (slots : Slots α) (i j : Nat) (hi : i < slots.entries.size)
    (hj : j < slots.entries.size) (h : i < j) : slots.entries[i].1 < slots.entries[j].1 :=
  List.pairwise_iff_getElem.mp slots.ascending i j hi hj h

/-- No two elements begin at the same place. -/
theorem index_unique {i j : Nat} {x y : α} (hi : slots.entries[i]? = some (place, x))
    (hj : slots.entries[j]? = some (place, y)) : i = j := by
  obtain ⟨hlti, hei⟩ := Array.getElem?_eq_some_iff.mp hi
  obtain ⟨hltj, hej⟩ := Array.getElem?_eq_some_iff.mp hj
  rcases Nat.lt_trichotomy i j with hlt | he | hlt
  · simpa [hei, hej] using slots.entries_lt i j hlti hltj hlt
  · exact he
  · simpa [hei, hej] using slots.entries_lt j i hltj hlti hlt

theorem Narrows.ne (h : Narrows entries place low low) {i : Nat} {entry : Nat × α}
    (hi : entries[i]? = some entry) : entry.1 ≠ place := by
  obtain ⟨hlt, rfl⟩ := Array.getElem?_eq_some_iff.mp hi
  rcases Nat.lt_or_ge i low with hbefore | hafter
  · exact Nat.ne_of_lt (h.below i hlt hbefore)
  · exact Nat.ne_of_gt (h.above i hlt hafter)

/-- What a look-up tells is so. -/
theorem lookup_cases (slots : Slots α) (place : Nat) :
    (∃ index element, slots.lookup place = .element index element ∧
      slots.entries[index]? = some (place, element)) ∨
    (slots.lookup place = .beyond ∧ Narrows slots.entries place slots.size slots.size) ∨
    ∃ index, slots.lookup place = .gap index ∧ index < slots.size ∧
      Narrows slots.entries place index index := by
  have h := @search_spec α slots.entries place 0 slots.entries.size (Nat.le_refl _) slots.entries_lt
    ⟨Nat.zero_le slots.entries.size, fun i _ hlt => absurd hlt (Nat.not_lt_zero i),
      fun i hi hle => absurd hi (Nat.not_lt.mpr hle)⟩
  unfold lookup
  split at h
  · rename_i index hs
    refine .inl ⟨index, slots.entries[index].2, by rw [hs], ?_⟩
    rw [Array.getElem?_eq_getElem index.isLt, ← h]
    rfl
  · rename_i index hs
    rw [hs]
    dsimp only
    obtain ⟨hnarrow, hle⟩ := h
    split
    · rename_i he
      subst he
      exact .inr (.inl ⟨rfl, hnarrow⟩)
    · rename_i hne
      exact .inr (.inr ⟨index, rfl, Nat.lt_of_le_of_ne hle hne, hnarrow⟩)

theorem lookup_eq_element : slots.lookup place = .element index element ↔
    slots.entries[index]? = some (place, element) := by
  rcases slots.lookup_cases place with ⟨i, x, h, hentry⟩ | ⟨h, hnarrow⟩ | ⟨i, h, -, hnarrow⟩
  · rw [h, Found.element.injEq]
    constructor
    · rintro ⟨rfl, rfl⟩
      exact hentry
    · intro hindex
      obtain rfl := index_unique hentry hindex
      simpa using hentry.symm.trans hindex
  · exact iff_of_false (by rw [h]; exact nofun) fun he => hnarrow.ne he rfl
  · exact iff_of_false (by rw [h]; exact nofun) fun he => hnarrow.ne he rfl

theorem get?_eq_some_iff_lookup :
    slots.get? place = some element ↔ ∃ index, slots.lookup place = .element index element := by
  unfold get?
  split <;> rename_i h <;> simp [h]

theorem get?_eq_some : slots.get? place = some element ↔
    (place, element) ∈ slots.entries.toList := by
  simp only [get?_eq_some_iff_lookup, lookup_eq_element, Array.mem_toList_iff,
    Array.mem_iff_getElem?]

@[simp] theorem entries_push (slots : Slots α) (wide : Bool) (element : α) :
    (slots.push wide element).entries.toList = slots.entries.toList ++ [(slots.next, element)] :=
  Array.toList_push

@[simp] theorem toList_push (slots : Slots α) (wide : Bool) (element : α) :
    (slots.push wide element).toList = slots.toList ++ [element] := by
  simp [toList]

/-- What is there stays when something is added. -/
theorem get?_push {wide : Bool} {new : α} (h : slots.get? place = some element) :
    (slots.push wide new).get? place = some element := by
  rw [get?_eq_some] at h ⊢
  rw [entries_push]
  exact List.mem_append_left _ h

/-- What is added is found at the place that was next. -/
theorem get?_push_next (wide : Bool) :
    (slots.push wide element).get? slots.next = some element := by
  rw [get?_eq_some, entries_push]
  exact List.mem_append_right _ List.mem_cons_self

theorem bounds_of_get? (h : slots.get? place = some element) :
    slots.start ≤ place ∧ place < slots.next :=
  slots.bounds _ (get?_eq_some.mp h)

/-- An element with its place is found there. -/
theorem mem_placed (h : (place, element) ∈ slots.placed) :
    slots.get? place = some element ∧ place < slots.next :=
  ⟨get?_eq_some.mpr h, (slots.bounds _ h).2⟩

theorem mem_of_get? (h : slots.get? place = some element) : element ∈ slots.toList :=
  List.mem_map.mpr ⟨(place, element), get?_eq_some.mp h, rfl⟩

end ClassTree.Pool.Slots
