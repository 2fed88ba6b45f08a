namespace ClassTree.Pool

structure Slots (α : Type) where
  start : Nat
  /-- The place that the next element gets. -/
  next : Nat
  /-- Elements with the places where they begin. -/
  entries : Array (Nat × α)
  start_le_next : start ≤ next
  ascending : entries.toList.Pairwise fun earlier later => earlier.1 < later.1
  bounds : ∀ entry ∈ entries.toList, start ≤ entry.1 ∧ entry.1 < next

inductive Found (α : Type) where
  /-- An element begins there, and so many come before it. -/
  | element (index : Nat) (element : α)
  /-- No element begins there, but some begin further on, and so many come before those. -/
  | gap (index : Nat)
  /-- No element begins there or further on. -/
  | beyond
deriving DecidableEq

namespace Slots

def empty (start : Nat) : Slots α where
  start := start
  next := start
  entries := #[]
  start_le_next := Nat.le_refl start
  ascending := .nil
  bounds := nofun

def size (slots : Slots α) : Nat :=
  slots.entries.size

def push (slots : Slots α) (wide : Bool) (element : α) : Slots α where
  start := slots.start
  next := slots.next + if wide then 2 else 1
  entries := slots.entries.push (slots.next, element)
  start_le_next := Nat.le_trans slots.start_le_next (Nat.le_add_right _ _)
  ascending := by
    rw [Array.toList_push, List.pairwise_append]
    refine ⟨slots.ascending, List.pairwise_singleton _ _, fun entry hm last hl => ?_⟩
    rw [List.mem_singleton.mp hl]
    exact (slots.bounds entry hm).2
  bounds := by
    have hlt : slots.next < slots.next + if wide then 2 else 1 := by split <;> omega
    intro entry hm
    rw [Array.toList_push] at hm
    rcases List.mem_append.mp hm with hm | hm
    · exact ⟨(slots.bounds entry hm).1, Nat.lt_trans (slots.bounds entry hm).2 hlt⟩
    · rw [List.mem_singleton.mp hm]
      exact ⟨slots.start_le_next, hlt⟩

theorem next_push (slots : Slots α) (wide : Bool) (element : α) :
    (slots.push wide element).next = slots.next + if wide then 2 else 1 := rfl

/-- Position of the entry at a place, among those from `low` up to `high`; or, if there is none,
the position up to which entries are at earlier places. -/
def search (entries : Array (Nat × α)) (place low high : Nat) (bound : high ≤ entries.size) :
    Except Nat (Fin entries.size) :=
  if _ : low < high then
    let middle : Fin entries.size := ⟨(low + high) / 2, by omega⟩
    let found := entries[middle].1
    if found = place then .ok middle
    else if found < place then search entries place (middle + 1) high bound
    else search entries place low middle (by omega)
  else .error low
termination_by high - low

def lookup (slots : Slots α) (place : Nat) : Found α :=
  match search slots.entries place 0 slots.entries.size (Nat.le_refl _) with
  | .ok index => .element index slots.entries[index].2
  | .error index => if index = slots.entries.size then .beyond else .gap index

def get? (slots : Slots α) (place : Nat) : Option α :=
  match slots.lookup place with
  | .element _ element => some element
  | .gap _ | .beyond => none

def toList (slots : Slots α) : List α :=
  slots.entries.toList.map Prod.snd

def placed (slots : Slots α) : List (Nat × α) :=
  slots.entries.toList

end Slots
end ClassTree.Pool
