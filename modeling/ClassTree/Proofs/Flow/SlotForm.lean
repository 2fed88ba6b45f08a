import ClassTree.Proofs.Flow.Invariants

namespace ClassTree

namespace Frame

variable {κ ν : Type} {a b slots : List (VerificationType κ ν)} {type : VerificationType κ ν}

/-- Every `top` entry is the second half of the wide value before it. -/
def Halved (slots : List (VerificationType κ ν)) : Prop :=
  ∀ i, slots[i]? = some .top → ∃ j type, i = j + 1 ∧ slots[j]? = some type ∧ type.width = 2

theorem halved_nil : Halved ([] : List (VerificationType κ ν)) := by
  intro i hi
  cases hi

theorem Halved.append (ha : Halved a) (hb : Halved b) : Halved (a ++ b) := by
  intro i hi
  rw [List.getElem?_append] at hi
  split at hi
  · rename_i hlt
    obtain ⟨j, type, rfl, hj, hw⟩ := ha i hi
    exact ⟨j, type, rfl, by rw [List.getElem?_append_left (by omega), hj], hw⟩
  · rename_i hge
    obtain ⟨j, type, hij, hj, hw⟩ := hb _ hi
    refine ⟨a.length + j, type, by omega, ?_, hw⟩
    rw [List.getElem?_append_right (Nat.le_add_right _ _), Nat.add_sub_cancel_left, hj]

theorem halved_singleton (h : type ≠ .top) : Halved [type] := by
  intro i hi
  cases i with
  | zero => exact absurd (Option.some.inj hi) h
  | succ i => cases hi

theorem halved_wide (h : type.width = 2) : Halved [type, .top] := by
  intro i hi
  match i, hi with
  | 0, hi =>
    obtain rfl := Option.some.inj hi
    cases h
  | 1, _ => exact ⟨0, type, rfl, rfl, h⟩

/-- Slots, listed from the last one down, without the first `top` entries, but for the second half
of a wide value. -/
def dropSpare : List (VerificationType κ ν) → List (VerificationType κ ν)
  | .top :: type :: rest =>
    if type.width = 2 then .top :: type :: rest else dropSpare (type :: rest)
  | [.top] => []
  | slots => slots

/-- Slots without the `top` entries at the end that are no second half of a wide value. -/
def withoutSpare (slots : List (VerificationType κ ν)) : List (VerificationType κ ν) :=
  (dropSpare slots.reverse).reverse

theorem dropSpare_of_ne_top (h : type ≠ .top) (slots : List (VerificationType κ ν)) :
    dropSpare (type :: slots) = type :: slots := by
  cases type <;> first | rfl | exact absurd rfl h

/-- A `top` entry that follows slots in slot form is no second half. -/
theorem dropSpare_top (h : Paired slots) :
    dropSpare (.top :: slots.reverse) = dropSpare slots.reverse := by
  cases hr : slots.reverse with
  | nil => rfl
  | cons type rest =>
    obtain rfl : slots = rest.reverse ++ [type] := by
      rw [← List.reverse_cons, ← hr, List.reverse_reverse]
    have hw : type.width ≠ 2 := by
      intro hw
      have hnext := paired_iff.mp h rest.length type (by simp) hw
      simp at hnext
    rw [dropSpare, if_neg hw]

/-- The slots of a compact form end in spare entries exactly as far as the compact form does. -/
theorem withoutSpare_expand (types : List (VerificationType κ ν)) :
    withoutSpare (expand types) = expand (trim types) := by
  induction types using List.reverseRecOn with
  | nil => rfl
  | append_singleton types type ih =>
    rw [expand_append, withoutSpare, List.reverse_append]
    by_cases ht : type = .top
    · subst ht
      rw [trim_append_top, ← ih]
      exact congrArg List.reverse (dropSpare_top (paired_expand types))
    have htrim : trim (types ++ [type]) = types ++ [type] := by
      have hf : isTop type = false := by rwa [Bool.eq_false_iff, ne_eq, isTop_iff]
      simp [trim, hf]
    have hkeep : dropSpare ((expand [type]).reverse ++ (expand types).reverse) =
        (expand [type]).reverse ++ (expand types).reverse := by
      rw [expand_cons]
      split
      · rename_i hw
        change dropSpare (.top :: type :: (expand types).reverse) = _
        rw [dropSpare, if_pos hw]
        rfl
      · exact dropSpare_of_ne_top ht _
    rw [hkeep, ← List.reverse_append, List.reverse_reverse, htrim, expand_append]

/-- In slot form, the locals of the compact form are the locals without spare entries. -/
theorem localSlots_ofSlots {locals : List (VerificationType κ ν)} (h : Paired locals)
    (stack : List (VerificationType κ ν)) :
    (ofSlots locals stack).localSlots = withoutSpare locals := by
  calc (ofSlots locals stack).localSlots = expand (trim (compact locals)) := rfl
    _ = withoutSpare (expand (compact locals)) := (withoutSpare_expand _).symm
    _ = withoutSpare locals := by rw [expand_compact h]

theorem slotCount_eq_length_expand (types : List (VerificationType κ ν)) :
    slotCount types = (expand types).length := by
  induction types with
  | nil => rfl
  | cons type types ih =>
    rw [expand_cons, List.length_append, ← ih]
    cases type <;> rfl

/-- Spare entries are cut off, but not the second half of the wide value. -/
example : withoutSpare (κ := String) (ν := Nat) [.integer, .long, .top, .top, .top] =
    [.integer, .long, .top] := by
  decide

end Frame

namespace Flow

open ClassTree.Frame

variable {P : SlotType → Prop} {hierarchy : Hierarchy} {program : Program} {flow : TypeFlow}
  {i : Nat} {f : SlotFrame}

theorem Stacked.halved {stack : List SlotType} (h : Stacked P stack) : Halved stack.reverse := by
  induction h with
  | nil => exact halved_nil
  | narrow usable _ _ _ ih =>
    rw [List.reverse_cons]
    exact ih.append (halved_singleton usable)
  | wide width _ ih =>
    rw [List.reverse_cons, List.reverse_cons, List.append_assoc]
    exact ih.append (halved_wide width)

/-- A frame in slot form, on the stack of which every `top` entry is a second half, and the compact
form of which says as much as it does. -/
structure SlotForm (f : SlotFrame) : Prop where
  locals : Paired f.locals
  stack : Paired f.stack.reverse
  halves : Halved f.stack.reverse
  localSlots : f.toFrame.localSlots = withoutSpare f.locals
  stackSlots : expand f.toFrame.stack = f.stack.reverse
  height : slotCount f.toFrame.stack = f.stack.length

theorem WellFormed.slotForm (h : WellFormed P f) : SlotForm f where
  locals := h.locals
  stack := h.stack.paired
  halves := h.stack.halved
  localSlots := localSlots_ofSlots h.locals _
  stackSlots := expand_compact h.stack.paired
  height := by
    rw [slotCount_eq_length_expand, ← @List.length_reverse _ f.stack]
    exact congrArg List.length (expand_compact h.stack.paired)

/-- All frames that are computed are in slot form, and their compact forms lose nothing. -/
theorem computeTypes_slotForm (h : computeTypes hierarchy program = .ok flow) (hf : flow.At i f) :
    SlotForm f :=
  ((invariant_wellFormed hierarchy program).computeTypes h hf).slotForm

/-- Code that stores a copy of its argument where it cuts the argument in half. -/
def overlapping : Program where
  context := ⟨"Overlapping", "run", ⟨[.base .long], some (.base .long)⟩, true⟩
  code := #[.var .lload 0, .plain .dup2, .var .lstore 1, .plain .lreturn]
  positions := ∅
  handlers := []

def overlapped : SlotFrame :=
  ⟨[.top, .long, .top], [.top, .long]⟩

/-- The state in which given places wait, with the frames after the first one as they are known. -/
def overlappingState (maxStack maxLocals : Nat) (frames : Array (Option SlotFrame))
    (work : Worklist) : TypeState :=
  ⟨⟨#[some ⟨[.long, .top], []⟩] ++ frames, maxStack, maxLocals⟩, work⟩

theorem computeTypes_overlapping (hierarchy : Hierarchy) :
    computeTypes hierarchy overlapping = .ok (overlappingState 4 3
      #[some ⟨[.long, .top], [.top, .long]⟩, some ⟨[.long, .top], [.top, .long, .top, .long]⟩,
        some overlapped] (.empty 4)).flow := by
  have hpop : overlapping.start.pop =
    (some 0, overlappingState 0 2 #[none, none, none] (.empty 4)) := rfl
  have h₀ : TypeState.visit overlapping hierarchy ∅
      (overlappingState 0 2 #[none, none, none] (.empty 4)) 0 = .ok (overlappingState 2 2
        #[some ⟨[.long, .top], [.top, .long]⟩, none, none] ((Worklist.empty 4).push 1)) := rfl
  have h₁ : TypeState.visit overlapping hierarchy ∅ (overlappingState 2 2
        #[some ⟨[.long, .top], [.top, .long]⟩, none, none] (.empty 4)) 1 =
      .ok (overlappingState 4 2 #[some ⟨[.long, .top], [.top, .long]⟩,
        some ⟨[.long, .top], [.top, .long, .top, .long]⟩, none] ((Worklist.empty 4).push 2)) := rfl
  have h₂ : TypeState.visit overlapping hierarchy ∅ (overlappingState 4 2
        #[some ⟨[.long, .top], [.top, .long]⟩, some ⟨[.long, .top], [.top, .long, .top, .long]⟩,
          none] (.empty 4)) 2 =
      .ok (overlappingState 4 3 #[some ⟨[.long, .top], [.top, .long]⟩,
        some ⟨[.long, .top], [.top, .long, .top, .long]⟩, some overlapped]
        ((Worklist.empty 4).push 3)) := rfl
  exact computeTypes_of_drains rfl (by decide : [0, 1, 2, 3].length ≤ 4 + 1)
    (.visit hpop h₀ (.visit rfl h₁ (.visit rfl h₂ (.visit rfl rfl (.done rfl)))))

/-- The argument is gone, and its slot is left in front of those of its copy. -/
theorem overlapped_slotForm :
    overlapped.toFrame.localSlots = [.top, .long, .top] ∧ SlotForm overlapped :=
  ⟨rfl, computeTypes_slotForm (computeTypes_overlapping .library) (i := 3) rfl⟩

end Flow
end ClassTree
