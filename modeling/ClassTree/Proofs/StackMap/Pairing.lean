import Mathlib.Data.List.Induction
import ClassTree.StackMap.Frame

namespace ClassTree.Frame

variable {κ ν : Type} {a b : List (VerificationType κ ν)} {type : VerificationType κ ν}

def Paired : List (VerificationType κ ν) → Prop
  | [] => True
  | type :: rest => (type.width = 2 → rest.head? = some .top) ∧ Paired rest

theorem paired_iff {types : List (VerificationType κ ν)} : Paired types ↔
    ∀ i type, types[i]? = some type → type.width = 2 → types[i + 1]? = some .top := by
  induction types with
  | nil => simp [Paired]
  | cons first rest ih =>
    rw [Paired, ih]
    constructor
    · rintro ⟨hfirst, hrest⟩ i type hi hw
      cases i with
      | zero =>
        obtain rfl : first = type := by simpa using hi
        simpa [List.head?_eq_getElem?] using hfirst hw
      | succ i => exact hrest i type (by simpa using hi) hw
    · intro h
      refine ⟨fun hw => ?_, fun i type hi hw => ?_⟩
      · simpa [List.head?_eq_getElem?] using h 0 first rfl hw
      · simpa using h (i + 1) type (by simpa using hi) hw

theorem paired_singleton (h : type.width ≠ 2) : Paired [type] :=
  ⟨fun hw => absurd hw h, trivial⟩

theorem Paired.append (ha : Paired a) (hb : Paired b) : Paired (a ++ b) := by
  induction a with
  | nil => exact hb
  | cons first rest ih =>
    refine ⟨fun hw => ?_, ih ha.2⟩
    have hr := ha.1 hw
    cases rest with
    | nil => cases hr
    | cons second rest => exact hr

theorem paired_replicate_top (n : Nat) :
    Paired (List.replicate n (.top : VerificationType κ ν)) := by
  induction n with
  | zero => trivial
  | succ n ih => exact ⟨nofun, ih⟩

theorem expand_cons (type : VerificationType κ ν) (types : List (VerificationType κ ν)) :
    expand (type :: types) = (if type.width = 2 then [type, .top] else [type]) ++ expand types :=
  List.flatMap_cons

theorem expand_append : expand (a ++ b) = expand a ++ expand b :=
  List.flatMap_append

theorem expand_replicate_top (n : Nat) :
    expand (List.replicate n (.top : VerificationType κ ν)) = List.replicate n .top := by
  induction n with
  | zero => rfl
  | succ n ih =>
    rw [List.replicate_succ, expand_cons, if_neg nofun, ih]
    rfl

theorem paired_expand (types : List (VerificationType κ ν)) : Paired (expand types) := by
  induction types with
  | nil => trivial
  | cons type types ih =>
    rw [expand_cons]
    split
    · exact ⟨fun _ => rfl, nofun, ih⟩
    · rename_i hw
      exact ⟨fun h => absurd h hw, ih⟩

theorem expand_compactOnto (found : List (VerificationType κ ν))
    {slots : List (VerificationType κ ν)} (h : Paired slots) :
    expand (compactOnto found slots) = expand found.reverse ++ slots := by
  fun_induction compactOnto found slots with
  | case1 found => simp
  | case2 found type =>
    have hw : type.width ≠ 2 := fun hw => by cases h.1 hw
    rw [List.reverse_cons, expand_append, expand_cons, if_neg hw]
    rfl
  | case3 found type next rest hw ih =>
    obtain rfl : next = .top := by simpa using h.1 hw
    rw [ih h.2.2, List.reverse_cons, expand_append, expand_cons, if_pos hw]
    simp [expand]
  | case4 found type next rest hw ih =>
    rw [ih h.2, List.reverse_cons, expand_append, expand_cons, if_neg hw]
    simp [expand]

/-- In slot form, nothing is lost in the compact form. -/
theorem expand_compact {slots : List (VerificationType κ ν)} (h : Paired slots) :
    expand (compact slots) = slots :=
  expand_compactOnto [] h

theorem compactOnto_expand (found types : List (VerificationType κ ν)) :
    compactOnto found (expand types) = found.reverse ++ types := by
  induction types generalizing found with
  | nil => simp [expand, compactOnto]
  | cons type types ih =>
    rw [expand_cons]
    split
    · rename_i hw
      change compactOnto found (type :: .top :: expand types) = _
      rw [compactOnto, if_pos hw, ih]
      simp
    · rename_i hw
      have hone : compactOnto found (type :: expand types) =
          compactOnto (type :: found) (expand types) := by
        cases expand types with
        | nil => rfl
        | cons next rest => rw [compactOnto, if_neg hw]
      rw [List.singleton_append, hone, ih]
      simp

/-- The compact form of a slot form is what the slot form was made from. -/
theorem compact_expand (types : List (VerificationType κ ν)) : compact (expand types) = types :=
  compactOnto_expand [] types

theorem isTop_iff : isTop type = true ↔ type = .top := by
  cases type <;> simp [isTop]

theorem trim_append_top (types : List (VerificationType κ ν)) :
    trim (types ++ [.top]) = trim types := by
  rw [trim, List.reverse_append]
  rfl

/-- Trimming cuts off nothing but `top` entries. -/
theorem exists_trim_append (types : List (VerificationType κ ν)) :
    ∃ n, types = trim types ++ List.replicate n .top := by
  induction types using List.reverseRecOn with
  | nil => exact ⟨0, rfl⟩
  | append_singleton types type ih =>
    by_cases ht : type = .top
    · subst ht
      obtain ⟨n, hn⟩ := ih
      refine ⟨n + 1, ?_⟩
      rw [trim_append_top, List.replicate_succ', ← List.append_assoc, ← hn]
    · refine ⟨0, ?_⟩
      have hf : isTop type = false := by
        rw [Bool.eq_false_iff, ne_eq, isTop_iff]
        exact ht
      simp [trim, hf]

theorem trim_of_ne_top {types : List (VerificationType κ ν)} (h : ∀ type ∈ types, type ≠ .top) :
    trim types = types := by
  obtain ⟨n, hn⟩ := exists_trim_append types
  cases n with
  | zero => exact (hn.trans (List.append_nil _)).symm
  | succ n => exact absurd rfl (h .top (hn ▸ by simp))

theorem trim_append_replicate (types : List (VerificationType κ ν)) (n : Nat) :
    trim (types ++ List.replicate n .top) = trim types := by
  induction n with
  | zero => simp
  | succ n ih =>
    rw [List.replicate_succ', ← List.append_assoc, trim_append_top, ih]

/-- The locals of a frame in slot form are those of its compact form, but for `top` entries. -/
theorem exists_localSlots_append {locals stack : List (VerificationType κ ν)} (h : Paired locals) :
    ∃ n, locals = (ofSlots locals stack).localSlots ++ List.replicate n .top := by
  obtain ⟨n, hn⟩ := exists_trim_append (compact locals)
  refine ⟨n, ?_⟩
  calc locals = expand (compact locals) := (expand_compact h).symm
    _ = expand (trim (compact locals) ++ List.replicate n .top) := by rw [← hn]
    _ = _ := by rw [expand_append, expand_replicate_top]; rfl

end ClassTree.Frame
