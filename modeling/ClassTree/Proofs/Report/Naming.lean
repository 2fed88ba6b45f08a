import Mathlib.Data.List.Perm.Basic
import ClassTree.Proofs.Descriptor.Reading
import ClassTree.Report.Naming

namespace ClassTree

/-- What comes before all the rest in strict order stands first in any list that is sorted. -/
theorem exists_append_of_sorted {α : Type} {key : α → Nat} {first rest sorted : List α}
    (hs : sorted.Pairwise (key · ≤ key ·)) (hp : sorted.Perm (first ++ rest))
    (hf : first.Pairwise (key · < key ·)) (hr : ∀ x ∈ first, ∀ y ∈ rest, key x < key y) :
    ∃ last, sorted = first ++ last := by
  induction first generalizing sorted with
  | nil => exact ⟨sorted, rfl⟩
  | cons x first ih =>
    obtain ⟨hx, hfirst⟩ := List.pairwise_cons.mp hf
    have hleast : ∀ y ∈ first ++ rest, key x < key y := by
      intro y hy
      rcases List.mem_append.mp hy with hy | hy
      · exact hx y hy
      · exact hr x List.mem_cons_self y hy
    cases sorted with
    | nil => exact absurd hp.length_eq (by simp)
    | cons y sorted =>
      obtain ⟨hy, hsorted⟩ := List.pairwise_cons.mp hs
      obtain rfl : y = x := by
        by_contra hne
        have hlt :=
          hleast y ((List.mem_cons.mp (hp.mem_iff.mp List.mem_cons_self)).resolve_left hne)
        have hle := hy x
          ((List.mem_cons.mp (hp.mem_iff.mpr List.mem_cons_self)).resolve_left (Ne.symm hne))
        omega
      obtain ⟨last, rfl⟩ := ih hsorted (List.perm_cons y |>.mp hp) hfirst
        fun z hz => hr z (List.mem_cons_of_mem _ hz)
      exact ⟨last, rfl⟩

namespace MethodType

/-- Slots of the values of some types, one after the other from a slot on. -/
def slotsFrom (slot : Nat) : List FieldType → List Nat
  | [] => []
  | type :: rest => slot :: slotsFrom (slot + type.width) rest

def slots (type : MethodType) (receiver : Bool) : List Nat :=
  slotsFrom (if receiver then 1 else 0) type.parameters

theorem length_slotsFrom (slot : Nat) (types : List FieldType) :
    (slotsFrom slot types).length = types.length := by
  induction types generalizing slot with
  | nil => rfl
  | cons type types ih => rw [slotsFrom, List.length_cons, List.length_cons, ih]

theorem width_pos (type : FieldType) : 0 < type.width := by
  rcases type with ⟨_ | _⟩ | _ <;> exact Nat.succ_pos _

/-- Later values have higher slots, and all are below the one after the last. -/
theorem slotsFrom_ascend (slot : Nat) (types : List FieldType) :
    (slotsFrom slot types).Pairwise (· < ·) ∧
      ∀ n ∈ slotsFrom slot types, slot ≤ n ∧ n < slot + types.foldr (·.width + ·) 0 := by
  induction types generalizing slot with
  | nil => exact ⟨.nil, nofun⟩
  | cons type types ih =>
    obtain ⟨hpairs, hbounds⟩ := ih (slot + type.width)
    have hpos := width_pos type
    refine ⟨List.pairwise_cons.mpr ⟨fun n hn => ?_, hpairs⟩, fun n hn => ?_⟩
    · have := (hbounds n hn).1
      omega
    · rw [List.foldr_cons]
      rcases List.mem_cons.mp hn with rfl | hn
      · omega
      · have := hbounds n hn
        omega

end MethodType

namespace Method

variable {method : Method} {type : MethodType}
  {receiver parameters others table : List LocalVariable}

/-- A table, in any order, of the receiver, if there is one, of the parameters in their slots, and
of variables that have slots after those. -/
structure Tabulates (method : Method) (type : MethodType)
    (receiver parameters others table : List LocalVariable) : Prop where
  perm : table.Perm (receiver ++ parameters ++ others)
  receiver : receiver.map (·.slot.toNat) = if method.isStatic then [] else [0]
  parameters : parameters.map (·.slot.toNat) = type.slots (!method.isStatic)
  others : ∀ entry ∈ others, type.parameterSlots (!method.isStatic) ≤ entry.slot.toNat

theorem variablesBySlot_perm (table : List LocalVariable) : (variablesBySlot table).Perm table :=
  List.mergeSort_perm _ _

theorem variablesBySlot_sorted (table : List LocalVariable) :
    (variablesBySlot table).Pairwise fun entry₁ entry₂ =>
      entry₁.slot.toNat ≤ entry₂.slot.toNat := by
  refine (List.pairwise_mergeSort ?_ ?_ table).imp fun h => ?_
  · intro a b c hab hbc
    simp only [decide_eq_true_eq] at hab hbc ⊢
    exact UInt16.le_trans hab hbc
  · intro a b
    simp only [Bool.or_eq_true, decide_eq_true_eq]
    exact UInt16.le_total _ _
  · simpa [UInt16.le_iff_toNat_le] using h

namespace Tabulates

variable (h : Tabulates method type receiver parameters others table)
include h

theorem length_receiver : receiver.length = if method.isStatic then 0 else 1 := by
  rw [← List.length_map (·.slot.toNat), h.receiver]
  split <;> rfl

theorem length_parameters : parameters.length = type.parameters.length := by
  rw [← List.length_map (·.slot.toNat), h.parameters, MethodType.slots,
    MethodType.length_slotsFrom]

/-- The slots of the receiver and the parameters ascend, and stay below those of the others. -/
theorem ascend : (receiver ++ parameters).Pairwise (·.slot.toNat < ·.slot.toNat) ∧
    ∀ x ∈ receiver ++ parameters, ∀ y ∈ others, x.slot.toNat < y.slot.toNat := by
  obtain ⟨hpairs, hbounds⟩ :=
    MethodType.slotsFrom_ascend (if !method.isStatic then 1 else 0) type.parameters
  rw [← MethodType.slots, ← h.parameters] at hpairs hbounds
  have hfirst : ∀ x ∈ receiver, x.slot.toNat < if !method.isStatic then 1 else 0 := by
    intro x hx
    have hm := List.mem_map_of_mem (f := (·.slot.toNat)) hx
    rw [h.receiver] at hm
    cases hs : method.isStatic <;> simp_all
  have hparameter : ∀ x ∈ parameters, (if !method.isStatic then 1 else 0) ≤ x.slot.toNat ∧
      x.slot.toNat < type.parameterSlots (!method.isStatic) :=
    fun x hx => hbounds _ (List.mem_map_of_mem hx)
  refine ⟨List.pairwise_append.mpr ⟨?_, List.pairwise_map.mp hpairs, fun x hx y hy => ?_⟩,
    fun x hx y hy => ?_⟩
  · have hmap := h.receiver
    split at hmap
    · rw [List.map_eq_nil_iff.mp hmap]
      exact .nil
    · obtain ⟨this, rfl, -⟩ := List.map_eq_singleton_iff.mp hmap
      exact List.pairwise_singleton _ _
  · exact Nat.lt_of_lt_of_le (hfirst x hx) (hparameter y hy).1
  · refine Nat.lt_of_lt_of_le ?_ (h.others y hy)
    rcases List.mem_append.mp hx with hx | hx
    · exact Nat.lt_of_lt_of_le (hfirst x hx) (Nat.le_add_right _ _)
    · exact (hparameter x hx).2

theorem namesFromVariables? :
    namesFromVariables? method.isStatic type.parameters.length table =
      some (parameters.map LocalVariable.name) := by
  obtain ⟨hpairs, hbelow⟩ := h.ascend
  obtain ⟨last, hlast⟩ := exists_append_of_sorted (variablesBySlot_sorted table)
    ((variablesBySlot_perm table).trans h.perm) hpairs hbelow
  have hlen := h.perm.length_eq
  rw [List.length_append, List.length_append, h.length_parameters, h.length_receiver] at hlen
  rw [Method.namesFromVariables?, if_pos (by omega), hlast, List.append_assoc,
    ← h.length_receiver, List.drop_left, ← h.length_parameters, List.take_left]

end Tabulates

theorem length_of_namesFromVariables? {isStatic : Bool} {count : Nat} {names : List String}
    (h : Method.namesFromVariables? isStatic count table = some names) : names.length = count := by
  simp only [Method.namesFromVariables?] at h
  generalize (if isStatic then 0 else 1) = skipped at h
  split at h
  · rename_i hlen
    obtain rfl := Option.some.inj h
    have := (variablesBySlot_perm table).length_eq
    simp only [List.length_map, List.length_take, List.length_drop]
    omega
  · cases h

theorem length_parameterNames (ht : method.type? = .ok type) :
    method.parameterNames.length = type.parameters.length := by
  simp only [parameterNames, ht]
  cases hn : method.localVariables.bind
      (Method.namesFromVariables? method.isStatic type.parameters.length) with
  | none => exact List.length_map _
  | some names =>
    obtain ⟨table, -, hnames⟩ := Option.bind_eq_some_iff.mp hn
    exact length_of_namesFromVariables? hnames

/-- There is a name for each parameter. If the variables of the parameters are all in the table, in
whatever order and however wide they are, and no others between them, then theirs are the names. -/
theorem parameterNames_eq_variables (ht : method.type? = .ok type) :
    method.parameterNames.length = type.parameters.length ∧
      ∀ receiver parameters others table, method.localVariables = some table →
        Tabulates method type receiver parameters others table →
        method.parameterNames = parameters.map LocalVariable.name := by
  refine ⟨length_parameterNames ht, fun receiver parameters others table htable h => ?_⟩
  simp only [parameterNames, ht, htable, Option.bind_some, h.namesFromVariables?,
    Option.getD_some]

namespace Scaling

def inSlot (slot : UInt16) (name descriptor : String) : LocalVariable :=
  ⟨name, descriptor, none, ⟨0⟩, ⟨1⟩, slot⟩

/-- Method of an object that takes a `long` and then an `int`, with its variables in no order. -/
def scale : Method :=
  { Method.declared (.ofBits .ofMethod 1) "scale" "(JI)V" with
    localVariables := some [inSlot 4 "i" "I", inSlot 3 "factor" "I", inSlot 0 "this" "LScaling;",
      inSlot 1 "size" "J"] }

theorem scale_type : scale.type? = .ok ⟨[.base .long, .base .int], none⟩ :=
  MethodType.scan_inverts.complete_eq_ok.mpr rfl

theorem scale_tabulates : Tabulates scale ⟨[.base .long, .base .int], none⟩
    [inSlot 0 "this" "LScaling;"] [inSlot 1 "size" "J", inSlot 3 "factor" "I"] [inSlot 4 "i" "I"]
    [inSlot 4 "i" "I", inSlot 3 "factor" "I", inSlot 0 "this" "LScaling;", inSlot 1 "size" "J"]
      where
  perm := by decide
  receiver := rfl
  parameters := rfl
  others := by decide

/-- The wide parameter does not shift the name of the one after it. -/
theorem scale_parameterNames : scale.parameterNames = ["size", "factor"] :=
  (parameterNames_eq_variables scale_type).2 _ _ _ _ rfl scale_tabulates

end Scaling

end Method
end ClassTree
