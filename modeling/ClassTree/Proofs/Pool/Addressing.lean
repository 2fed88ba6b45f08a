import ClassTree.Proofs.Pool.Requests
import Mathlib.Data.List.Induction

namespace ClassTree.Pool

namespace Slots

variable {α : Type} {start place i : Nat} {pushes : List (Bool × α)} {element : α}

/-- The sequence that some elements have been added to, those that are wide being marked. -/
def pushed (start : Nat) (pushes : List (Bool × α)) : Slots α :=
  pushes.foldl (fun slots push => slots.push push.1 push.2) (empty start)

def taken : List (Bool × α) → Nat
  | [] => 0
  | (wide, _) :: pushes => (if wide then 2 else 1) + taken pushes

/-- The place that was next when the element at an index was added. -/
def placeOf (start : Nat) (pushes : List (Bool × α)) (i : Nat) : Nat :=
  (pushed start (pushes.take i)).next

theorem pushed_concat (start : Nat) (pushes : List (Bool × α)) (push : Bool × α) :
    pushed start (pushes ++ [push]) = (pushed start pushes).push push.1 push.2 :=
  List.foldl_concat ..

theorem next_pushed (start : Nat) (pushes : List (Bool × α)) :
    (pushed start pushes).next = start + taken pushes := by
  suffices h : ∀ slots : Slots α,
      (pushes.foldl (fun slots push => slots.push push.1 push.2) slots).next =
        slots.next + taken pushes from h (empty start)
  induction pushes with
  | nil => exact fun _ => rfl
  | cons push pushes ih =>
    intro slots
    rw [List.foldl_cons, ih, next_push, taken, Nat.add_assoc]

theorem start_pushed (start : Nat) (pushes : List (Bool × α)) :
    (pushed start pushes).start = start := by
  induction pushes using List.reverseRecOn with
  | nil => rfl
  | append_singleton pushes push ih => rw [pushed_concat, Slots.push, ih]

theorem size_pushed (start : Nat) (pushes : List (Bool × α)) :
    (pushed start pushes).entries.size = pushes.length := by
  induction pushes using List.reverseRecOn with
  | nil => rfl
  | append_singleton pushes push ih => simp [pushed_concat, Slots.push, ih]

/-- Elements stand in the order in which they were added, at the places that were next. -/
theorem entries_pushed (start : Nat) (pushes : List (Bool × α)) (i : Nat) :
    (pushed start pushes).entries[i]? =
      pushes[i]?.map fun push => (placeOf start pushes i, push.2) := by
  induction pushes using List.reverseRecOn with
  | nil => rfl
  | append_singleton pushes push ih =>
    rw [pushed_concat, Slots.push, Array.getElem?_push, size_pushed]
    split
    · rename_i he
      simp [he, placeOf]
    · rename_i hne
      rw [ih]
      rcases Nat.lt_or_ge i pushes.length with hlt | hge
      · rw [List.getElem?_append_left hlt, placeOf, placeOf,
          List.take_append_of_le_length (Nat.le_of_lt hlt)]
      · have hout : (pushes ++ [push]).length ≤ i := by
          rw [List.length_append]
          exact Nat.lt_of_le_of_ne hge (Ne.symm hne)
        rw [List.getElem?_eq_none hge, List.getElem?_eq_none hout]
        rfl

theorem placeOf_succ {wide : Bool} (h : pushes[i]? = some (wide, element)) :
    placeOf start pushes (i + 1) = placeOf start pushes i + if wide then 2 else 1 := by
  rw [placeOf, List.take_add_one, h, Option.toList_some, pushed_concat, next_push, placeOf]

theorem placeOf_length (start : Nat) (pushes : List (Bool × α)) :
    placeOf start pushes pushes.length = (pushed start pushes).next := by
  rw [placeOf, List.take_length]

/-- An element keeps those after it off the places that it takes. -/
theorem placeOf_le (start : Nat) {wide : Bool} (h : pushes[i]? = some (wide, element)) {j : Nat}
    (hij : i < j) (hj : j ≤ pushes.length) :
    placeOf start pushes i + (if wide then 2 else 1) ≤ placeOf start pushes j := by
  induction hij with
  | refl => exact Nat.le_of_eq (placeOf_succ h).symm
  | @step j _ ih =>
    have hnext : pushes[j]? = some pushes[j] := List.getElem?_eq_getElem hj
    refine Nat.le_trans (ih (Nat.le_of_succ_le hj)) ?_
    rw [placeOf_succ hnext]
    exact Nat.le_add_right _ _

theorem lookup_pushed : (pushed start pushes).lookup place = .element i element ↔
    ∃ wide, pushes[i]? = some (wide, element) ∧ placeOf start pushes i = place := by
  rw [lookup_eq_element, entries_pushed]
  constructor
  · intro h
    obtain ⟨⟨wide, found⟩, hp, he⟩ := Option.map_eq_some_iff.mp h
    obtain ⟨hplace, rfl⟩ := Prod.mk.inj he
    exact ⟨wide, hp, hplace⟩
  · rintro ⟨wide, hp, rfl⟩
    rw [hp]
    rfl

/-- Elements take all places from the first to the next one. -/
theorem exists_taking (hstart : start ≤ place) (hnext : place < (pushed start pushes).next) :
    ∃ i wide element, pushes[i]? = some (wide, element) ∧
      (placeOf start pushes i = place ∨ wide = true ∧ placeOf start pushes i + 1 = place) := by
  induction pushes using List.reverseRecOn with
  | nil => exact absurd hstart (Nat.not_le.mpr hnext)
  | append_singleton pushes push ih =>
    obtain ⟨wide, element⟩ := push
    rcases Nat.lt_or_ge place (pushed start pushes).next with hlt | hge
    · obtain ⟨i, wide, element, hi, hplace⟩ := ih hlt
      have hlen := (List.getElem?_eq_some_iff.mp hi).1
      refine ⟨i, wide, element, by rw [List.getElem?_append_left hlen, hi], ?_⟩
      rwa [placeOf, List.take_append_of_le_length (Nat.le_of_lt hlen)]
    · refine ⟨pushes.length, wide, element, List.getElem?_concat_length .., ?_⟩
      rw [placeOf, List.take_left]
      rw [pushed_concat, next_push] at hnext
      cases wide with
      | false => exact .inl (by simp at hnext; omega)
      | true => simp at hnext ⊢; omega

/-- Nothing is found before the first place, from the next one on, and at the second places of wide
elements. -/
theorem lookup_pushed_ne : (∀ i element, (pushed start pushes).lookup place ≠ .element i element) ↔
    place < start ∨ (pushed start pushes).next ≤ place ∨
      ∃ i element, pushes[i]? = some (true, element) ∧ placeOf start pushes i + 1 = place := by
  constructor
  · intro h
    by_contra hnone
    obtain ⟨hstart, hnext, hsecond⟩ : start ≤ place ∧ place < (pushed start pushes).next ∧
        ¬ ∃ i element, pushes[i]? = some (true, element) ∧ placeOf start pushes i + 1 = place := by
      simpa only [not_or, Nat.not_lt, Nat.not_le] using hnone
    obtain ⟨i, wide, element, hi, hplace | ⟨rfl, hplace⟩⟩ := exists_taking hstart hnext
    · exact h i element (lookup_pushed.mpr ⟨wide, hi, hplace⟩)
    · exact hsecond ⟨i, element, hi, hplace⟩
  · intro h j found hfound
    obtain ⟨hle, hlt⟩ := bounds_of_get? (get?_eq_some_iff_lookup.mpr ⟨j, hfound⟩)
    obtain ⟨wide, hj, hplace⟩ := lookup_pushed.mp hfound
    rw [start_pushed] at hle
    rcases h with hbefore | hafter | ⟨i, element, hi, hsecond⟩
    · omega
    · omega
    · have hlti := (List.getElem?_eq_some_iff.mp hi).1
      have hltj := (List.getElem?_eq_some_iff.mp hj).1
      rcases Nat.lt_trichotomy i j with hij | rfl | hji
      · have := placeOf_le start hi hij (Nat.le_of_lt hltj)
        rw [if_pos rfl] at this
        omega
      · omega
      · have := placeOf_le start hj hji (Nat.le_of_lt hlti)
        split at this <;> omega

end Slots
namespace Constants

/-- Constants, and the indices that were given out for them when they were added, while there were
indices left. -/
inductive Issued : Constants → List (Index × Constant) → Prop
  | empty : Issued .empty []
  | add {constants : Constants} {issued : List (Index × Constant)} {constant : Constant}
      (h : Issued constants issued) (room : constants.next + constant.width ≤ 0x10000) :
      Issued (constants.add constant)
        (issued ++ [(UInt16.ofNat constants.next, constant)])

variable {constants result : Constants} {issued : List (Index × Constant)} {constant : Constant}
  {index : Index}

theorem Issued.next_le (h : constants.Issued issued) : constants.next ≤ 0x10000 := by
  cases h with
  | empty => decide
  | add _ room => exact room

/-- An index is the place of its constant. -/
theorem Issued.entries (h : constants.Issued issued) :
    issued.map (fun entry => (entry.1.toNat, entry.2)) = constants.entries.toList := by
  induction h with
  | empty => rfl
  | @add constants issued constant h room ih =>
    have hlt : constants.next < 0x10000 := by
      unfold Constant.width at room
      split at room <;> omega
    rw [List.map_append, ih, Constants.add, Slots.entries_push, List.map_singleton,
      UInt16.toNat_ofNat_of_lt' hlt]

theorem Issued.get?_eq_some (h : constants.Issued issued) :
    constants.get? index.toNat = some constant ↔ (index, constant) ∈ issued := by
  rw [Slots.get?_eq_some, ← h.entries, List.mem_map]
  constructor
  · rintro ⟨⟨other, found⟩, hm, he⟩
    obtain ⟨hindex, rfl⟩ := Prod.mk.inj he
    rwa [← UInt16.toNat_inj.mp hindex]
  · exact fun hm => ⟨_, hm, rfl⟩

theorem pushed_of_built (h : constants.Built) :
    constants =
      Slots.pushed 1 (constants.toList.map fun constant => (constant.isWide, constant)) := by
  rw [Slots.pushed, List.foldl_map]
  exact h

theorem Issued.built (h : constants.Issued issued) : constants.Built := by
  induction h with
  | empty => exact built_empty
  | add _ _ ih => exact ih.add _

/-- Nothing is found at the index after that of a wide constant. -/
theorem Issued.get?_second (h : constants.Issued issued) (hm : (index, constant) ∈ issued)
    (hwide : constant.isWide = true) :
    index.toNat + 1 < 0x10000 ∧ constants.get? (index.toNat + 1) = none := by
  obtain ⟨i, hlookup⟩ := Slots.get?_eq_some_iff_lookup.mp (h.get?_eq_some.mpr hm)
  have hnext := h.next_le
  rw [pushed_of_built h.built] at hlookup hnext ⊢
  obtain ⟨wide, hi, hplace⟩ := Slots.lookup_pushed.mp hlookup
  obtain rfl : wide = true := by
    obtain ⟨found, -, he⟩ := Option.map_eq_some_iff.mp (List.getElem?_map ▸ hi)
    obtain ⟨rfl, rfl⟩ := Prod.mk.inj he
    exact hwide
  have htakes := Slots.placeOf_le 1 hi (List.getElem?_eq_some_iff.mp hi).1 (Nat.le_refl _)
  rw [Slots.placeOf_length, if_pos rfl] at htakes
  refine ⟨by omega, Option.eq_none_iff_forall_ne_some.mpr fun found hfound => ?_⟩
  obtain ⟨j, hj⟩ := Slots.get?_eq_some_iff_lookup.mp hfound
  exact Slots.lookup_pushed_ne.mpr (.inr (.inr ⟨i, constant, hi, by rw [hplace]⟩)) j found hj

/-- Reading gives indices out one after the other. -/
theorem Issued.readFrom {count : Nat} {cursor cursor' : Cursor} (h : constants.Issued issued)
    (hcount : count ≤ 0xFFFF)
    (hr : (Constants.readFrom count constants).run cursor = .ok (result, cursor')) :
    ∃ issued', result.Issued issued' := by
  fun_induction Constants.readFrom count constants generalizing cursor issued with
  | case1 constants hlt ih =>
    obtain ⟨constant, middle, -, hr⟩ := run_bind_eq_ok.mp hr
    have hroom : constants.next + constant.width ≤ 0x10000 := by
      unfold Constant.width
      split <;> omega
    exact ih constant (h.add hroom) hr
  | case2 constants hge =>
    cases hr
    exact ⟨issued, h⟩

end Constants

theorem Builder.Reachable.issued {b : Builder} (h : b.Reachable) :
    ∃ issued, b.constants.Issued issued := by
  induction h with
  | empty => exact ⟨[], .empty⟩
  | seeded read =>
    obtain ⟨count, middle, -, hr⟩ := run_bind_eq_ok.mp read
    exact Constants.Issued.empty.readFrom (Nat.le_of_lt_succ count.toNat_lt) hr
  | add _ _ room ih =>
    obtain ⟨issued, hissued⟩ := ih
    exact ⟨_, hissued.add (Nat.le_succ_of_le (of_decide_eq_true room))⟩
  | addBootstrap _ _ ih => exact ih

theorem Table.get_eq_error {table : Table} {index : Index}
    (h : table.constants.get? index.toNat = none) :
    table.get index = .error (.malformed (.badConstantIndex index "constant")) := by
  rw [get, h]

/-- Whatever is added from whatever start, an element is found at the place that it was given, and
nothing at any other place: before the start, within a wide element, or at the end. The indices of a
pool that it has given out are resolved, those after a wide constant are not, and no others are. -/
theorem lookup_issued {α : Type} (start : Nat) (pushes : List (Bool × α)) :
    (Slots.pushed start pushes).next = start + Slots.taken pushes ∧
    (∀ place i element, (Slots.pushed start pushes).lookup place = .element i element ↔
      ∃ wide, pushes[i]? = some (wide, element) ∧ Slots.placeOf start pushes i = place) ∧
    (∀ place, (∀ i element, (Slots.pushed start pushes).lookup place ≠ .element i element) ↔
      place < start ∨ (Slots.pushed start pushes).next ≤ place ∨
        ∃ i element, pushes[i]? = some (true, element) ∧
          Slots.placeOf start pushes i + 1 = place) ∧
    ∀ b : Builder, b.Reachable → ∃ issued, Constants.Issued b.constants issued ∧
      (∀ index constant, b.table.get index = .ok constant ↔ (index, constant) ∈ issued) ∧
      (∀ index, (∀ constant, (index, constant) ∉ issued) →
        b.table.get index = .error (.malformed (.badConstantIndex index "constant"))) ∧
      (∀ index constant, (index, constant) ∈ issued → constant.isWide = true →
        (index + 1).toNat = index.toNat + 1 ∧
        b.table.get (index + 1) = .error (.malformed (.badConstantIndex (index + 1) "constant"))) ∧
      ∀ constant index b', Build.Yields (Build.constant constant) b index b' →
        (b' = b ∧ (index, constant) ∈ issued) ∨
          Constants.Issued b'.constants (issued ++ [(index, constant)]) := by
  refine ⟨Slots.next_pushed start pushes, fun _ _ _ => Slots.lookup_pushed,
    fun _ => Slots.lookup_pushed_ne, fun b hb => ?_⟩
  obtain ⟨issued, hissued⟩ := hb.issued
  have hget : ∀ {index constant}, b.table.get index = .ok constant ↔ (index, constant) ∈ issued :=
    Table.get_eq_ok.trans hissued.get?_eq_some
  refine ⟨issued, hissued, fun _ _ => hget, fun index hnone => ?_,
    fun index constant hm hwide => ?_, fun constant index b' hy => ?_⟩
  · refine Table.get_eq_error (Option.eq_none_iff_forall_ne_some.mpr fun constant hfound => ?_)
    exact hnone constant (hissued.get?_eq_some.mp hfound)
  · obtain ⟨hlt, hsecond⟩ := hissued.get?_second hm hwide
    have hnext : (index + 1).toNat = index.toNat + 1 := by
      rw [UInt16.toNat_add]
      exact Nat.mod_eq_of_lt hlt
    exact ⟨hnext, Table.get_eq_error (by rw [hnext]; exact hsecond)⟩
  · unfold Build.Yields at hy
    rcases Build.exec_constant constant b with ⟨i, hi, he⟩ | ⟨-, hroom, he⟩ | ⟨-, he⟩
    · obtain ⟨rfl, rfl⟩ : i = index ∧ b = b' := by simpa [he] using hy
      exact .inl ⟨rfl, hissued.get?_eq_some.mp (hb.sound.indices hi)⟩
    · obtain ⟨rfl, rfl⟩ : (b.add constant).1 = index ∧ (b.add constant).2 = b' := by
        simpa [he] using hy
      exact .inr (hissued.add (Nat.le_succ_of_le (of_decide_eq_true hroom)))
    · simp [he] at hy

/-- In a pool with a number of two places, the index after it is not resolved. -/
theorem Doubled.lookup_table : (Builder.ofTable table).Reachable ∧
    table.get 3 = .ok (.long 5) ∧
    table.get 4 = .error (.malformed (.badConstantIndex 4 "constant")) := by
  have hreachable := initial.reachable
  obtain ⟨-, -, -, hpools⟩ := lookup_issued 0 [(true, 'a')]
  obtain ⟨issued, -, hget, -, hsecond, -⟩ := hpools _ hreachable
  have hlong : (Builder.ofTable table).table.get 3 = .ok (.long 5) :=
    Table.get_eq_ok.mpr (by decide +kernel)
  exact ⟨hreachable, hlong, (hsecond 3 (.long 5) ((hget _ _).mp hlong) rfl).2⟩

end ClassTree.Pool
