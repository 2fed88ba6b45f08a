import ClassTree.Proofs.Pool.Building

namespace ClassTree.Pool

def firstIndex? {κ : Type} [BEq κ] (entries : List (κ × Nat)) (key : κ) : Option UInt16 :=
  (entries.find? (·.1 == key)).map fun entry => UInt16.ofNat entry.2

theorem firstIndex?_append {κ : Type} [BEq κ] (entries : List (κ × Nat)) (key last : κ)
    (place : Nat) :
    firstIndex? (entries ++ [(last, place)]) key =
      (firstIndex? entries key).or (if last == key then some (UInt16.ofNat place) else none) := by
  unfold firstIndex?
  rw [List.find?_append, Option.map_or, List.find?_singleton]
  split <;> rfl

/-- Inserting what is new leaves each key with its first number. -/
theorem getElem?_foldl_insertIfNew {κ : Type} [BEq κ] [LawfulBEq κ] [Hashable κ]
    (entries : List (κ × Nat)) (map : Std.HashMap κ UInt16) (key : κ) :
    (entries.foldl (fun map entry => map.insertIfNew entry.1 (UInt16.ofNat entry.2)) map)[key]? =
      map[key]?.or (firstIndex? entries key) := by
  induction entries generalizing map with
  | nil => exact (Option.or_none).symm
  | cons entry entries ih =>
    rw [List.foldl_cons, ih, Std.HashMap.getElem?_insertIfNew, firstIndex?, firstIndex?,
      List.find?_cons]
    cases hk : entry.1 == key with
    | false => simp
    | true =>
      obtain rfl := eq_of_beq hk
      by_cases hm : entry.1 ∈ map
      · simp [hm]
      · simp [hm]

namespace Builder

variable {b : Builder}

def constantPlaces (b : Builder) : List (Constant × Nat) :=
  b.constants.placed.map Prod.swap

def bootstrapPlaces (b : Builder) : List (BootstrapMethod × Nat) :=
  b.bootstrap.toList.zipIdx

theorem getElem?_indices_ofTable (table : Table) (constant : Constant) :
    (Builder.ofTable table).indices[constant]? =
      firstIndex? (Builder.ofTable table).constantPlaces constant := by
  have hfold : (Builder.ofTable table).indices =
      (Builder.ofTable table).constantPlaces.foldl
        (fun map entry => map.insertIfNew entry.1 (UInt16.ofNat entry.2)) ∅ := by
    rw [constantPlaces, List.foldl_map]
    rfl
  rw [hfold, getElem?_foldl_insertIfNew, Std.HashMap.getElem?_empty, Option.none_or]

theorem getElem?_bootstrapIndices_ofTable (table : Table) (entry : BootstrapMethod) :
    (Builder.ofTable table).bootstrapIndices[entry]? =
      firstIndex? (Builder.ofTable table).bootstrapPlaces entry := by
  refine (getElem?_foldl_insertIfNew _ ∅ entry).trans ?_
  rw [Std.HashMap.getElem?_empty, Option.none_or]
  rfl

/-- What is in the table is found. -/
theorem yields_constant_ofTable {table : Table} {constant : Constant} {index : Index}
    (h : firstIndex? (Builder.ofTable table).constantPlaces constant = some index) :
    Build.Yields (Build.constant constant) (.ofTable table) index (.ofTable table) := by
  have hi : (Builder.ofTable table).indices[constant]? = some index :=
    (getElem?_indices_ofTable table constant).trans h
  unfold Build.Yields Build.exec Build.constant
  rw [hi]

theorem yields_classRef_ofTable {table : Table} {name : String} {index : Index} (text : Index)
    (ht : firstIndex? (Builder.ofTable table).constantPlaces (.utf8 name) = some text)
    (h : firstIndex? (Builder.ofTable table).constantPlaces (.classRef text) = some index) :
    Build.Yields (Build.classRef name) (.ofTable table) index (.ofTable table) :=
  Build.yields_bind.mpr
    ⟨text, .ofTable table, yields_constant_ofTable ht, yields_constant_ofTable h⟩

/-- A pool knows the first index of everything in it. -/
theorem Reachable.indices_eq (h : b.Reachable) (constant : Constant) :
    b.indices[constant]? = firstIndex? b.constantPlaces constant := by
  induction h generalizing constant with
  | empty => exact Std.HashMap.getElem?_empty
  | seeded => exact getElem?_indices_ofTable _ _
  | @add b new _ hnew _ ih =>
    have hplaces :
        (b.add new).2.constantPlaces = b.constantPlaces ++ [(new, b.constants.next)] := by
      simp [constantPlaces, Builder.add, Constants.add, Slots.placed]
    rw [hplaces, firstIndex?_append, ← ih]
    change (b.indices.insert new _)[constant]? = _
    rw [Std.HashMap.getElem?_insert]
    split
    · rename_i hk
      obtain rfl := eq_of_beq hk
      rw [hnew]
      rfl
    · exact (Option.or_none).symm
  | addBootstrap _ _ ih => exact ih constant

theorem Reachable.bootstrapIndices_eq (h : b.Reachable) (entry : BootstrapMethod) :
    b.bootstrapIndices[entry]? = firstIndex? b.bootstrapPlaces entry := by
  induction h generalizing entry with
  | empty => exact Std.HashMap.getElem?_empty
  | seeded => exact getElem?_bootstrapIndices_ofTable _ _
  | add _ _ _ ih => exact ih entry
  | @addBootstrap b new _ hnew ih =>
    have hplaces : (b.addBootstrap new).2.bootstrapPlaces =
        b.bootstrapPlaces ++ [(new, b.bootstrap.size)] := by
      simp [bootstrapPlaces, Builder.addBootstrap, List.zipIdx_append]
    rw [hplaces, firstIndex?_append, ← ih]
    change (b.bootstrapIndices.insert new _)[entry]? = _
    rw [Std.HashMap.getElem?_insert]
    split
    · rename_i hk
      obtain rfl := eq_of_beq hk
      rw [hnew]
      rfl
    · exact (Option.or_none).symm

/-- Everything in a pool is at the same indices in a pool that is seeded with its table. -/
theorem Reachable.within_ofTable (h : b.Reachable) : b.Within (.ofTable b.table) where
  constants := id
  bootstrap := id
  indices := fun {constant _} hi =>
    ((getElem?_indices_ofTable b.table constant).trans (h.indices_eq constant).symm).trans hi
  bootstrapIndices := fun {entry _} hi =>
    ((getElem?_bootstrapIndices_ofTable b.table entry).trans
      (h.bootstrapIndices_eq entry).symm).trans
      hi

end Builder

end ClassTree.Pool
