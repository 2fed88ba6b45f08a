import ClassTree.Flow.Execution
import ClassTree.Proofs.Flow.Joining

namespace ClassTree

def BinaryName.object : BinaryName :=
  ⟨Name.object, by decide +kernel⟩

/-- The common superclass of two classes, as a name. -/
def Ancestry.NamesClasses.common {ancestry : Ancestry} (h : ancestry.NamesClasses)
    (x y : BinaryName) : BinaryName where
  text := ancestry.commonSuperclass x.text y.text
  valid := by
    rcases @Ancestry.commonSuperclass_mem ancestry x.text y.text with hx | hy | ho | hs
    · rw [hx]
      exact x.valid
    · rw [hy]
      exact y.valid
    · rw [ho]
      exact BinaryName.object.valid
    · exact h hs

namespace RefType

def dimensions : RefType → Nat
  | object _ => 0
  | array extra _ => extra + 1

theorem dimensions_of_elementType? {type element : RefType}
    (h : type.elementType? = some (.ref element)) : type.dimensions = element.dimensions + 1 := by
  unfold elementType? at h
  split at h <;> cases h <;> rfl

theorem classReference_injective : Function.Injective classReference := by
  intro a b h
  exact Except.ok.inj
    ((ofClassReference_eq_ok.mpr rfl).symm.trans (ofClassReference_eq_ok.mpr h.symm))

/-- The type of a value that has one of two types. Arrays merge by their elements, as long as those
are references. -/
def merge (common : BinaryName → BinaryName → BinaryName) (a b : RefType) : RefType :=
  if a = b then a
  else match a, b with
    | object x, object y => object (common x y)
    | a, b =>
      match h : a.elementType?, b.elementType? with
      | some (.ref x), some (.ref y) =>
        have := dimensions_of_elementType? h
        arrayOf (.ref (merge common x y))
      | _, _ => object .object
termination_by a.dimensions

/-- Arrays of classes merge to arrays of what the classes have in common. -/
theorem merge_array_object {common : BinaryName → BinaryName → BinaryName} {x y : BinaryName}
    (h : x ≠ y) (extra : Nat) :
    merge common (array extra (.object x)) (array extra (.object y)) =
      array extra (.object (common x y)) := by
  induction extra with
  | zero =>
    rw [merge, if_neg (by simpa using h)]
    · dsimp only [elementType?]
      rw [merge, if_neg (by simpa using h)]
      rfl
    · exact nofun
  | succ extra ih =>
    rw [merge, if_neg (by simpa using h)]
    · dsimp only [elementType?]
      rw [ih]
      rfl
    · exact nofun

end RefType

namespace Flow

variable {hierarchy : Hierarchy}

/-- How texts merge is told by the elements of the types that they refer to. -/
theorem mergeReferences_classReference (a b : RefType) :
    mergeReferences hierarchy a.classReference b.classReference =
      if a = b then a.classReference
      else match a.elementType?, b.elementType? with
        | none, none => hierarchy.commonSuperclass a.classReference b.classReference
        | some (.ref x), some (.ref y) => String.ofList (ClassReference.arrayOf
            (mergeReferences hierarchy x.classReference y.classReference).toList)
        | _, _ => Name.object := by
  by_cases hab : a = b
  · rw [if_pos hab, hab, mergeReferences_self]
  have hne : a.classReference.toList ≠ b.classReference.toList := fun h =>
    hab (RefType.classReference_injective (String.toList_injective h))
  rw [if_neg hab, mergeReferences, mergeChars, if_neg hne, a.isArray_classReference,
    b.isArray_classReference]
  cases hx : a.elementType? with
  | none => cases hy : b.elementType? <;> simp
  | some x =>
    cases hy : b.elementType? with
    | none => simp
    | some y =>
      have ha := a.element?_classReference
      have hb := b.element?_classReference
      rw [hx] at ha
      rw [hy] at hb
      rw [if_pos (by simp)]
      split
      · rename_i found₁ found₂ h₁ h₂
        rw [h₁] at ha
        rw [h₂] at hb
        cases x <;> cases y <;> simp_all [mergeReferences]
      · rename_i hnone
        cases x <;> cases y <;> simp_all

/-- Texts merge as the types that they refer to, where common superclasses have names of classes. -/
theorem mergeReferences_eq_merge {common : BinaryName → BinaryName → BinaryName}
    (hc : ∀ x y, (common x y).text = hierarchy.commonSuperclass x.text y.text) (a b : RefType) :
    mergeReferences hierarchy a.classReference b.classReference =
      (a.merge common b).classReference := by
  fun_induction RefType.merge common a b with
  | case1 => rw [mergeReferences_self]
  | case2 x y hab =>
    rw [mergeReferences_classReference, if_neg hab]
    exact (hc x y).symm
  | case3 a b _ x y hx hy _ hab ih =>
    rw [mergeReferences_classReference, if_neg hab, hx, hy]
    dsimp only
    rw [ih, ← RefType.classReference_arrayOf, String.ofList_toList]
  | case4 a b hobjects helements hab =>
    rw [mergeReferences_classReference, if_neg hab]
    split
    · rename_i hx hy
      obtain ⟨x, rfl⟩ := RefType.exists_object_of_elementType? hx
      obtain ⟨y, rfl⟩ := RefType.exists_object_of_elementType? hy
      exact absurd rfl (hobjects x y rfl)
    · rename_i hx hy
      exact absurd hy (helements _ _ hx)
    · rfl

theorem run_aaload {context : Context} {code : Array (Instruction Label)} {i : Nat}
    {locals stack : List SlotType} {reference : String} :
    (execute context code i (.plain .aaload)).run
        ⟨locals, .integer :: .object reference :: stack⟩ =
      match ClassReference.element? reference.toList with
      | some element => .ok ((), ⟨locals, .object (String.ofList element) :: stack⟩)
      | none => .error (.loadFromNonArray reference) := by
  change (do Transition.push (← loadedElement .aaload (.object reference)) : Transition Unit).run
    ⟨locals, stack⟩ = _
  rw [loadedElement.eq_def]
  dsimp only
  cases ClassReference.element? reference.toList <;> rfl

/-- Arrays are typed where code is analysed as they are where descriptors are read, however deep
they are nested: built and taken apart, loaded from, created and merged. -/
theorem classReference_arrays (hierarchy : Hierarchy) (context : Context)
    (code : Array (Instruction Label)) (i : Nat) :
    (∀ type : RefType, ClassReference.arrayOf type.classReference.toList =
      (RefType.arrayOf (.ref type)).classReference.toList) ∧
    (∀ extra element, ∃ rest,
      (RefType.array extra element).classReference.toList = '[' :: rest ∧
      (∀ found, ClassReference.element? ('[' :: rest) = some found ↔
        ∃ type, (RefType.array extra element).elementType? = some (.ref type) ∧
          type.classReference.toList = found) ∧
      (ClassReference.element? ('[' :: rest) = none ↔
        ∃ base, (RefType.array extra element).elementType? = some (.base base))) ∧
    (∀ (type : RefType) locals stack,
      (execute context code i (.plain .aaload)).run
          ⟨locals, .integer :: .object type.classReference :: stack⟩ =
        match type.elementType? with
        | some (.ref element) => .ok ((), ⟨locals, .object element.classReference :: stack⟩)
        | _ => .error (.loadFromNonArray type.classReference)) ∧
    (∀ (type : RefType) locals stack,
      (execute context code i (.type .anewarray type.classReference)).run
          ⟨locals, .integer :: stack⟩ =
        .ok ((), ⟨locals, .object (RefType.arrayOf (.ref type)).classReference :: stack⟩)) ∧
    (∀ a b : RefType, mergeTypes hierarchy (.object a.classReference) (.object b.classReference) =
      .object (if a = b then a.classReference
        else match a.elementType?, b.elementType? with
          | none, none => hierarchy.commonSuperclass a.classReference b.classReference
          | some (.ref x), some (.ref y) => String.ofList (ClassReference.arrayOf
              (mergeReferences hierarchy x.classReference y.classReference).toList)
          | _, _ => Name.object)) ∧
    ∀ common : BinaryName → BinaryName → BinaryName,
      (∀ x y, (common x y).text = hierarchy.commonSuperclass x.text y.text) →
      ∀ a b : RefType, mergeTypes hierarchy (.object a.classReference) (.object b.classReference) =
        .object (a.merge common b).classReference := by
  refine ⟨fun type => type.classReference_arrayOf.symm, ?_, ?_, ?_, ?_, ?_⟩
  · intro extra element
    have hbracket := RefType.classReference_array extra element
    have helement := (RefType.array extra element).element?_classReference
    refine ⟨_, hbracket, ?_⟩
    rw [← hbracket, helement]
    cases h : (RefType.array extra element).elementType? with
    | none =>
      obtain ⟨name, hobject⟩ := RefType.exists_object_of_elementType? h
      cases hobject
    | some found => cases found <;> simp
  · intro type locals stack
    rw [run_aaload, type.element?_classReference]
    cases type.elementType? with
    | none => rfl
    | some element =>
      cases element with
      | base type => rfl
      | ref element => simp
  · intro type locals stack
    have hrun : (execute context code i (.type .anewarray type.classReference)).run
        ⟨locals, .integer :: stack⟩ = .ok ((), ⟨locals, .object (String.ofList
          (ClassReference.arrayOf type.classReference.toList)) :: stack⟩) := rfl
    rw [hrun, ← RefType.classReference_arrayOf, String.ofList_toList]
  · intro a b
    rw [mergeTypes_object, mergeReferences_classReference]
  · intro common hc a b
    rw [mergeTypes_object, mergeReferences_eq_merge hc]

theorem library_arrays : ∃ common : BinaryName → BinaryName → BinaryName,
    (∀ x y, (common x y).text = Hierarchy.library.commonSuperclass x.text y.text) ∧
    mergeTypes .library (.object "[[Ljava/lang/Long;") (.object "[[Ljava/lang/Byte;") =
      .object "[[Ljava/lang/Number;" := by
  let long : BinaryName := ⟨"java/lang/Long", by decide +kernel⟩
  let byte : BinaryName := ⟨"java/lang/Byte", by decide +kernel⟩
  let number : BinaryName := ⟨"java/lang/Number", by decide +kernel⟩
  let common := Ancestry.library_namesClasses.common
  have hc : ∀ x y, (common x y).text = Hierarchy.library.commonSuperclass x.text y.text :=
    fun _ _ => rfl
  obtain ⟨-, -, -, -, -, hmerge⟩ :=
    classReference_arrays .library ⟨"p/A", "m", ⟨[], none⟩, true⟩ #[] 0
  have h := hmerge common hc (.array 1 (.object long)) (.array 1 (.object byte))
  have hcommon : common long byte = number := by decide +kernel
  have hlong : (RefType.array 1 (.object long)).classReference = "[[Ljava/lang/Long;" := by
    decide +kernel
  have hbyte : (RefType.array 1 (.object byte)).classReference = "[[Ljava/lang/Byte;" := by
    decide +kernel
  have hnumber : (RefType.array 1 (.object number)).classReference = "[[Ljava/lang/Number;" := by
    decide +kernel
  rw [RefType.merge_array_object (by decide), hcommon, hlong, hbyte, hnumber] at h
  exact ⟨common, hc, h⟩

end Flow
end ClassTree
