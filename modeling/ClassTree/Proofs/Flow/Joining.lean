import ClassTree.Proofs.Descriptor.Reading
import ClassTree.Proofs.Flow.Merging

namespace ClassTree

theorem Name.checkBinary_ofList {chars : List Char} (hne : chars ≠ [])
    (h : ∀ segment ∈ segments chars, segment ≠ [] ∧ segment.any isDelimiter = false) :
    checkBinary (String.ofList chars) = .ok () := by
  unfold checkBinary
  rw [if_neg (by simpa [String.isEmpty_iff] using hne), String.toList_ofList, forM_eq_ok]
  intro segment hs
  obtain ⟨hfull, hclean⟩ := h segment hs
  unfold checkUnqualified
  rw [String.toList_ofList, if_neg (by simp [hclean]),
    if_neg (by simpa [String.isEmpty_iff] using hfull)]

namespace Ancestry

/-- Superclasses have names of classes, which array types have not. -/
def NamesClasses (ancestry : Ancestry) : Prop :=
  ∀ {parent : String}, ancestry.IsSuper parent → Name.checkBinary parent = .ok ()

theorem library_namesClasses : library.NamesClasses := by
  suffices h : ∀ parent ∈ libraryParents, Name.checkBinary parent = .ok () from
    fun {_} hs => h _ hs.mem_parents
  simp only [libraryParents, libraryClasses, List.map, List.forall_mem_cons]
  repeat' apply And.intro
  all_goals first | exact Name.checkBinary_ofList (by decide) (by decide +kernel) |
    exact List.forall_mem_nil _

end Ancestry

theorem BinaryName.isArray_text (name : BinaryName) :
    ClassReference.isArray name.text.toList = false := by
  rw [ClassReference.isArray, beq_eq_false_iff_ne]
  intro h
  exact name.not_mem_of_isDelimiter rfl (by decide) (List.mem_of_head? h)

namespace RefType

theorem arrayOf_of_elementType? {type : RefType} {element : FieldType}
    (h : type.elementType? = some element) : type = arrayOf element := by
  unfold elementType? at h
  split at h <;> cases h <;> rfl

theorem exists_object_of_elementType? {type : RefType} (h : type.elementType? = none) :
    ∃ name, type = object name := by
  unfold elementType? at h
  split at h
  · exact ⟨_, rfl⟩
  all_goals cases h

theorem classReference_arrayOf (type : RefType) :
    (arrayOf (.ref type)).classReference.toList =
      ClassReference.arrayOf type.classReference.toList := by
  cases type with
  | object name =>
    rw [ClassReference.arrayOf, classReference.eq_def (object name)]
    dsimp only
    rw [if_neg (by simp [name.isArray_text])]
    simp [arrayOf, classReference, descriptor, render, ElementType.render]
  | array extra type =>
    rw [ClassReference.arrayOf, if_pos]
    · simp [arrayOf, classReference, descriptor, render, List.replicate_succ]
    · simp [classReference, descriptor, render, List.replicate_succ, ClassReference.isArray]

theorem classReference_array (extra : Nat) (element : ElementType) :
    (array extra element).classReference.toList =
      '[' :: (List.replicate extra '[' ++ element.render) := by
  rw [classReference, descriptor, String.toList_ofList]
  rfl

/-- Only arrays are referred to with a bracket in front. -/
theorem isArray_classReference (type : RefType) :
    ClassReference.isArray type.classReference.toList = type.elementType?.isSome := by
  cases type with
  | object name => exact name.isArray_text
  | array extra element =>
    rw [classReference_array]
    cases extra with
    | succ extra => rfl
    | zero => cases element <;> rfl

/-- Elements that are references are referred to by what follows the first bracket. -/
theorem element?_classReference (type : RefType) :
    ClassReference.element? type.classReference.toList =
      match type.elementType? with
      | some (.ref element) => some element.classReference.toList
      | _ => none := by
  cases h : type.elementType? with
  | none =>
    cases hfound : ClassReference.element? type.classReference.toList with
    | none => rfl
    | some found =>
      have harray := Flow.Shape.isArray_of_element? hfound
      rw [isArray_classReference, h] at harray
      cases harray
  | some element =>
    rw [arrayOf_of_elementType? h]
    cases element with
    | base type => cases type <;> rfl
    | ref element => rw [classReference_arrayOf, Flow.Shape.element?_arrayOf]

/-- The elements of an array type, if they are references, are referred to as types are. -/
theorem exists_of_element? {type : RefType} {element : List Char}
    (h : ClassReference.element? type.classReference.toList = some element) :
    ∃ type' : RefType, type'.classReference.toList = element := by
  rw [element?_classReference] at h
  split at h
  · exact ⟨_, Option.some.inj h⟩
  · cases h

end RefType

namespace Flow

variable {ancestry : Ancestry}

def Refers (reference : List Char) : Prop :=
  ∃ type : RefType, type.classReference.toList = reference

theorem refers_of_checkBinary {name : String} (h : Name.checkBinary name = .ok ()) :
    Refers name.toList :=
  ⟨.object ⟨name, h⟩, rfl⟩

theorem refers_object : Refers Name.object.toList :=
  refers_of_checkBinary (by decide +kernel)

theorem refers_mergeChars (hn : ancestry.NamesClasses) {a b : List Char} (ha : Refers a)
    (hb : Refers b) : Refers (mergeChars ancestry.hierarchy a b) := by
  fun_induction mergeChars ancestry.hierarchy a b with
  | case1 => exact ha
  | case2 a b _ _ ea eb hea heb _ ih =>
    obtain ⟨_, rfl⟩ := ha
    obtain ⟨_, rfl⟩ := hb
    obtain ⟨type, htype⟩ := ih (RefType.exists_of_element? hea) (RefType.exists_of_element? heb)
    exact ⟨.arrayOf (.ref type), by rw [RefType.classReference_arrayOf, htype]⟩
  | case3 => exact refers_object
  | case4 => exact refers_object
  | case5 a b =>
    rw [Ancestry.hierarchy_commonSuperclass]
    rcases @Ancestry.commonSuperclass_mem ancestry (String.ofList a) (String.ofList b) with
      h | h | h | h
    · rwa [h, String.toList_ofList]
    · rwa [h, String.toList_ofList]
    · rw [h]
      exact refers_object
    · exact refers_of_checkBinary (hn h)

/-- An object type refers to a class or an array type. -/
def Readable (type : SlotType) : Prop :=
  ∀ reference, type = .object reference →
    ∃ found, RefType.ofClassReference reference = .ok found

theorem readable_object {reference : String} :
    Readable (.object reference) ↔ Refers reference.toList := by
  have h : ∀ {type : RefType},
      type.classReference.toList = reference.toList ↔ type.classReference = reference :=
    String.toList_inj
  simp only [Readable, Refers, VerificationType.object.injEq, forall_eq',
    RefType.ofClassReference_eq_ok, h]

theorem Readable.mergeTypes (hn : ancestry.NamesClasses) {a b : SlotType} (ha : Readable a)
    (hb : Readable b) : Readable (mergeTypes ancestry.hierarchy a b) := by
  rcases mergeTypes_cases ancestry.hierarchy a b with
    ⟨-, h⟩ | h | ⟨name, h, rfl | rfl | ⟨r, s, rfl, rfl, rfl⟩⟩
  · rwa [h]
  · rw [h]
    exact fun _ he => by cases he
  · rwa [h]
  · rwa [h]
  · rw [h, readable_object, toList_mergeReferences]
    exact refers_mergeChars hn (readable_object.mp ha) (readable_object.mp hb)

/-- Merging types is a join: nothing is above `top`, and `null` is below all objects. -/
theorem mergeTypes_isJoin (hc : ancestry.ExtendsClasses) (hn : ancestry.NamesClasses) :
    (∀ a, mergeTypes ancestry.hierarchy a a = a) ∧
    (∀ a b, mergeTypes ancestry.hierarchy a b = mergeTypes ancestry.hierarchy b a) ∧
    (∀ a b c, mergeTypes ancestry.hierarchy (mergeTypes ancestry.hierarchy a b) c =
      mergeTypes ancestry.hierarchy a (mergeTypes ancestry.hierarchy b c)) ∧
    (∀ a, mergeTypes ancestry.hierarchy a .top = .top) ∧
    (∀ reference, mergeTypes ancestry.hierarchy .null (.object reference) = .object reference) ∧
    ∀ a b, Readable a → Readable b → Readable (mergeTypes ancestry.hierarchy a b) := by
  have hj : ancestry.hierarchy.JoinsClasses :=
    Ancestry.joinsClasses_of_extendsClasses hc fun hs => BinaryName.isArray_text ⟨_, hn hs⟩
  exact ⟨mergeTypes_self, mergeTypes_comm hj, mergeTypes_assoc hj, mergeTypes_top,
    mergeTypes_null_object, fun _ _ => Readable.mergeTypes hn⟩

theorem library_mergeTypes : Ancestry.library.ExtendsClasses ∧ Ancestry.library.NamesClasses ∧
    Readable (.object "[Ljava/lang/Long;") ∧ Readable (.object "[Ljava/lang/Byte;") ∧
    Readable (mergeTypes .library (.object "[Ljava/lang/Long;") (.object "[Ljava/lang/Byte;")) := by
  obtain ⟨-, -, -, -, -, hreadable⟩ :=
    mergeTypes_isJoin Ancestry.library_extendsClasses Ancestry.library_namesClasses
  have hread : ∀ {name : String}, Name.checkBinary name = .ok () →
      Readable (.object (String.ofList ('[' :: 'L' :: name.toList ++ [';']))) := by
    intro name h
    rw [readable_object, String.toList_ofList]
    exact ⟨.array 0 (.object ⟨name, h⟩), String.toList_ofList⟩
  have hlong : Readable (.object "[Ljava/lang/Long;") :=
    @hread "java/lang/Long" (by decide +kernel)
  have hbyte : Readable (.object "[Ljava/lang/Byte;") :=
    @hread "java/lang/Byte" (by decide +kernel)
  exact ⟨Ancestry.library_extendsClasses, Ancestry.library_namesClasses, hlong, hbyte,
    hreadable _ _ hlong hbyte⟩

open ClassTree.Ancestry (siblings siblings_extendsClasses)

/-- Where a superclass is no name of a class, nor is what two types merge to; and where it is
spelled like an array type, it matters in which order types are merged. -/
theorem siblings_mergeTypes :
    ((siblings "a;b").ExtendsClasses ∧ Readable (.object "p/A") ∧ Readable (.object "p/B") ∧
      ¬ Readable (mergeTypes (siblings "a;b").hierarchy (.object "p/A") (.object "p/B"))) ∧
    (siblings "[I").ExtendsClasses ∧ Readable (.object "[I") ∧
      mergeTypes (siblings "[I").hierarchy
          (mergeTypes (siblings "[I").hierarchy (.object "p/A") (.object "p/B")) (.object "[I") ≠
        mergeTypes (siblings "[I").hierarchy (.object "p/A")
          (mergeTypes (siblings "[I").hierarchy (.object "p/B") (.object "[I")) := by
  have hread : ∀ {name : String}, Name.checkBinary name = .ok () → Readable (.object name) :=
    fun h => readable_object.mpr (refers_of_checkBinary h)
  have hnames : mergeTypes (siblings "a;b").hierarchy (.object "p/A") (.object "p/B") =
      .object "a;b" := by
    rw [mergeTypes_object, mergeReferences, mergeChars]
    decide +kernel
  have hleft : mergeTypes (siblings "[I").hierarchy (.object "p/A") (.object "p/B") =
      .object "[I" := by
    rw [mergeTypes_object, mergeReferences, mergeChars]
    decide +kernel
  have hright : mergeTypes (siblings "[I").hierarchy (.object "p/B") (.object "[I") =
      .object Name.object := by
    rw [mergeTypes_object, mergeReferences, mergeChars]
    decide +kernel
  have hlast : mergeTypes (siblings "[I").hierarchy (.object "p/A") (.object Name.object) =
      .object Name.object := by
    rw [mergeTypes_object, mergeReferences, mergeChars]
    decide +kernel
  refine ⟨⟨siblings_extendsClasses _, hread (by decide +kernel), hread (by decide +kernel), ?_⟩,
    siblings_extendsClasses _, readable_object.mpr ⟨.array 0 (.base .int), rfl⟩, ?_⟩
  · rw [hnames]
    intro h
    obtain ⟨type, hm⟩ := h _ rfl
    have hrefused : (RefType.ofClassReference "a;b").isOk = false := by decide +kernel
    rw [hm] at hrefused
    cases hrefused
  · rw [hleft, hright, hlast, mergeTypes_self]
    decide

end Flow
end ClassTree
