import ClassTree.Flow.Merge
import ClassTree.Proofs.Hierarchy.Join

namespace ClassTree.Flow

/-- What a reference spells: a class, an array of something that is no reference, or an array of
references. An array of arrays that is spelled like an array of classes is not `plain`. -/
inductive Shape where
  | named (name : List Char)
  | primitive (reference : List Char)
  | array (plain : Bool) (element : Shape)
deriving DecidableEq

namespace Shape

def kind : Shape → Nat
  | named _ => 0
  | primitive _ => 1
  | array _ _ => 2

def ofChars (reference : List Char) : Shape :=
  if ClassReference.isArray reference then
    match h : ClassReference.element? reference with
    | some element =>
      have := ClassReference.element?_shorter h
      array (ClassReference.arrayOf element == reference) (ofChars element)
    | none => primitive reference
  else named reference
termination_by reference.length

def toChars : Shape → List Char
  | named name => name
  | primitive reference => reference
  | array true element => ClassReference.arrayOf element.toChars
  | array false element => '[' :: 'L' :: element.toChars ++ [';']

def merge (hierarchy : Hierarchy) : Shape → Shape → Shape
  | named name₁, named name₂ =>
    if name₁ = name₂ then named name₁
    else named (hierarchy.commonSuperclass (String.ofList name₁) (String.ofList name₂)).toList
  | primitive reference₁, primitive reference₂ =>
    if reference₁ = reference₂ then primitive reference₁ else named Name.object.toList
  | array plain₁ element₁, array plain₂ element₂ =>
    if plain₁ = plain₂ ∧ element₁ = element₂ then array plain₁ element₁
    else array true (merge hierarchy element₁ element₂)
  | _, _ => named Name.object.toList

variable {hierarchy : Hierarchy}

@[simp] theorem merge_self (s : Shape) : merge hierarchy s s = s := by
  cases s <;> simp [merge]

theorem merge_named (hj : hierarchy.IsJoin) (a b : List Char) :
    merge hierarchy (named a) (named b) =
    named (hierarchy.commonSuperclass (String.ofList a) (String.ofList b)).toList := by
  rw [merge]
  split
  · rename_i h
    rw [h, hj.idem, String.toList_ofList]
  · rfl

theorem merge_comm (hj : hierarchy.JoinsClasses) (s t : Shape) :
    merge hierarchy s t = merge hierarchy t s := by
  induction s generalizing t with
  | named name =>
    cases t with
    | named name' => rw [merge_named hj.toIsJoin, merge_named hj.toIsJoin, hj.comm]
    | primitive _ => rfl
    | array _ _ => rfl
  | primitive reference =>
    cases t with
    | named _ => rfl
    | primitive reference' => simp only [merge]; grind
    | array _ _ => rfl
  | array plain element ih =>
    cases t with
    | named _ => rfl
    | primitive _ => rfl
    | array plain' element' => simp only [merge, ih element']; grind

theorem merge_object (hj : hierarchy.JoinsClasses) (s : Shape) :
    merge hierarchy s (named Name.object.toList) = named Name.object.toList := by
  cases s with
  | named name => rw [merge_named hj.toIsJoin, String.ofList_toList, hj.object]
  | primitive _ => rfl
  | array _ _ => rfl

theorem object_merge (hj : hierarchy.JoinsClasses) (s : Shape) :
    merge hierarchy (named Name.object.toList) s = named Name.object.toList := by
  rw [merge_comm hj, merge_object hj]

theorem array_merge {s t : Shape} {plain plain' : Bool} (h : array plain s ≠ array plain' t) :
    merge hierarchy (array plain s) (array plain' t) = array true (merge hierarchy s t) := by
  rw [merge, if_neg]
  rintro ⟨rfl, rfl⟩
  exact h rfl

@[simp] theorem plain_merge (s t : Shape) (plain : Bool) :
    merge hierarchy (array true s) (array plain t) = array true (merge hierarchy s t) := by
  by_cases h : array true s = array plain t
  · cases h
    rw [merge_self, merge_self]
  · exact array_merge h

@[simp] theorem merge_plain (s t : Shape) (plain : Bool) :
    merge hierarchy (array plain s) (array true t) = array true (merge hierarchy s t) := by
  by_cases h : array plain s = array true t
  · cases h
    rw [merge_self, merge_self]
  · exact array_merge h

/-- Shapes of different kinds have nothing but `java/lang/Object` in common. -/
theorem merge_of_kind_ne {s t : Shape} (h : s.kind ≠ t.kind) :
    merge hierarchy s t = named Name.object.toList := by
  cases s <;> cases t <;> first | rfl | exact absurd rfl h

theorem kind_merge {s t : Shape} (h : s.kind = t.kind) :
    merge hierarchy s t = named Name.object.toList ∨ (merge hierarchy s t).kind = s.kind := by
  cases s with
  | named _ =>
    cases t with
    | named _ =>
      rw [merge]
      split <;> exact .inr rfl
    | _ => cases h
  | primitive a =>
    cases t with
    | primitive b =>
      by_cases hab : a = b
      · exact .inr (by simp [hab])
      · exact .inl (by simp [merge, hab])
    | _ => cases h
  | array plain s =>
    cases t with
    | array plain' t =>
      by_cases hst : array plain s = array plain' t
      · exact .inr (by rw [hst, merge_self])
      · exact .inr (by rw [array_merge hst]; rfl)
    | _ => cases h

/-- Where two kinds meet, both ways of merging end at `java/lang/Object`. -/
theorem merge_assoc_of_kind_ne (hj : hierarchy.JoinsClasses) {s t u : Shape}
    (h : s.kind ≠ t.kind ∨ t.kind ≠ u.kind) :
    merge hierarchy (merge hierarchy s t) u = merge hierarchy s (merge hierarchy t u) := by
  by_cases hst : s.kind = t.kind
  · have htu := h.resolve_left (by simpa using hst)
    rw [merge_of_kind_ne htu, merge_object hj]
    rcases kind_merge hst with hm | hm
    · rw [hm, object_merge hj]
    · exact merge_of_kind_ne (by rw [hm, hst]; exact htu)
  · rw [merge_of_kind_ne hst, object_merge hj]
    by_cases htu : t.kind = u.kind
    · rcases kind_merge htu with hm | hm
      · rw [hm, merge_object hj]
      · exact (merge_of_kind_ne (by rw [hm]; exact hst)).symm
    · rw [merge_of_kind_ne htu, merge_object hj]

/-- Merging is associative, by recursion on the nesting of arrays. -/
theorem merge_assoc (hj : hierarchy.JoinsClasses) (s t u : Shape) :
    merge hierarchy (merge hierarchy s t) u = merge hierarchy s (merge hierarchy t u) := by
  induction s generalizing t u with
  | named a =>
    cases t with
    | named b =>
      cases u with
      | named c => simp [merge_named hj.toIsJoin, hj.assoc]
      | _ => exact merge_assoc_of_kind_ne hj (.inr (by simp [kind]))
    | _ => exact merge_assoc_of_kind_ne hj (.inl (by simp [kind]))
  | primitive a =>
    cases t with
    | primitive b =>
      cases u with
      | primitive c => simp only [merge]; grind [merge]
      | _ => exact merge_assoc_of_kind_ne hj (.inr (by simp [kind]))
    | _ => exact merge_assoc_of_kind_ne hj (.inl (by simp [kind]))
  | array plain s ih =>
    cases t with
    | array plain' t =>
      cases u with
      | array plain'' u =>
        by_cases hst : array plain s = array plain' t
        · obtain ⟨rfl, rfl⟩ := Shape.array.inj hst
          rw [merge_self]
          by_cases hsu : array plain s = array plain'' u
          · rw [hsu, merge_self, merge_self]
          · rw [array_merge hsu, merge_plain, ← ih, merge_self]
        · rw [array_merge hst]
          by_cases htu : array plain' t = array plain'' u
          · rw [← htu, merge_self, array_merge hst, plain_merge, ih, merge_self]
          · rw [array_merge htu, plain_merge, merge_plain, ih]
      | _ => exact merge_assoc_of_kind_ne hj (.inr (by simp [kind]))
    | _ => exact merge_assoc_of_kind_ne hj (.inl (by simp [kind]))

theorem ofChars_named {reference : List Char} (h : ClassReference.isArray reference = false) :
    ofChars reference = named reference := by
  rw [ofChars, if_neg (by simp [h])]

theorem ofChars_primitive {reference : List Char} (h : ClassReference.isArray reference = true)
    (he : ClassReference.element? reference = none) : ofChars reference = primitive reference := by
  rw [ofChars, if_pos h]
  split
  · rename_i hs
    simp [he] at hs
  · rfl

theorem ofChars_array {reference element : List Char}
    (h : ClassReference.isArray reference = true)
    (he : ClassReference.element? reference = some element) :
    ofChars reference =
      array (ClassReference.arrayOf element == reference) (ofChars element) := by
  rw [ofChars, if_pos h]
  split
  · rename_i hs
    obtain rfl := Option.some.inj (hs.symm.trans he)
    rfl
  · rename_i hs
    simp [he] at hs

theorem element?_arrayOf (reference : List Char) :
    ClassReference.element? (ClassReference.arrayOf reference) = some reference := by
  unfold ClassReference.arrayOf
  split
  · rename_i h
    cases reference with
    | nil => simp [ClassReference.isArray] at h
    | cons first rest =>
      obtain rfl : first = '[' := by simpa [ClassReference.isArray] using h
      rfl
  · simp [ClassReference.element?]

theorem isArray_arrayOf (reference : List Char) :
    ClassReference.isArray (ClassReference.arrayOf reference) = true := by
  unfold ClassReference.arrayOf
  split <;> rfl

theorem isArray_of_element? {reference element : List Char}
    (h : ClassReference.element? reference = some element) :
    ClassReference.isArray reference = true := by
  unfold ClassReference.element? at h
  split at h
  · rfl
  · rfl
  · cases h

@[simp] theorem ofChars_arrayOf (reference : List Char) :
    ofChars (ClassReference.arrayOf reference) = array true (ofChars reference) := by
  rw [ofChars_array (isArray_arrayOf reference) (element?_arrayOf reference)]
  simp

theorem ofChars_object : ofChars Name.object.toList = named Name.object.toList :=
  ofChars_named (by decide)

/-- An array of references is spelled in one of two ways. -/
theorem eq_of_element? {reference element : List Char}
    (h : ClassReference.element? reference = some element) :
    reference = ClassReference.arrayOf element ∨ reference = '[' :: 'L' :: element ++ [';'] := by
  unfold ClassReference.element? at h
  split at h
  · obtain rfl := Option.some.inj h
    exact .inl rfl
  · split at h
    · rename_i rest hl
      obtain rfl := Option.some.inj h
      obtain ⟨front, rfl⟩ := List.getLast?_eq_some_iff.mp hl
      exact .inr (by simp)
    · cases h
  · cases h

@[simp] theorem toChars_ofChars (reference : List Char) :
    (ofChars reference).toChars = reference := by
  fun_induction ofChars reference with
  | case1 reference hr element he _ ih =>
    rcases eq_of_element? he with h | h
    · rw [← h, beq_self_eq_true, toChars, ih, ← h]
    · by_cases hp : (ClassReference.arrayOf element == reference) = true
      · rw [hp, toChars, ih, eq_of_beq hp]
      · rw [Bool.eq_false_iff.mpr hp, toChars, ih, ← h]
  | case2 reference hr he => rfl
  | case3 reference hr => rfl

theorem ofChars_inj {a b : List Char} (h : ofChars a = ofChars b) : a = b := by
  rw [← toChars_ofChars a, h, toChars_ofChars]

theorem kind_ofChars (reference : List Char) :
    (ofChars reference).kind = 0 ↔ ClassReference.isArray reference = false := by
  cases hr : ClassReference.isArray reference with
  | false => simp [ofChars_named hr, kind]
  | true =>
    cases he : ClassReference.element? reference with
    | none => simp [ofChars_primitive hr he, kind]
    | some element => simp [ofChars_array hr he, kind]

/-- Merging references is merging their shapes. -/
theorem ofChars_mergeChars (hj : hierarchy.JoinsClasses) (a b : List Char) :
    ofChars (mergeChars hierarchy a b) = merge hierarchy (ofChars a) (ofChars b) := by
  fun_induction mergeChars hierarchy a b with
  | case1 => simp
  | case2 a b hab harr ea eb ha hb _ ih =>
    obtain ⟨hra, hrb⟩ := Bool.and_eq_true_iff.mp harr
    have hne : ofChars a ≠ ofChars b := fun h => hab (ofChars_inj h)
    rw [ofChars_array hra ha, ofChars_array hrb hb] at hne ⊢
    rw [array_merge hne, ofChars_arrayOf, ih]
  | case3 a b hab harr hnone =>
    obtain ⟨hra, hrb⟩ := Bool.and_eq_true_iff.mp harr
    rw [ofChars_object]
    cases ha : ClassReference.element? a with
    | none =>
      cases hb : ClassReference.element? b with
      | none => simp [ofChars_primitive hra ha, ofChars_primitive hrb hb, merge, hab]
      | some eb => simp [ofChars_primitive hra ha, ofChars_array hrb hb, merge]
    | some ea =>
      cases hb : ClassReference.element? b with
      | none => simp [ofChars_array hra ha, ofChars_primitive hrb hb, merge]
      | some eb => exact absurd hb (fun hb => hnone ea eb ha hb)
  | case4 a b hab hboth hone =>
    rw [ofChars_object, merge_of_kind_ne]
    have ha := kind_ofChars a
    have hb := kind_ofChars b
    grind
  | case5 a b hab hboth hnone =>
    rw [Bool.or_eq_true, not_or] at hnone
    have ha : ClassReference.isArray a = false := by simpa using hnone.1
    have hb : ClassReference.isArray b = false := by simpa using hnone.2
    rw [ofChars_named ha, ofChars_named hb, ofChars_named, merge_named hj.toIsJoin]
    exact hj.named (by simpa using ha) (by simpa using hb)

end Shape

variable {hierarchy : Hierarchy}

theorem mergeReferences_self (a : String) : mergeReferences hierarchy a a = a := by
  simp [mergeReferences, mergeChars]

theorem toList_mergeReferences (a b : String) :
    (mergeReferences hierarchy a b).toList = mergeChars hierarchy a.toList b.toList := by
  simp [mergeReferences]

theorem mergeReferences_comm (hj : hierarchy.JoinsClasses) (a b : String) :
    mergeReferences hierarchy a b = mergeReferences hierarchy b a := by
  apply String.toList_injective
  apply Shape.ofChars_inj
  simp only [toList_mergeReferences, Shape.ofChars_mergeChars hj]
  exact Shape.merge_comm hj _ _

theorem mergeReferences_assoc (hj : hierarchy.JoinsClasses) (a b c : String) :
    mergeReferences hierarchy (mergeReferences hierarchy a b) c =
      mergeReferences hierarchy a (mergeReferences hierarchy b c) := by
  apply String.toList_injective
  apply Shape.ofChars_inj
  simp only [toList_mergeReferences, Shape.ofChars_mergeChars hj]
  exact Shape.merge_assoc hj _ _ _

@[simp] theorem mergeTypes_self (a : SlotType) : mergeTypes hierarchy a a = a := by
  simp [mergeTypes]

theorem mergeTypes_comm (hj : hierarchy.JoinsClasses) (a b : SlotType) :
    mergeTypes hierarchy a b = mergeTypes hierarchy b a := by
  by_cases hab : a = b
  · rw [hab]
  · simp only [mergeTypes, hab, Ne.symm hab, if_false]
    cases a <;> cases b <;> simp [mergeReferences_comm hj]

@[simp] theorem mergeTypes_top (a : SlotType) : mergeTypes hierarchy a .top = .top := by
  cases a <;> simp [mergeTypes]

@[simp] theorem top_mergeTypes (a : SlotType) : mergeTypes hierarchy .top a = .top := by
  cases a <;> simp [mergeTypes]

def rigid : SlotType → Bool
  | .null | .object _ => false
  | _ => true

theorem mergeTypes_of_rigid {a : SlotType} (ha : rigid a) (b : SlotType) :
    mergeTypes hierarchy a b = if a = b then a else .top := by
  unfold mergeTypes
  split
  · rfl
  · cases a <;> first | rfl | cases ha

theorem null_or_object {a : SlotType} (ha : rigid a = false) :
    a = .null ∨ ∃ reference, a = .object reference := by
  cases a with
  | null => exact .inl rfl
  | object reference => exact .inr ⟨reference, rfl⟩
  | _ => cases ha

@[simp] theorem mergeTypes_null_object (a : String) :
    mergeTypes hierarchy .null (.object a) = .object a := by
  simp [mergeTypes]

@[simp] theorem mergeTypes_object_null (a : String) :
    mergeTypes hierarchy (.object a) .null = .object a := by
  simp [mergeTypes]

@[simp] theorem mergeTypes_object (a b : String) :
    mergeTypes hierarchy (.object a) (.object b) = .object (mergeReferences hierarchy a b) := by
  by_cases hab : a = b
  · rw [hab, mergeTypes_self, mergeReferences_self]
  · simp [mergeTypes, hab]

/-- A merge makes up nothing but references to classes, and `top`: a reference is one of the two, or
the merge of both. -/
theorem mergeTypes_cases (hierarchy : Hierarchy) (a b : SlotType) :
    a = b ∧ mergeTypes hierarchy a b = a ∨ mergeTypes hierarchy a b = .top ∨
      ∃ name, mergeTypes hierarchy a b = .object name ∧ (a = .object name ∨ b = .object name ∨
        ∃ r s, a = .object r ∧ b = .object s ∧ name = mergeReferences hierarchy r s) := by
  by_cases hab : a = b
  · exact .inl ⟨hab, by rw [hab, mergeTypes_self]⟩
  · refine .inr ?_
    unfold mergeTypes
    rw [if_neg hab]
    split
    · exact .inr ⟨_, rfl, .inr (.inl rfl)⟩
    · exact .inr ⟨_, rfl, .inl rfl⟩
    · exact .inr ⟨_, rfl, .inr (.inr ⟨_, _, rfl, rfl, rfl⟩)⟩
    · exact .inl rfl

theorem rigid_mergeTypes {a b : SlotType} (ha : rigid a = false) (hb : rigid b = false) :
    rigid (mergeTypes hierarchy a b) = false := by
  rcases null_or_object ha with rfl | ⟨r, rfl⟩ <;>
    rcases null_or_object hb with rfl | ⟨s, rfl⟩ <;> simp [rigid]

theorem mergeTypes_assoc_of_rigid (hj : hierarchy.JoinsClasses) {a : SlotType} (ha : rigid a)
    (b c : SlotType) :
    mergeTypes hierarchy (mergeTypes hierarchy a b) c =
      mergeTypes hierarchy a (mergeTypes hierarchy b c) := by
  rw [mergeTypes_of_rigid ha b, mergeTypes_of_rigid ha (mergeTypes hierarchy b c)]
  by_cases hab : a = b
  · subst hab
    rw [if_pos rfl, mergeTypes_of_rigid ha c]
    grind
  · rw [if_neg hab, top_mergeTypes]
    split
    · rename_i hbc
      cases hb : rigid b with
      | true =>
        rw [mergeTypes_of_rigid hb] at hbc
        grind
      | false =>
        cases hc : rigid c with
        | true =>
          rw [mergeTypes_comm hj, mergeTypes_of_rigid hc] at hbc
          grind
        | false =>
          rw [hbc, rigid_mergeTypes hb hc] at ha
          cases ha
    · rfl

theorem mergeTypes_assoc (hj : hierarchy.JoinsClasses) (a b c : SlotType) :
    mergeTypes hierarchy (mergeTypes hierarchy a b) c =
      mergeTypes hierarchy a (mergeTypes hierarchy b c) := by
  cases ha : rigid a with
  | true => exact mergeTypes_assoc_of_rigid hj ha b c
  | false =>
    cases hc : rigid c with
    | true =>
      rw [mergeTypes_comm hj _ c, mergeTypes_comm hj a b, ← mergeTypes_assoc_of_rigid hj hc,
        mergeTypes_comm hj c b, mergeTypes_comm hj]
    | false =>
      cases hb : rigid b with
      | true =>
        rw [mergeTypes_comm hj a b, mergeTypes_of_rigid hb, mergeTypes_of_rigid hb]
        grind [top_mergeTypes, mergeTypes_top]
      | false =>
        rcases null_or_object ha with rfl | ⟨r, rfl⟩ <;>
          rcases null_or_object hb with rfl | ⟨s, rfl⟩ <;>
          rcases null_or_object hc with rfl | ⟨t, rfl⟩ <;> simp [mergeReferences_assoc hj]

end ClassTree.Flow
