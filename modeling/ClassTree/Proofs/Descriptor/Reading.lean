import ClassTree.Descriptor.Parser
import ClassTree.Proofs.Outcome
import Mathlib.Data.List.TakeWhile

namespace ClassTree

open Name

namespace Name

theorem mem_segments {chars : List Char} {c : Char} (h : c ∈ chars) (hc : c ≠ '/') :
    ∃ segment ∈ segments chars, c ∈ segment := by
  induction chars with
  | nil => cases h
  | cons first chars ih =>
    unfold segments at ih ⊢
    rw [List.foldr_cons]
    generalize chars.foldr _ [[]] = found at ih ⊢
    rcases List.mem_cons.mp h with rfl | h
    · rw [if_neg hc]
      split <;> simp
    · obtain ⟨segment, hs, hm⟩ := ih h
      split
      · exact ⟨segment, List.mem_cons_of_mem _ hs, hm⟩
      · split
        · cases hs
        · rcases List.mem_cons.mp hs with rfl | hs
          · exact ⟨_, List.mem_cons_self, List.mem_cons_of_mem _ hm⟩
          · exact ⟨segment, List.mem_cons_of_mem _ hs, hm⟩

/-- Of the characters that delimit names, only slashes occur in the name of a class. -/
theorem isDelimiter_of_mem {name : String} (h : checkBinary name = .ok ()) {c : Char}
    (hm : c ∈ name.toList) (hc : c ≠ '/') : isDelimiter c = false := by
  unfold checkBinary at h
  split at h
  · cases h
  · obtain ⟨segment, hs, hmem⟩ := mem_segments hm hc
    have hsegment := forM_eq_ok.mp h segment hs
    unfold checkUnqualified at hsegment
    split at hsegment
    · cases hsegment
    · rename_i hnone
      rw [String.toList_ofList] at hnone
      by_contra hd
      exact hnone (List.any_eq_true.mpr ⟨c, hmem, by simpa using hd⟩)

end Name

namespace BinaryName

theorem ofString_eq_ok {text : String} {name : BinaryName} :
    ofString text = .ok name ↔ name.text = text := by
  obtain ⟨other, valid⟩ := name
  unfold ofString
  split
  · simp [eq_comm]
  · rename_i fault h
    refine iff_of_false nofun ?_
    rintro rfl
    rw [valid] at h
    cases h

theorem not_mem_of_isDelimiter (name : BinaryName) {c : Char} (h : isDelimiter c = true)
    (hc : c ≠ '/') : c ∉ name.text.toList := by
  intro hm
  rw [isDelimiter_of_mem name.valid hm hc] at h
  cases h

end BinaryName

namespace Scan

variable {α β : Type} {scan : Scan α} {render : α → List Char}

def Inverts (scan : Scan α) (render : α → List Char) : Prop :=
  ∀ {text value rest}, scan text = .ok (value, rest) ↔ text = render value ++ rest

theorem Inverts.written (h : Inverts scan render) {text rest : List Char} {value : α}
    (hs : scan text = .ok (value, rest)) : text = render value ++ rest :=
  h.mp hs

theorem Inverts.found (h : Inverts scan render) (value : α) (rest : List Char) :
    scan (render value ++ rest) = .ok (value, rest) :=
  h.mpr rfl

/-- What is left over is why a text is refused in which a value is followed by anything else. -/
theorem Inverts.complete_append (h : Inverts scan render) (value : α) (rest : List Char) :
    complete scan (String.ofList (render value) ++ String.ofList rest) =
      match rest with
      | [] => .ok value
      | c :: _ => .error (.leftover c) := by
  have hscan : scan (String.ofList (render value) ++ String.ofList rest).toList =
      .ok (value, rest) := by
    rw [String.toList_append, String.toList_ofList, String.toList_ofList, h]
  rw [complete, hscan]
  cases rest <;> rfl

theorem Inverts.complete_eq_ok (h : Inverts scan render) {text : String} {value : α} :
    complete scan text = .ok value ↔ String.ofList (render value) = text := by
  constructor
  · intro hc
    obtain ⟨⟨found, rest⟩, hs, hc⟩ := bind_eq_ok.mp hc
    cases rest with
    | nil =>
      obtain rfl : found = value := Except.ok.inj hc
      rw [← List.append_nil (render found), ← h.mp hs, String.ofList_toList]
    | cons c rest => cases hc
  · rintro rfl
    simpa using h.complete_append value []

end Scan

theorem BaseType.ofLetter?_eq_some {c : Char} {type : BaseType} :
    ofLetter? c = some type ↔ c = type.letter := by
  constructor
  · intro h
    unfold ofLetter? at h
    split at h <;> cases h <;> rfl
  · rintro rfl
    cases type <;> rfl

theorem BaseType.scan_inverts : Scan.Inverts scan fun type => [type.letter] := by
  intro text type rest
  cases text with
  | nil => exact iff_of_false nofun nofun
  | cons c text =>
    rw [List.singleton_append, List.cons.injEq, ← ofLetter?_eq_some, scan]
    cases h : ofLetter? c with
    | none => simp
    | some found => simp

theorem BinaryName.scan_inverts :
    Scan.Inverts scan fun name => (ElementType.object name).render := by
  intro text name rest
  have hends : ∀ c ∈ name.text.toList, (decide (c ≠ ';')) = true := fun c hm =>
    decide_eq_true fun he => name.not_mem_of_isDelimiter rfl (by decide) (he ▸ hm)
  change _ ↔ text = ('L' :: name.text.toList ++ [';']) ++ rest
  constructor
  · intro h
    unfold scan at h
    split at h
    · rename_i text
      dsimp only at h
      split at h
      · rename_i last after hdrop
        split at h
        · rename_i found hfound
          cases h
          have hlast : last = ';' := by
            have := List.head?_dropWhile_not (fun c => decide (c ≠ ';')) text
            rw [hdrop] at this
            simpa using this
          rw [ofString_eq_ok.mp hfound, String.toList_ofList]
          conv_lhs =>
            rw [← List.takeWhile_append_dropWhile (p := (· ≠ ';')) (l := text), hdrop, hlast]
          simp
        · cases h
      · cases h
    · cases h
  · rintro rfl
    have htake : ((name.text.toList ++ ';' :: rest).takeWhile (· ≠ ';')) = name.text.toList := by
      rw [List.takeWhile_append_of_pos hends]
      simp
    have hdrop : ((name.text.toList ++ ';' :: rest).dropWhile (· ≠ ';')) = ';' :: rest := by
      rw [List.dropWhile_append_of_pos hends]
      simp
    have hname : ofString name.text = .ok name := ofString_eq_ok.mpr rfl
    rw [List.append_assoc, List.singleton_append, List.cons_append, scan]
    rw [htake, hdrop, String.ofList_toList, hname]

namespace ElementType

/-- Brackets before an element belong to the array. -/
theorem exists_render_eq_cons (type : ElementType) :
    ∃ c rest, type.render = c :: rest ∧ c ≠ '[' ∧
      (c = 'L' ∨ ∃ base : BaseType, c = base.letter) := by
  cases type with
  | base type => exact ⟨type.letter, [], rfl, by cases type <;> decide, .inr ⟨type, rfl⟩⟩
  | object name => exact ⟨'L', name.text.toList ++ [';'], rfl, by decide, .inl rfl⟩

theorem scan_inverts : Scan.Inverts scan render := by
  intro text type rest
  constructor
  · intro h
    unfold scan at h
    split at h
    · obtain ⟨⟨name, after⟩, hs, hp⟩ := bind_eq_ok.mp h
      cases hp
      exact Scan.Inverts.written BinaryName.scan_inverts hs
    · obtain ⟨⟨base, after⟩, hs, hp⟩ := bind_eq_ok.mp h
      cases hp
      exact Scan.Inverts.written BaseType.scan_inverts hs
  · rintro rfl
    cases type with
    | base type => cases type <;> rfl
    | object name =>
      exact bind_eq_ok.mpr ⟨_, Scan.Inverts.found BinaryName.scan_inverts name rest, rfl⟩

end ElementType

namespace RefType

theorem scan_inverts : Scan.Inverts scan render := by
  intro text type rest
  constructor
  · intro h
    unfold scan at h
    split at h
    · cases h
    · obtain ⟨⟨name, after⟩, hs, hp⟩ := bind_eq_ok.mp h
      cases hp
      exact Scan.Inverts.written BinaryName.scan_inverts hs
    · rename_i text
      obtain ⟨⟨element, after⟩, hs, hp⟩ := bind_eq_ok.mp h
      cases hp
      have hbrackets : text.takeWhile (· = '[') =
          List.replicate (text.takeWhile (· = '[')).length '[' :=
        List.eq_replicate_iff.mpr ⟨rfl, fun c hc => by simpa using List.mem_takeWhile_imp hc⟩
      rw [render, List.replicate_succ, ← hbrackets, List.append_assoc,
        ← Scan.Inverts.written ElementType.scan_inverts hs, List.cons_append,
        List.takeWhile_append_dropWhile]
    · cases h
  · rintro rfl
    cases type with
    | object name =>
      exact bind_eq_ok.mpr ⟨_, Scan.Inverts.found BinaryName.scan_inverts name rest, rfl⟩
    | array extra element =>
      obtain ⟨c, tail, hrender, hc, -⟩ := element.exists_render_eq_cons
      have hopen : ∀ c ∈ List.replicate extra '[', decide (c = '[') = true := fun c hm =>
        decide_eq_true (List.eq_of_mem_replicate hm)
      have htake : ((List.replicate extra '[' ++ (element.render ++ rest)).takeWhile (· = '[')) =
          List.replicate extra '[' := by
        rw [List.takeWhile_append_of_pos hopen, hrender]
        simp [hc]
      have hdrop : ((List.replicate extra '[' ++ (element.render ++ rest)).dropWhile (· = '[')) =
          element.render ++ rest := by
        rw [List.dropWhile_append_of_pos hopen, hrender]
        simp [hc]
      have hs := Scan.Inverts.found ElementType.scan_inverts element rest
      rw [render, List.replicate_succ, List.cons_append, List.cons_append, List.append_assoc, scan,
        htake, hdrop, hs, List.length_replicate]
      rfl

end RefType

namespace FieldType

/-- A closing parenthesis ends the parameters, since no type begins with one. -/
theorem exists_render_eq_cons (type : FieldType) :
    ∃ c rest, type.render = c :: rest ∧ c ≠ ')' ∧ c ≠ 'V' := by
  cases type with
  | base type => exact ⟨type.letter, [], rfl, by cases type <;> decide, by cases type <;> decide⟩
  | ref type =>
    cases type with
    | object name => exact ⟨'L', name.text.toList ++ [';'], rfl, by decide, by decide⟩
    | array extra element =>
      exact ⟨'[', List.replicate extra '[' ++ element.render, rfl, by decide, by decide⟩

theorem scan_inverts : Scan.Inverts scan render := by
  intro text type rest
  constructor
  · intro h
    unfold scan at h
    split at h
    · cases h
    · rename_i c text
      split at h
      · rename_i base hbase
        cases h
        rw [BaseType.ofLetter?_eq_some.mp hbase]
        rfl
      · split at h
        · obtain ⟨⟨found, after⟩, hs, hp⟩ := bind_eq_ok.mp h
          cases hp
          exact Scan.Inverts.written RefType.scan_inverts hs
        · cases h
  · rintro rfl
    cases type with
    | base type =>
      have hbase : BaseType.ofLetter? type.letter = some type := BaseType.ofLetter?_eq_some.mpr rfl
      change scan (type.letter :: rest) = _
      rw [scan, hbase]
    | ref type =>
      have hs := Scan.Inverts.found RefType.scan_inverts type rest
      obtain ⟨c, tail, hrender, hc⟩ : ∃ c tail, type.render = c :: tail ∧ (c = 'L' ∨ c = '[') := by
        cases type with
        | object name => exact ⟨'L', name.text.toList ++ [';'], rfl, .inl rfl⟩
        | array extra element =>
          exact ⟨'[', List.replicate extra '[' ++ element.render, rfl, .inr rfl⟩
      have hbase : BaseType.ofLetter? c = none := by
        rcases hc with rfl | rfl <;> rfl
      rw [hrender, List.cons_append] at hs
      rw [render, hrender, List.cons_append, scan, hbase]
      dsimp only
      rw [if_pos hc, hs]
      rfl

end FieldType

namespace MethodType

theorem scanParameters_eq_ok {found parameters : List FieldType} {text rest : List Char} :
    scanParameters found text = .ok (parameters, rest) ↔
      ∃ more, parameters = found.reverse ++ more ∧
        text = more.flatMap FieldType.render ++ rest ∧ rest.head? = some ')' := by
  constructor
  · intro h
    fun_induction scanParameters found text with
    | case1 found text hclose =>
      cases h
      exact ⟨[], (List.append_nil _).symm, rfl, hclose⟩
    | case2 => cases h
    | case3 found text _ type after hs _ ih =>
      obtain ⟨more, rfl, rfl, hclose⟩ := ih h
      refine ⟨type :: more, by simp, ?_, hclose⟩
      rw [Scan.Inverts.written FieldType.scan_inverts hs, List.flatMap_cons, List.append_assoc]
  · rintro ⟨more, rfl, rfl, hclose⟩
    induction more generalizing found with
    | nil =>
      rw [scanParameters, List.flatMap_nil, List.nil_append, if_pos hclose, List.append_nil]
    | cons type more ih =>
      obtain ⟨c, tail, hrender, hc, -⟩ := type.exists_render_eq_cons
      have hs := Scan.Inverts.found FieldType.scan_inverts type
        (more.flatMap FieldType.render ++ rest)
      have hopen : ¬ (type.render ++ (more.flatMap FieldType.render ++ rest)).head? = some ')' := by
        simpa [hrender] using hc
      rw [List.flatMap_cons, List.append_assoc, scanParameters, if_neg hopen]
      split
      · rename_i fault hfault
        cases hfault.symm.trans hs
      · rename_i found' after hfound
        cases hfound.symm.trans hs
        rw [ih]
        simp

theorem scan_inverts : Scan.Inverts scan render := by
  intro text type rest
  constructor
  · intro h
    unfold scan at h
    split at h
    · obtain ⟨⟨parameters, after⟩, hparameters, hresult⟩ := bind_eq_ok.mp h
      obtain ⟨more, rfl, rfl, hclose⟩ := scanParameters_eq_ok.mp hparameters
      dsimp only at hresult
      split at hresult
      · cases hresult
        simp [render]
      · obtain ⟨⟨result, last⟩, hscan, hp⟩ := bind_eq_ok.mp hresult
        cases hp
        rw [Scan.Inverts.written FieldType.scan_inverts hscan]
        simp [render]
      · cases hresult
    · cases h
  · rintro rfl
    obtain ⟨parameters, result⟩ := type
    have hparameters : ∀ after, scanParameters []
        (parameters.flatMap FieldType.render ++ ')' :: after) = .ok (parameters, ')' :: after) :=
      fun after => scanParameters_eq_ok.mpr ⟨parameters, rfl, rfl, rfl⟩
    simp only [render, List.cons_append, List.append_assoc]
    rw [scan]
    refine bind_eq_ok.mpr ⟨_, hparameters _, ?_⟩
    cases result with
    | none => rfl
    | some result =>
      obtain ⟨c, tail, hrender, -, hc⟩ := result.exists_render_eq_cons
      have hs := Scan.Inverts.found FieldType.scan_inverts result rest
      dsimp only [Option.map_some, Option.getD_some]
      split
      · rename_i after he
        rw [hrender] at he
        exact absurd (List.cons.inj (List.cons.inj he).2).1 hc
      · rename_i after _ he
        obtain rfl := (List.cons.inj he).2
        exact bind_eq_ok.mpr ⟨_, hs, rfl⟩
      · rename_i hother
        exact absurd rfl (hother _)

end MethodType

namespace RefType

theorem head?_descriptor_array (extra : Nat) (element : ElementType) :
    (array extra element).descriptor.toList.head? = some '[' := by
  rw [descriptor, String.toList_ofList]
  rfl

theorem ofClassReference_eq_ok {text : String} {type : RefType} :
    ofClassReference text = .ok type ↔ type.classReference = text := by
  unfold ofClassReference
  split
  · rename_i hopen
    rw [parse, Scan.Inverts.complete_eq_ok scan_inverts]
    cases type with
    | array extra element => rfl
    | object name =>
      refine iff_of_false ?_ ?_
      · rintro rfl
        rw [String.toList_ofList] at hopen
        exact absurd (Option.some.inj hopen) (by decide)
      · rintro rfl
        exact name.not_mem_of_isDelimiter (c := '[') rfl (by decide) (List.mem_of_head? hopen)
  · rename_i hopen
    cases type with
    | array extra element =>
      refine iff_of_false (by split <;> nofun) ?_
      rintro rfl
      exact hopen (head?_descriptor_array extra element)
    | object name =>
      rw [classReference, ← BinaryName.ofString_eq_ok]
      split
      · rename_i found hfound
        simp [hfound]
      · rename_i fault hfault
        simp [hfault]

end RefType

def ElementType.names : ElementType → List BinaryName
  | base _ => []
  | object name => [name]

def RefType.names : RefType → List BinaryName
  | object name => [name]
  | array _ element => element.names

def FieldType.names : FieldType → List BinaryName
  | base _ => []
  | ref type => type.names

def MethodType.names (type : MethodType) : List BinaryName :=
  type.parameters.flatMap FieldType.names ++ type.result.toList.flatMap FieldType.names

namespace Descriptor

variable {α : Type} {read : String → Except DescriptorFault α} {write : α → String}
  {names : α → List BinaryName}

/-- Reading takes back what writing does, and takes nothing else. -/
structure Inverse (read : String → Except DescriptorFault α) (write : α → String)
    (names : α → List BinaryName) : Prop where
  accepts : ∀ text value, read text = .ok value ↔
    (∀ name ∈ names value, checkBinary name.text = .ok ()) ∧ write value = text
  injective : write.Injective
  refuses : ∀ text, (∃ fault, read text = .error fault) ↔ ∀ value, write value ≠ text

/-- What follows a whole descriptor is why it is refused. -/
def RefusesMore (read : String → Except DescriptorFault α) (write : α → String) : Prop :=
  ∀ value c rest, read (write value ++ String.ofList (c :: rest)) = .error (.leftover c)

theorem inverse_of_eq_ok (h : ∀ {text value}, read text = .ok value ↔ write value = text) :
    Inverse read write names where
  accepts := fun _ _ => h.trans ⟨fun he => ⟨fun name _ => name.valid, he⟩, And.right⟩
  injective := fun _ _ he => Except.ok.inj ((h.mpr he).symm.trans (h.mpr rfl))
  refuses := by
    intro text
    cases hread : read text with
    | error fault =>
      refine iff_of_true ⟨fault, rfl⟩ fun value he => ?_
      rw [h.mpr he] at hread
      cases hread
    | ok value => exact iff_of_false nofun fun hnone => hnone value (h.mp hread)

/-- Every descriptor, and every reference to a class, is read as the one type that is written so. -/
theorem read_iff_written :
    (Inverse FieldType.parse FieldType.descriptor FieldType.names ∧
      RefusesMore FieldType.parse FieldType.descriptor) ∧
    (Inverse RefType.parse RefType.descriptor RefType.names ∧
      RefusesMore RefType.parse RefType.descriptor) ∧
    (Inverse MethodType.parse MethodType.descriptor MethodType.names ∧
      RefusesMore MethodType.parse MethodType.descriptor) ∧
    Inverse RefType.ofClassReference RefType.classReference RefType.names :=
  ⟨⟨inverse_of_eq_ok FieldType.scan_inverts.complete_eq_ok,
      fun type c rest => FieldType.scan_inverts.complete_append type (c :: rest)⟩,
    ⟨inverse_of_eq_ok RefType.scan_inverts.complete_eq_ok,
      fun type c rest => RefType.scan_inverts.complete_append type (c :: rest)⟩,
    ⟨inverse_of_eq_ok MethodType.scan_inverts.complete_eq_ok,
      fun type c rest => MethodType.scan_inverts.complete_append type (c :: rest)⟩,
    inverse_of_eq_ok RefType.ofClassReference_eq_ok⟩

end Descriptor
end ClassTree
