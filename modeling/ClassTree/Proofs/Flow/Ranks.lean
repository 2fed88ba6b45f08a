import ClassTree.Proofs.Flow.Absorption
import ClassTree.Proofs.Hierarchy.Grades

namespace ClassTree.Flow

section Totals

variable {α : Type} {weigh : α → Nat} {l : List α}

theorem le_total {a : α} (h : a ∈ l) : weigh a ≤ total weigh l := by
  induction l with
  | nil => cases h
  | cons first rest ih =>
    rw [total]
    rcases List.mem_cons.mp h with rfl | h
    · exact Nat.le_add_right _ _
    · exact Nat.le_trans (ih h) (Nat.le_add_left _ _)

theorem total_le {bound : Nat} (h : ∀ a ∈ l, weigh a ≤ bound) :
    total weigh l ≤ l.length * bound := by
  induction l with
  | nil => exact Nat.zero_le _
  | cons first rest ih =>
    obtain ⟨hfirst, hrest⟩ := List.forall_mem_cons.mp h
    rw [total, List.length_cons, Nat.succ_mul, Nat.add_comm]
    exact Nat.add_le_add (ih hrest) hfirst

theorem total_replicate (n : Nat) (a : α) :
    total weigh (List.replicate n a) = n * weigh a := by
  induction n with
  | zero => exact (Nat.zero_mul _).symm
  | succ n ih => rw [List.replicate_succ, total, ih, Nat.succ_mul, Nat.add_comm]

/-- When an element is replaced, so is what it counts for. -/
theorem total_set {old new : α} {i : Nat} (h : l[i]? = some old) :
    total weigh (l.set i new) + weigh old = total weigh l + weigh new := by
  induction l generalizing i with
  | nil => cases h
  | cons first rest ih =>
    cases i with
    | zero =>
      obtain rfl := Option.some.inj h
      rw [List.set_cons_zero, total, total]
      omega
    | succ i =>
      have := ih h
      rw [List.set_cons_succ, total, total]
      omega

end Totals

namespace Shape

def depth : Shape → Nat
  | named _ => 0
  | primitive _ => 0
  | array _ element => element.depth + 1

/-- The class below all dimensions; there is none below primitive elements. -/
def base : Shape → String
  | named name => String.ofList name
  | primitive _ => Name.object
  | array _ element => element.base

theorem depth_ofChars_le (reference : List Char) :
    (ofChars reference).depth ≤ reference.length := by
  fun_induction ofChars reference with
  | case1 reference _ element _ hshorter ih =>
    rw [depth]
    omega
  | case2 => exact Nat.zero_le _
  | case3 => exact Nat.zero_le _

end Shape

/-- The grades of names, the names in question being those of classes that are extended and what
they are arrays of. -/
structure Grading (ancestry : Ancestry) where
  grade : String → Nat
  le : ∀ name, grade name ≤ ancestry.parents.length
  lower : ∀ {a b : String}, a ≠ b → ancestry.commonSuperclass a b ≠ Name.object →
    grade (Shape.ofChars (ancestry.commonSuperclass a b).toList).base < max (grade a) (grade b)

theorem exists_grading (ancestry : Ancestry) : Nonempty (Grading ancestry) := by
  obtain ⟨grade, hle, hlower⟩ :=
    ancestry.exists_grade fun name => (Shape.ofChars name.toList).base
  exact ⟨grade, hle, fun hab ho => hlower _ _ hab ho⟩

variable {ancestry : Ancestry} {a b : String} {bound : Nat} {s : Shape}

section Reach

variable (grading : Grading ancestry)

def Grading.weight (name : String) : Nat :=
  if name = Name.object then 0 else spread ancestry.hierarchy * (grading.grade name + 1)

def Grading.reach (s : Shape) : Nat :=
  s.depth + grading.weight s.base

variable {grading}

theorem Grading.weight_le (name : String) :
    grading.weight name ≤ spread ancestry.hierarchy * (ancestry.parents.length + 1) := by
  unfold weight
  split
  · exact Nat.zero_le _
  · exact Nat.mul_le_mul_left _ (Nat.succ_le_succ (grading.le name))

theorem Grading.reach_array (plain : Bool) (s : Shape) :
    grading.reach (.array plain s) = grading.reach s + 1 := by
  rw [reach, reach, Shape.depth, Shape.base]
  omega

theorem Grading.reach_object : grading.reach (Shape.ofChars Name.object.toList) = 0 := by
  rw [Shape.ofChars_object, reach, weight, Shape.base, String.ofList_toList, if_pos rfl]
  rfl

theorem length_le_spread {name : String} (h : ancestry.IsSuper name) :
    name.length ≤ spread ancestry.hierarchy :=
  le_total h.mem_parents

/-- The common superclass of two different classes reaches no deeper than one of them: what it is
an array of has a lower grade, and the dimensions above that are no more than a grade allows. -/
theorem Grading.reach_commonSuperclass (hab : a ≠ b) :
    grading.reach (Shape.ofChars (ancestry.commonSuperclass a b).toList) ≤
      max (grading.weight a) (grading.weight b) := by
  by_cases ho : ancestry.commonSuperclass a b = Name.object
  · rw [ho, reach_object]
    exact Nat.zero_le _
  have hdepth : (Shape.ofChars (ancestry.commonSuperclass a b).toList).depth ≤
      spread ancestry.hierarchy := by
    refine Nat.le_trans (Shape.depth_ofChars_le _) ?_
    rw [String.length_toList]
    exact length_le_spread (Ancestry.isSuper_commonSuperclass hab ho)
  have hlower := grading.lower hab ho
  have ha : a ≠ Name.object := fun he => ho (by rw [he, Ancestry.object_commonSuperclass])
  have hb : b ≠ Name.object := fun he => ho (by rw [he, Ancestry.commonSuperclass_object])
  generalize (Shape.ofChars (ancestry.commonSuperclass a b).toList) = found at hdepth hlower
  have hreach : grading.reach found ≤
      spread ancestry.hierarchy * (max (grading.grade a) (grading.grade b) + 1) := by
    have hweight : grading.weight found.base ≤
        spread ancestry.hierarchy * (grading.grade found.base + 1) := by
      unfold weight
      split
      · exact Nat.zero_le _
      · exact Nat.le_refl _
    calc grading.reach found
        ≤ spread ancestry.hierarchy + spread ancestry.hierarchy * (grading.grade found.base + 1) :=
          Nat.add_le_add hdepth hweight
      _ = spread ancestry.hierarchy * (grading.grade found.base + 1 + 1) := by
          rw [Nat.mul_succ _ (_ + 1), Nat.add_comm]
      _ ≤ _ := Nat.mul_le_mul_left _ (Nat.succ_le_succ hlower)
  rw [weight, weight, if_neg ha, if_neg hb]
  rcases Nat.le_total (grading.grade a) (grading.grade b) with h | h
  · rw [Nat.max_eq_right h] at hreach
    exact Nat.le_trans hreach (Nat.le_max_right _ _)
  · rw [Nat.max_eq_left h] at hreach
    exact Nat.le_trans hreach (Nat.le_max_left _ _)

theorem Grading.reach_named {reference : List Char}
    (h : ClassReference.isArray reference = false) :
    grading.reach (Shape.ofChars reference) = grading.weight (String.ofList reference) := by
  rw [Shape.ofChars_named h, reach, Shape.depth, Shape.base, Nat.zero_add]

/-- No merge reaches deeper than what is merged. -/
theorem Grading.reach_mergeChars (a b : List Char) :
    grading.reach (Shape.ofChars (mergeChars ancestry.hierarchy a b)) ≤
      max (grading.reach (Shape.ofChars a)) (grading.reach (Shape.ofChars b)) := by
  fun_induction mergeChars ancestry.hierarchy a b with
  | case1 a => exact Nat.le_max_left _ _
  | case2 a b _ hboth ea eb ha hb _ ih =>
    obtain ⟨hra, hrb⟩ := Bool.and_eq_true_iff.mp hboth
    rw [Shape.ofChars_arrayOf, Shape.ofChars_array hra ha, Shape.ofChars_array hrb hb]
    simp only [reach_array]
    omega
  | case3 =>
    rw [reach_object]
    exact Nat.zero_le _
  | case4 =>
    rw [reach_object]
    exact Nat.zero_le _
  | case5 a b hab _ hnone =>
    rw [Bool.or_eq_true, not_or, Bool.not_eq_true, Bool.not_eq_true] at hnone
    rw [reach_named hnone.1, reach_named hnone.2]
    exact reach_commonSuperclass fun he => hab (String.ofList_inj.mp he)

end Reach

/-- Number of classes on the chain that merging looks at, itself included. -/
def level (ancestry : Ancestry) (name : String) : Nat :=
  ((ancestry.resolved? name).map List.length).getD 1

/-- How far a type can go up, as long as it reaches no deeper than a bound. -/
def rank (ancestry : Ancestry) (bound : Nat) : Shape → Nat
  | .named name =>
    if String.ofList name = Name.object then 0
    else bound * (ancestry.parents.length + 4) + level ancestry (String.ofList name)
  | .primitive _ => 1
  | .array plain element => rank ancestry (bound - 1) element + if plain then 1 else 2

theorem level_bounds (ancestry : Ancestry) (name : String) :
    0 < level ancestry name ∧ level ancestry name ≤ ancestry.parents.length + 1 := by
  unfold level
  cases h : ancestry.resolved? name with
  | none => exact ⟨Nat.one_pos, Nat.succ_le_succ (Nat.zero_le _)⟩
  | some chain =>
    have hc := Ancestry.chain_of_resolved? h
    obtain ⟨rest, rfl⟩ := hc.head
    exact ⟨Nat.succ_pos _, hc.length_le⟩

variable {grading : Grading ancestry}

theorem rank_lt (h : grading.reach s ≤ bound) :
    rank ancestry bound s + 3 ≤ (bound + 1) * (ancestry.parents.length + 4) := by
  rw [Nat.succ_mul]
  induction s generalizing bound with
  | named name =>
    rw [rank]
    split
    · omega
    · have := (level_bounds ancestry (String.ofList name)).2
      omega
  | primitive _ =>
    rw [rank]
    omega
  | array plain element ih =>
    rw [grading.reach_array] at h
    obtain ⟨bound, rfl⟩ : ∃ n, bound = n + 1 := ⟨bound - 1, by omega⟩
    have := ih (Nat.le_of_succ_le_succ h)
    rw [rank, Nat.add_sub_cancel, Nat.succ_mul]
    split <;> omega

/-- Arrays are below all classes but the one that is above everything. -/
theorem rank_array_lt {plain : Bool} (h : grading.reach (.array plain s) ≤ bound) :
    rank ancestry bound (.array plain s) < bound * (ancestry.parents.length + 4) := by
  rw [grading.reach_array] at h
  obtain ⟨bound, rfl⟩ : ∃ n, bound = n + 1 := ⟨bound - 1, by omega⟩
  have := rank_lt (Nat.le_of_succ_le_succ h)
  rw [rank, Nat.add_sub_cancel]
  split <;> omega

/-- A superclass of a class is at a lower level. -/
theorem level_lt_of_chain {chain : List String} (ha : ancestry.resolved? a = some chain)
    (hb : b ∈ chain) (hab : b ≠ a) : level ancestry b < level ancestry a := by
  have hc := Ancestry.chain_of_resolved? ha
  obtain ⟨before, after, rfl⟩ := List.append_of_mem hb
  have hlevel : level ancestry b ≤ after.length + 1 := by
    unfold level
    cases h : ancestry.resolved? b with
    | none => exact Nat.succ_le_succ (Nat.zero_le _)
    | some rest =>
      obtain rfl := (Ancestry.chain_of_resolved? h).unique hc.rest
      exact Nat.le_refl _
  have hbefore : before ≠ [] := by
    rintro rfl
    obtain ⟨rest, he⟩ := hc.head
    exact hab (List.cons.inj he).1
  have hpos := List.length_pos_of_ne_nil hbefore
  rw [level.eq_def ancestry a, ha, Option.map_some, Option.getD_some, List.length_append,
    List.length_cons]
  omega

theorem rank_object : rank ancestry bound (Shape.ofChars Name.object.toList) = 0 := by
  rw [Shape.ofChars_object, rank, if_pos String.ofList_toList]

/-- A class goes up to what it has in common with another one, unless it is that itself. -/
theorem rank_commonSuperclass (hne : ancestry.commonSuperclass a b ≠ a)
    (hr : grading.reach (Shape.ofChars (ancestry.commonSuperclass a b).toList) ≤ bound) :
    rank ancestry bound (Shape.ofChars (ancestry.commonSuperclass a b).toList) <
      bound * (ancestry.parents.length + 4) + level ancestry a := by
  have hab : a ≠ b := fun he => hne (by rw [he, Ancestry.commonSuperclass_self])
  have hpos := (level_bounds ancestry a).1
  rcases Ancestry.commonSuperclass_cases hab with ⟨chain, _, _, ha, _, hm, _⟩ | ⟨ho, _⟩
  · have hlevel := level_lt_of_chain ha hm hne
    cases harray : ClassReference.isArray (ancestry.commonSuperclass a b).toList with
    | false =>
      rw [Shape.ofChars_named harray, rank, String.ofList_toList]
      split <;> omega
    | true =>
      cases he : ClassReference.element? (ancestry.commonSuperclass a b).toList with
      | none =>
        have := (level_bounds ancestry (ancestry.commonSuperclass a b)).1
        rw [Shape.ofChars_primitive harray he, rank]
        omega
      | some element =>
        rw [Shape.ofChars_array harray he] at hr ⊢
        have := rank_array_lt hr
        omega
  · rw [ho, rank_object]
    omega

theorem rank_pos {reference : List Char} (h : Name.object.toList ≠ reference) :
    0 < rank ancestry bound (Shape.ofChars reference) := by
  cases harray : ClassReference.isArray reference with
  | false =>
    have := (level_bounds ancestry (String.ofList reference)).1
    rw [Shape.ofChars_named harray, rank, if_neg fun he => h (by rw [← he, String.toList_ofList])]
    omega
  | true =>
    cases he : ClassReference.element? reference with
    | none =>
      rw [Shape.ofChars_primitive harray he, rank]
      exact Nat.one_pos
    | some element =>
      rw [Shape.ofChars_array harray he, rank]
      split <;> omega

/-- A merge that changes a reference goes up. -/
theorem rank_mergeChars {a b : List Char} (hne : mergeChars ancestry.hierarchy a b ≠ a)
    (ha : grading.reach (Shape.ofChars a) ≤ bound)
    (hb : grading.reach (Shape.ofChars b) ≤ bound) :
    rank ancestry bound (Shape.ofChars (mergeChars ancestry.hierarchy a b)) <
      rank ancestry bound (Shape.ofChars a) := by
  fun_induction mergeChars ancestry.hierarchy a b generalizing bound with
  | case1 => exact absurd rfl hne
  | case2 a b _ hboth ea eb hea heb _ ih =>
    obtain ⟨hra, hrb⟩ := Bool.and_eq_true_iff.mp hboth
    rw [Shape.ofChars_array hra hea] at ha ⊢
    rw [Shape.ofChars_array hrb heb] at hb
    rw [grading.reach_array] at ha hb
    rw [Shape.ofChars_arrayOf, rank, rank, if_pos rfl]
    by_cases hsame : mergeChars ancestry.hierarchy ea eb = ea
    · -- the array is spelled like one of classes, but is one of arrays
      rw [hsame] at hne ⊢
      rw [if_neg (by simpa using hne)]
      exact Nat.lt_succ_self _
    · have hea' : grading.reach (Shape.ofChars ea) ≤ bound - 1 := by omega
      have hlt := ih hsame hea' (by omega)
      split <;> omega
  | case3 =>
    rw [rank_object]
    exact rank_pos hne
  | case4 =>
    rw [rank_object]
    exact rank_pos hne
  | case5 a b hab _ hnone =>
    rw [Bool.or_eq_true, not_or, Bool.not_eq_true, Bool.not_eq_true] at hnone
    rw [Ancestry.hierarchy_commonSuperclass] at hne ⊢
    have hne' : ancestry.commonSuperclass (String.ofList a) (String.ofList b) ≠ String.ofList a :=
      fun he => hne (by rw [he, String.toList_ofList])
    have ho : String.ofList a ≠ Name.object := fun he =>
      hne' (by rw [he, Ancestry.object_commonSuperclass])
    rw [grading.reach_named hnone.1] at ha
    rw [grading.reach_named hnone.2] at hb
    have hr := @Grading.reach_commonSuperclass _ _ _ grading fun he =>
      hab (String.ofList_inj.mp he)
    rw [Shape.ofChars_named hnone.1, rank, if_neg ho]
    exact rank_commonSuperclass hne' (Nat.le_trans hr (Nat.max_le.mpr ⟨ha, hb⟩))

def Grading.Within (grading : Grading ancestry) (bound : Nat) (type : SlotType) : Prop :=
  ∀ reference, type = .object reference → grading.reach (Shape.ofChars reference.toList) ≤ bound

theorem Grading.Within.reach {reference : String}
    (h : grading.Within bound (.object reference)) :
    grading.reach (Shape.ofChars reference.toList) ≤ bound :=
  h reference rfl

theorem Grading.Within.merge {type₁ type₂ : SlotType} (h₁ : grading.Within bound type₁)
    (h₂ : grading.Within bound type₂) :
    grading.Within bound (mergeTypes ancestry.hierarchy type₁ type₂) := by
  rcases mergeTypes_cases ancestry.hierarchy type₁ type₂ with
    ⟨-, he⟩ | he | ⟨name, he, rfl | rfl | ⟨r, s, rfl, rfl, rfl⟩⟩
  · rwa [he]
  · rw [he]
    intro reference hr
    cases hr
  · rwa [he]
  · rwa [he]
  · rw [he]
    intro reference hr
    obtain rfl := VerificationType.object.inj hr
    rw [toList_mergeReferences]
    exact Nat.le_trans (grading.reach_mergeChars _ _) (Nat.max_le.mpr ⟨h₁.reach, h₂.reach⟩)

/-- How far the type of a slot can go up. The type of no object but `null` is below all objects, and
all that is not allowed for ends at `top`. -/
def slotRank (ancestry : Ancestry) (bound : Nat) : SlotType → Nat
  | .top => 0
  | .object reference => rank ancestry bound (Shape.ofChars reference.toList) + 1
  | .null => (bound + 1) * (ancestry.parents.length + 4)
  | _ => 1

theorem slotRank_le {type : SlotType} (h : grading.Within bound type) :
    slotRank ancestry bound type ≤ (bound + 1) * (ancestry.parents.length + 4) := by
  have hpos : 1 ≤ (bound + 1) * (ancestry.parents.length + 4) :=
    Nat.mul_pos (Nat.succ_pos _) (Nat.succ_pos _)
  cases type with
  | top => exact Nat.zero_le _
  | object reference =>
    have := rank_lt h.reach
    rw [slotRank]
    omega
  | null => exact Nat.le_refl _
  | _ => exact hpos

/-- A merge that changes a type goes up. -/
theorem slotRank_mergeTypes {type₁ type₂ : SlotType} (h₁ : grading.Within bound type₁)
    (h₂ : grading.Within bound type₂) (hne : mergeTypes ancestry.hierarchy type₁ type₂ ≠ type₁) :
    slotRank ancestry bound (mergeTypes ancestry.hierarchy type₁ type₂) <
      slotRank ancestry bound type₁ := by
  have hpos : 1 ≤ (bound + 1) * (ancestry.parents.length + 4) :=
    Nat.mul_pos (Nat.succ_pos _) (Nat.succ_pos _)
  unfold mergeTypes at hne ⊢
  split at hne
  · exact absurd rfl hne
  · rw [if_neg ‹_›]
    split at hne
    · have := rank_lt h₂.reach
      simp only [slotRank]
      omega
    · exact absurd rfl hne
    · have hne' : mergeChars ancestry.hierarchy _ _ ≠ String.toList _ := fun he =>
        hne (congrArg _ (String.toList_injective ((toList_mergeReferences _ _).trans he)))
      have := rank_mergeChars hne' h₁.reach h₂.reach
      simp only [slotRank, toList_mergeReferences]
      omega
    · cases type₁ with
      | top => exact absurd rfl hne
      | object reference => exact Nat.succ_pos _
      | null => exact hpos
      | _ => exact Nat.one_pos

/-- How far types can go up altogether; for each of them, so much more is lost when it is
dropped. -/
def listRank (ancestry : Ancestry) (bound more : Nat) (types : List SlotType) : Nat :=
  total (fun type => slotRank ancestry bound type + more) types

/-- A merge that changes a list of types goes up. -/
theorem listRank_zipWith {more : Nat} {e g : List SlotType}
    (he : ∀ type ∈ e, grading.Within bound type) (hg : ∀ type ∈ g, grading.Within bound type)
    (hlen : 0 < more ∨ e.length ≤ g.length)
    (hne : List.zipWith (mergeTypes ancestry.hierarchy) e g ≠ e) :
    listRank ancestry bound more (List.zipWith (mergeTypes ancestry.hierarchy) e g) <
      listRank ancestry bound more e := by
  induction e generalizing g with
  | nil => exact absurd rfl hne
  | cons x e ih =>
    cases g with
    | nil =>
      have hmore : 0 < more := hlen.resolve_right (Nat.not_succ_le_zero _)
      simp only [listRank, List.zipWith_nil_right, total]
      omega
    | cons y g =>
      obtain ⟨hx, he⟩ := List.forall_mem_cons.mp he
      obtain ⟨hy, hg⟩ := List.forall_mem_cons.mp hg
      have htail : List.zipWith (mergeTypes ancestry.hierarchy) e g ≠ e →
          listRank ancestry bound more (List.zipWith (mergeTypes ancestry.hierarchy) e g) <
            listRank ancestry bound more e :=
        ih he hg (hlen.imp_right Nat.le_of_succ_le_succ)
      rw [List.zipWith_cons_cons] at hne ⊢
      simp only [listRank, total] at htail ⊢
      by_cases hhead : mergeTypes ancestry.hierarchy x y = x
      · rw [hhead] at hne ⊢
        have := htail fun hsame => hne (by rw [hsame])
        omega
      · have := slotRank_mergeTypes hx hy hhead
        by_cases hsame : List.zipWith (mergeTypes ancestry.hierarchy) e g = e
        · rw [hsame]
          omega
        · have := htail hsame
          omega

theorem listRank_le {more : Nat} {types : List SlotType}
    (h : ∀ type ∈ types, grading.Within bound type) : listRank ancestry bound more types ≤
      types.length * ((bound + 1) * (ancestry.parents.length + 4) + more) :=
  total_le fun type hm => Nat.add_le_add_right (slotRank_le (h type hm)) more

/-- How far the types in a frame can go up. Locals can also be dropped. -/
def frameRank (ancestry : Ancestry) (bound : Nat) (f : SlotFrame) : Nat :=
  listRank ancestry bound 1 f.locals + listRank ancestry bound 0 f.stack

def Grading.Bounds (grading : Grading ancestry) (bound : Nat) (f : SlotFrame) : Prop :=
  (∀ type ∈ f.locals, grading.Within bound type) ∧ ∀ type ∈ f.stack, grading.Within bound type

/-- A merge that changes a frame goes up. -/
theorem frameRank_mergeFrames {f g merged : SlotFrame} (hf : grading.Bounds bound f)
    (hg : grading.Bounds bound g) (hm : mergeFrames ancestry.hierarchy f g = .ok merged)
    (hne : merged ≠ f) : frameRank ancestry bound merged < frameRank ancestry bound f := by
  obtain ⟨hlen, -, rfl⟩ := mergeFrames_eq_ok.mp hm
  have hlocals := @listRank_zipWith _ bound grading 1 _ _ hf.1 hg.1 (.inl Nat.one_pos)
  have hstack := @listRank_zipWith _ bound grading 0 _ _ hf.2 hg.2 (.inr (Nat.le_of_eq hlen))
  unfold frameRank
  dsimp only
  by_cases hl : List.zipWith (mergeTypes ancestry.hierarchy) f.locals g.locals = f.locals
  · have := hstack fun hs => hne (by rw [hl, hs])
    rw [hl]
    omega
  · have := hlocals hl
    by_cases hs : List.zipWith (mergeTypes ancestry.hierarchy) f.stack g.stack = f.stack
    · rw [hs]
      omega
    · have := hstack hs
      omega

theorem frameRank_le {f : SlotFrame} {slots : Nat} (hf : grading.Bounds bound f)
    (hslots : f.locals.length + f.stack.length ≤ slots) : frameRank ancestry bound f ≤
      slots * ((bound + 1) * (ancestry.parents.length + 4) + 1) := by
  have hlocals := @listRank_le _ bound grading 1 _ hf.1
  have hstack := @listRank_le _ bound grading 0 _ hf.2
  refine Nat.le_trans (Nat.add_le_add hlocals (Nat.le_trans hstack
    (Nat.mul_le_mul_left _ (Nat.le_succ _)))) ?_
  rw [← Nat.add_mul]
  exact Nat.mul_le_mul_right _ hslots

end ClassTree.Flow
