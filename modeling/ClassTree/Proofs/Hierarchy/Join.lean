import ClassTree.Flow.ClassReference
import ClassTree.Hierarchy.Library

namespace ClassTree

/-- What two classes have in common is their join. -/
structure Hierarchy.IsJoin (hierarchy : Hierarchy) : Prop where
  idem : ∀ a, hierarchy.commonSuperclass a a = a
  comm : ∀ a b, hierarchy.commonSuperclass a b = hierarchy.commonSuperclass b a
  assoc : ∀ a b c, hierarchy.commonSuperclass (hierarchy.commonSuperclass a b) c =
    hierarchy.commonSuperclass a (hierarchy.commonSuperclass b c)

/-- It is so among classes: `java/lang/Object` is above all of them, and none is spelled like an
array type. Merging types needs this, as arrays have `java/lang/Object` in common with classes
whatever the hierarchy says. -/
structure Hierarchy.JoinsClasses (hierarchy : Hierarchy) : Prop extends hierarchy.IsJoin where
  object : ∀ a, hierarchy.commonSuperclass a Name.object = Name.object
  named : ∀ {a b}, ClassReference.isArray a.toList = false →
    ClassReference.isArray b.toList = false →
    ClassReference.isArray (hierarchy.commonSuperclass a b).toList = false

namespace Ancestry

def ExtendsClasses (ancestry : Ancestry) : Prop :=
  ∀ {name parent : String} {info above : ClassInfo}, ancestry.info? name = some info →
    info.isInterface = false → info.superName = some parent → parent ≠ Name.object →
    ancestry.info? parent = some above → above.isInterface = false

inductive Chain (ancestry : Ancestry) : String → List String → Prop
  | object : Chain ancestry Name.object [Name.object]
  | root {name : String} {info : ClassInfo} (hn : name ≠ Name.object)
      (known : ancestry.info? name = some info) (last : info.superName = none) :
      Chain ancestry name [name]
  | step {name parent : String} {info : ClassInfo} {rest : List String} (hn : name ≠ Name.object)
      (known : ancestry.info? name = some info) (up : info.superName = some parent)
      (tail : Chain ancestry parent rest) : Chain ancestry name (name :: rest)

variable {ancestry : Ancestry} {name a b c x y z : String} {l m : List String}

@[simp] theorem commonSuperclass_self (a : String) : ancestry.commonSuperclass a a = a := by
  simp [commonSuperclass]

@[simp] theorem commonSuperclass_object (a : String) :
    ancestry.commonSuperclass a Name.object = Name.object := by
  unfold commonSuperclass
  split <;> simp_all

@[simp] theorem object_commonSuperclass (a : String) :
    ancestry.commonSuperclass Name.object a = Name.object := by
  unfold commonSuperclass
  split <;> simp_all

theorem chain_of_chainWithin {n : Nat} (h : ancestry.chainWithin n name = some l) :
    ancestry.Chain name l ∧ l.length ≤ n := by
  induction n generalizing name l with
  | zero => simp [chainWithin] at h
  | succ n ih =>
    unfold chainWithin at h
    split at h
    · rename_i ho
      obtain rfl := Option.some.inj h
      exact ⟨ho ▸ .object, by simp⟩
    · rename_i ho
      split at h
      · cases h
      · rename_i info hi
        split at h
        · rename_i hs
          obtain rfl := Option.some.inj h
          exact ⟨.root ho hi hs, by simp⟩
        · rename_i parent hp
          obtain ⟨rest, hr, rfl⟩ := Option.map_eq_some_iff.mp h
          obtain ⟨hc, hl⟩ := ih hr
          exact ⟨.step ho hi hp hc, by simpa using hl⟩

theorem Chain.within (h : ancestry.Chain name l) {n : Nat} (hn : l.length ≤ n) :
    ancestry.chainWithin n name = some l := by
  induction h generalizing n with
  | object =>
    obtain ⟨k, rfl⟩ : ∃ k, n = k + 1 := ⟨n - 1, by simp at hn; omega⟩
    simp [chainWithin]
  | root ho hi hs =>
    obtain ⟨k, rfl⟩ : ∃ k, n = k + 1 := ⟨n - 1, by simp at hn; omega⟩
    simp [chainWithin, ho, hi, hs]
  | step ho hi hp tail ih =>
    obtain ⟨k, rfl⟩ : ∃ k, n = k + 1 := ⟨n - 1, by simp at hn; omega⟩
    simp only [List.length_cons, Nat.add_le_add_iff_right] at hn
    simp [chainWithin, ho, hi, hp, ih hn]

theorem Chain.head (h : ancestry.Chain name l) : ∃ rest, l = name :: rest := by
  cases h with
  | object => exact ⟨[], rfl⟩
  | root => exact ⟨[], rfl⟩
  | step => exact ⟨_, rfl⟩

/-- A class on a chain starts a chain of its own, which is the rest of the first one. -/
theorem Chain.rest {before after : List String}
    (h : ancestry.Chain name (before ++ x :: after)) : ancestry.Chain x (x :: after) := by
  induction before generalizing name with
  | nil =>
    obtain ⟨rest, hr⟩ := h.head
    obtain rfl : x = name := (List.cons.inj hr).1
    exact h
  | cons first before ih =>
    generalize hl : first :: before ++ x :: after = l at h
    cases h with
    | object => simp at hl
    | root => simp at hl
    | step hn known up tail =>
      obtain ⟨_, rfl⟩ := List.cons.inj hl
      exact ih tail

def IsSuper (ancestry : Ancestry) (parent : String) : Prop :=
  ∃ name info, ancestry.info? name = some info ∧ info.superName = some parent

theorem IsSuper.mem_parents (h : ancestry.IsSuper x) : x ∈ ancestry.parents := by
  obtain ⟨_, _, known, up⟩ := h
  exact ancestry.complete known up

/-- Whatever comes on a chain after its start is a superclass. -/
theorem Chain.isSuper (h : ancestry.Chain name l) (hx : x ∈ l) :
    x = name ∨ ancestry.IsSuper x := by
  induction h with
  | object => exact .inl (List.mem_singleton.mp hx)
  | root => exact .inl (List.mem_singleton.mp hx)
  | step hn known up tail ih =>
    rcases List.mem_cons.mp hx with rfl | hx
    · exact .inl rfl
    · rcases ih hx with rfl | hm
      · exact .inr ⟨_, _, known, up⟩
      · exact .inr hm

/-- Whatever is on the chain of a class is a class, too. -/
theorem Chain.isClass (hc : ancestry.ExtendsClasses) (h : ancestry.Chain name l)
    (hn : name = Name.object ∨ ancestry.isClass name = true) (hx : x ∈ l) :
    x = Name.object ∨ ancestry.isClass x = true := by
  induction h with
  | object => exact .inl (List.mem_singleton.mp hx)
  | root => exact List.mem_singleton.mp hx ▸ hn
  | @step name parent info rest ho known up tail ih =>
    rcases List.mem_cons.mp hx with rfl | hx
    · exact hn
    · refine ih ?_ hx
      have hf : info.isInterface = false := by simpa [Ancestry.isClass, known, ho] using hn
      cases tail with
      | object => exact .inl rfl
      | root hp hk _ => exact .inr (by simp [Ancestry.isClass, hk, hc known hf up hp hk])
      | step hp hk _ _ => exact .inr (by simp [Ancestry.isClass, hk, hc known hf up hp hk])

def resolved? (ancestry : Ancestry) (name : String) : Option (List String) :=
  if name = Name.object ∨ ancestry.isClass name = true then ancestry.chain? name else none

theorem resolved?_object : ancestry.resolved? Name.object = some [Name.object] := by
  simp [resolved?, chain?, chainWithin]

theorem resolved?_eq_some :
    ancestry.resolved? name = some l ↔ (name = Name.object ∨ ancestry.isClass name = true) ∧
      ancestry.Chain name l ∧ l.length ≤ ancestry.parents.length + 1 := by
  unfold resolved?
  constructor
  · intro h
    split at h
    · rename_i hn
      exact ⟨hn, chain_of_chainWithin h⟩
    · cases h
  · rintro ⟨hn, hc, hl⟩
    rw [if_pos hn]
    exact hc.within hl

theorem resolved?_rest (hc : ancestry.ExtendsClasses) {before after : List String}
    (h : ancestry.resolved? name = some (before ++ x :: after)) :
    ancestry.resolved? x = some (x :: after) := by
  obtain ⟨hn, hl, hb⟩ := resolved?_eq_some.mp h
  refine resolved?_eq_some.mpr ⟨hl.isClass hc hn (by simp), hl.rest, ?_⟩
  simp only [List.length_append] at hb
  omega

/-- The common superclass of two different classes is the first on the chain of the second that is
on the chain of the first as well, or else the class that all extend. -/
theorem commonSuperclass_cases (hab : a ≠ b) :
    (∃ chain before after, ancestry.resolved? a = some chain ∧
      ancestry.resolved? b = some (before ++ ancestry.commonSuperclass a b :: after) ∧
      ancestry.commonSuperclass a b ∈ chain ∧ ∀ x ∈ before, x ∉ chain) ∨
    (ancestry.commonSuperclass a b = Name.object ∧
      ∀ {chain₁ chain₂}, ancestry.resolved? a = some chain₁ →
        ancestry.resolved? b = some chain₂ → ∀ x ∈ chain₂, x ∈ chain₁ → x = Name.object) := by
  unfold commonSuperclass
  rw [if_neg hab]
  split
  · rename_i ho
    refine .inr ⟨rfl, fun h₁ h₂ x hx₂ hx₁ => ?_⟩
    rcases ho with rfl | rfl
    · obtain rfl := Option.some.inj (resolved?_object.symm.trans h₁)
      exact List.mem_singleton.mp hx₁
    · obtain rfl := Option.some.inj (resolved?_object.symm.trans h₂)
      exact List.mem_singleton.mp hx₂
  · rename_i ho
    rw [not_or] at ho
    by_cases hk : (ancestry.isClass a && ancestry.isClass b) = true
    · rw [if_pos hk]
      obtain ⟨ha, hb⟩ := Bool.and_eq_true_iff.mp hk
      have ea : ancestry.resolved? a = ancestry.chain? a := by simp [resolved?, ha]
      have eb : ancestry.resolved? b = ancestry.chain? b := by simp [resolved?, hb]
      rw [ea, eb]
      cases hca : ancestry.chain? a with
      | none => exact .inr ⟨rfl, by simp⟩
      | some chain₁ =>
        cases hcb : ancestry.chain? b with
        | none => exact .inr ⟨rfl, by simp⟩
        | some chain₂ =>
          cases hf : chain₂.find? chain₁.contains with
          | none =>
            refine .inr ⟨by simp only [hf, Option.getD_none], fun h₁ h₂ x hx₂ hx₁ => ?_⟩
            obtain rfl := Option.some.inj h₁
            obtain rfl := Option.some.inj h₂
            exact absurd (by simpa using hx₁) (List.find?_eq_none.mp hf x hx₂)
          | some found =>
            obtain ⟨hm, before, after, he, hb⟩ := List.find?_eq_some_iff_append.mp hf
            refine .inl
              ⟨chain₁, before, after, rfl, by simp only [hf, Option.getD_some]; rw [he], ?_, ?_⟩
            · simpa only [hf, Option.getD_some, List.contains_iff_mem] using hm
            · intro x hx
              simpa using hb x hx
    · rw [if_neg hk]
      refine .inr ⟨rfl, fun {chain₁ chain₂} h₁ h₂ => absurd ?_ hk⟩
      have ha := (resolved?_eq_some.mp h₁).1.resolve_left ho.1
      have hb := (resolved?_eq_some.mp h₂).1.resolve_left ho.2
      simp [ha, hb]

def Above (ancestry : Ancestry) (x y : String) : Prop :=
  y = x ∨ y = Name.object ∨ ∃ chain, ancestry.resolved? x = some chain ∧ y ∈ chain

theorem Above.mem (h : ancestry.Above x y) (ho : y ≠ Name.object)
    (hl : ancestry.resolved? x = some l) : y ∈ l := by
  obtain ⟨rest, rfl⟩ := (resolved?_eq_some.mp hl).2.1.head
  rcases h with rfl | rfl | ⟨chain, hc, hy⟩
  · exact List.mem_cons_self
  · exact absurd rfl ho
  · exact Option.some.inj (hc.symm.trans hl) ▸ hy

theorem Above.trans (hc : ancestry.ExtendsClasses) (hxy : ancestry.Above x y)
    (hyz : ancestry.Above y z) : ancestry.Above x z := by
  rcases hyz with rfl | rfl | ⟨chain, hy, hz⟩
  · exact hxy
  · exact .inr (.inl rfl)
  · rcases hxy with rfl | rfl | ⟨chain', hx, hm⟩
    · exact .inr (.inr ⟨chain, hy, hz⟩)
    · obtain rfl := Option.some.inj (resolved?_object.symm.trans hy)
      exact .inr (.inl (List.mem_singleton.mp hz))
    · obtain ⟨before, after, rfl⟩ := List.append_of_mem hm
      have hr := resolved?_rest hc hx
      obtain rfl := Option.some.inj (hr.symm.trans hy)
      exact .inr (.inr ⟨_, hx, List.mem_append_right before hz⟩)

theorem Above.antisymm (hc : ancestry.ExtendsClasses) (hxy : ancestry.Above x y)
    (hyx : ancestry.Above y x) : x = y := by
  by_cases hy : y = Name.object
  · subst hy
    rcases hyx with rfl | rfl | ⟨chain, ho, hx⟩
    · rfl
    · rfl
    · obtain rfl := Option.some.inj (resolved?_object.symm.trans ho)
      exact List.mem_singleton.mp hx
  · rcases hxy with rfl | rfl | ⟨chain, hx, hm⟩
    · rfl
    · exact absurd rfl hy
    · obtain ⟨before, after, rfl⟩ := List.append_of_mem hm
      have hr := resolved?_rest hc hx
      have hxo : x ≠ Name.object := by
        rintro rfl
        rw [resolved?_object, Option.some.injEq] at hx
        exact hy (List.mem_singleton.mp (hx ▸ hm))
      -- The chain of `x` would be a part of the chain of `y`, and the other way around.
      obtain ⟨before', after', ha⟩ := List.append_of_mem (hyx.mem hxo hr)
      have hr' := resolved?_rest hc (ha ▸ hr)
      have hlen := congrArg List.length (Option.some.inj (hx.symm.trans hr'))
      have hlen' := congrArg List.length ha
      simp only [List.length_append, List.length_cons] at hlen hlen'
      obtain rfl : before = [] := List.eq_nil_of_length_eq_zero (by omega)
      obtain ⟨rest, hh⟩ := (resolved?_eq_some.mp hx).2.1.head
      exact (List.cons.inj hh).1.symm

theorem above_commonSuperclass_left : ancestry.Above a (ancestry.commonSuperclass a b) := by
  by_cases hab : a = b
  · exact .inl (by simp [hab])
  · rcases commonSuperclass_cases hab with ⟨chain, _, _, ha, _, hm, _⟩ | ⟨ho, _⟩
    · exact .inr (.inr ⟨chain, ha, hm⟩)
    · exact .inr (.inl ho)

theorem above_commonSuperclass_right : ancestry.Above b (ancestry.commonSuperclass a b) := by
  by_cases hab : a = b
  · exact .inl (by simp [hab])
  · rcases commonSuperclass_cases hab with ⟨_, before, after, _, hb, _, _⟩ | ⟨ho, _⟩
    · exact .inr (.inr ⟨_, hb, List.mem_append_right before List.mem_cons_self⟩)
    · exact .inr (.inl ho)

/-- A class with another one above it has a chain, unless they are the same or all are above. -/
theorem Above.resolved (hc : ancestry.ExtendsClasses) (hx : ancestry.Above x z)
    (hy : ancestry.Above y z) (hxy : x ≠ y) (hz : z ≠ Name.object) :
    ∃ chain, ancestry.resolved? x = some chain := by
  rcases hx with rfl | rfl | ⟨chain, hl, _⟩
  · rcases hy with rfl | rfl | ⟨chain, hl, hm⟩
    · exact absurd rfl hxy
    · exact absurd rfl hz
    · obtain ⟨before, after, rfl⟩ := List.append_of_mem hm
      exact ⟨_, resolved?_rest hc hl⟩
  · exact absurd rfl hz
  · exact ⟨chain, hl⟩

/-- Nothing below the common superclass is above both classes. -/
theorem commonSuperclass_least (hc : ancestry.ExtendsClasses) (ha : ancestry.Above a z)
    (hb : ancestry.Above b z) : ancestry.Above (ancestry.commonSuperclass a b) z := by
  by_cases hab : a = b
  · simpa [hab] using hb
  by_cases hz : z = Name.object
  · exact .inr (.inl hz)
  obtain ⟨chain₁, h₁⟩ := ha.resolved hc hb hab hz
  obtain ⟨chain₂, h₂⟩ := hb.resolved hc ha (Ne.symm hab) hz
  have hz₁ := ha.mem hz h₁
  have hz₂ := hb.mem hz h₂
  rcases commonSuperclass_cases hab with ⟨chain, before, after, hl, hr, _, hn⟩ | ⟨_, hn⟩
  · obtain rfl := Option.some.inj (hl.symm.trans h₁)
    obtain rfl := Option.some.inj (hr.symm.trans h₂)
    rcases List.mem_append.mp hz₂ with hm | hm
    · exact absurd hz₁ (hn z hm)
    · exact .inr (.inr ⟨_, resolved?_rest hc h₂, hm⟩)
  · exact absurd (hn h₁ h₂ z hz₂ hz₁) hz

/-- The common superclass is one of the two classes, the class that all extend, or a superclass. -/
theorem commonSuperclass_mem : ancestry.commonSuperclass a b = a ∨
    ancestry.commonSuperclass a b = b ∨ ancestry.commonSuperclass a b = Name.object ∨
    ancestry.IsSuper (ancestry.commonSuperclass a b) := by
  by_cases hab : a = b
  · exact .inl (by simp [hab])
  · rcases @commonSuperclass_cases ancestry a b hab with
      ⟨_, before, after, _, hb, _, _⟩ | ⟨ho, _⟩
    · have hm := (resolved?_eq_some.mp hb).2.1.isSuper
        (List.mem_append_right before List.mem_cons_self)
      exact .inr (hm.imp_right .inr)
    · exact .inr (.inr (.inl ho))

theorem isJoin_of_extendsClasses (hc : ancestry.ExtendsClasses) : ancestry.hierarchy.IsJoin where
  idem := commonSuperclass_self
  comm a b := by
    apply Above.antisymm hc
    · exact commonSuperclass_least hc above_commonSuperclass_right above_commonSuperclass_left
    · exact commonSuperclass_least hc above_commonSuperclass_right above_commonSuperclass_left
  assoc a b c := by
    apply Above.antisymm hc
    · refine commonSuperclass_least hc (commonSuperclass_least hc ?_ ?_) ?_
      · exact above_commonSuperclass_left
      · exact above_commonSuperclass_left.trans hc above_commonSuperclass_right
      · exact above_commonSuperclass_right.trans hc above_commonSuperclass_right
    · refine commonSuperclass_least hc ?_ (commonSuperclass_least hc ?_ ?_)
      · exact above_commonSuperclass_left.trans hc above_commonSuperclass_left
      · exact above_commonSuperclass_right.trans hc above_commonSuperclass_left
      · exact above_commonSuperclass_right

theorem joinsClasses_of_extendsClasses (hc : ancestry.ExtendsClasses)
    (hp : ∀ {parent}, ancestry.IsSuper parent → ClassReference.isArray parent.toList = false) :
    ancestry.hierarchy.JoinsClasses where
  toIsJoin := isJoin_of_extendsClasses hc
  object := commonSuperclass_object
  named {a b} ha hb := by
    rw [hierarchy_commonSuperclass]
    rcases @commonSuperclass_mem ancestry a b with h | h | h | h
    · rw [h, ha]
    · rw [h, hb]
    · rw [h]; decide
    · exact hp h

/-- Superclasses of library classes are library classes. -/
theorem library_closed : ∀ entry ∈ libraryClasses,
    entry.2 = Name.object ∨ (libraryClasses.lookup entry.2).isSome = true := by
  decide +kernel

theorem library_extendsClasses : library.ExtendsClasses := by
  intro name parent info above hi hf hp ho ha
  have hc : (libraryClasses.lookup parent).isSome = true := by
    change libraryInfo? name = some info at hi
    unfold libraryInfo? at hi
    split at hi
    · obtain rfl := Option.some.inj hi
      cases hp
    · split at hi
      · rename_i found hl
        obtain rfl := Option.some.inj hi
        obtain rfl := Option.some.inj hp
        obtain ⟨entry, hm, rfl⟩ := List.mem_map.mp (snd_mem_of_lookup hl)
        exact (library_closed entry hm).resolve_left ho
      · split at hi
        · obtain rfl := Option.some.inj hi
          cases hf
        · cases hi
  obtain ⟨found, hl⟩ := Option.isSome_iff_exists.mp hc
  change libraryInfo? parent = some above at ha
  simp only [libraryInfo?, ho, if_false, hl, Option.some.injEq] at ha
  exact ha ▸ rfl

theorem isArray_cons {first : Char} {rest : List Char} (h : first ≠ '[') :
    ClassReference.isArray (String.ofList (first :: rest)).toList = false := by
  simp [ClassReference.isArray, h]

theorem library_joinsClasses : Hierarchy.library.JoinsClasses := by
  refine joinsClasses_of_extendsClasses library_extendsClasses fun hs => ?_
  suffices h : ∀ parent ∈ libraryParents, ClassReference.isArray parent.toList = false from
    h _ hs.mem_parents
  simp only [libraryParents, libraryClasses, List.map, List.forall_mem_cons]
  repeat' apply And.intro
  all_goals first | exact isArray_cons (show 'j' ≠ '[' by decide) | trivial

/-- Two classes that extend a third one. -/
def siblings (parent : String) : Ancestry where
  info? name :=
    if name = "p/A" ∨ name = "p/B" then some ⟨some parent, false⟩
    else if name = parent then some ⟨some Name.object, false⟩
    else none
  parents := [parent, Name.object]
  complete {name super info} hi hp := by
    split at hi
    · cases hi
      cases hp
      exact List.mem_cons_self
    · split at hi
      · cases hi
        cases hp
        simp
      · cases hi

theorem siblings_extendsClasses (parent : String) : (siblings parent).ExtendsClasses := by
  intro name super info above _ _ _ _ ha
  unfold siblings at ha
  dsimp only at ha
  split at ha
  · cases ha
    rfl
  · split at ha
    · cases ha
      rfl
    · cases ha

end Ancestry
end ClassTree
