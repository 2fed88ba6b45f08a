import ClassTree.Proofs.Hierarchy.Join
import Mathlib.Data.Finite.Prod
import Mathlib.Data.Set.Finite.List

namespace ClassTree.Ancestry

/-- Climbing from a class, after some classes that have been seen: there are all superclasses in
the end, or nothing if one of them is not known or comes again. -/
inductive Climbs (info? : String → Option ClassInfo) :
    List String → String → Option (List String) → Prop
  | object {seen : List String} : Climbs info? seen Name.object (some [Name.object])
  | again {seen : List String} {name : String} (hn : name ≠ Name.object) (found : name ∈ seen) :
      Climbs info? seen name none
  | unknown {seen : List String} {name : String} (hn : name ≠ Name.object) (new : name ∉ seen)
      (unknown : info? name = none) : Climbs info? seen name none
  | root {seen : List String} {name : String} {info : ClassInfo} (hn : name ≠ Name.object)
      (new : name ∉ seen) (known : info? name = some info) (last : info.superName = none) :
      Climbs info? seen name (some [name])
  | step {seen : List String} {name parent : String} {info : ClassInfo}
      {chain? : Option (List String)} (hn : name ≠ Name.object) (new : name ∉ seen)
      (known : info? name = some info) (up : info.superName = some parent)
      (rest : Climbs info? (name :: seen) parent chain?) :
      Climbs info? seen name (chain?.map (name :: ·))

variable {ancestry : Ancestry} {name a b c x y z : String} {l m before after : List String}

theorem Chain.unique (h : ancestry.Chain name l) (h' : ancestry.Chain name m) : l = m := by
  induction h generalizing m with
  | object => cases h' with
    | object => rfl
    | root hn => exact absurd rfl hn
    | step hn => exact absurd rfl hn
  | root hn known last => cases h' with
    | object => exact absurd rfl hn
    | root => rfl
    | step _ known' up' =>
      obtain rfl := Option.some.inj (known.symm.trans known')
      rw [last] at up'
      cases up'
  | step hn known up _ ih => cases h' with
    | object => exact absurd rfl hn
    | root _ known' last' =>
      obtain rfl := Option.some.inj (known.symm.trans known')
      rw [last'] at up
      cases up
    | step _ known' up' tail' =>
      obtain rfl := Option.some.inj (known.symm.trans known')
      obtain rfl := Option.some.inj (up.symm.trans up')
      rw [ih tail']

theorem Chain.nodup (h : ancestry.Chain name l) : l.Nodup := by
  induction h with
  | object => exact List.nodup_singleton _
  | root => exact List.nodup_singleton _
  | step hn known up tail ih =>
    refine List.nodup_cons.mpr ⟨fun hm => ?_, ih⟩
    -- the chain would be a part of itself
    obtain ⟨before, after, rfl⟩ := List.append_of_mem hm
    have he := (Chain.step hn known up tail).unique tail.rest
    have hlen := congrArg List.length he
    simp only [List.length_cons, List.length_append] at hlen
    omega

theorem Chain.length_le (h : ancestry.Chain name l) :
    l.length ≤ ancestry.parents.length + 1 := by
  have hs : l ⊆ name :: ancestry.parents := fun x hx =>
    List.mem_cons.mpr ((h.isSuper hx).imp_right IsSuper.mem_parents)
  exact h.nodup.length_le_of_subset hs

theorem chain?_eq_some : ancestry.chain? name = some l ↔ ancestry.Chain name l :=
  ⟨fun h => (chain_of_chainWithin h).1, fun h => h.within h.length_le⟩

theorem Climbs.chain {seen : List String} (h : Climbs ancestry.info? seen name (some l)) :
    ancestry.Chain name l := by
  generalize hr : some l = result at h
  induction h generalizing l with
  | object =>
    obtain rfl := Option.some.inj hr
    exact .object
  | again => cases hr
  | unknown => cases hr
  | root hn _ known last =>
    obtain rfl := Option.some.inj hr
    exact .root hn known last
  | step hn _ known up _ ih =>
    obtain ⟨rest, hrest, rfl⟩ := Option.map_eq_some_iff.mp hr.symm
    exact .step hn known up (ih hrest.symm)

theorem Chain.climbs (h : ancestry.Chain name l) {seen : List String}
    (hs : ∀ x ∈ l, x ∉ seen) : Climbs ancestry.info? seen name (some l) := by
  induction h generalizing seen with
  | object => exact .object
  | root hn known last => exact .root hn (hs _ List.mem_cons_self) known last
  | step hn known up tail ih =>
    refine .step hn (hs _ List.mem_cons_self) known up (ih fun x hx hm => ?_)
    rcases List.mem_cons.mp hm with rfl | hm
    · exact (List.nodup_cons.mp (Chain.step hn known up tail).nodup).1 hx
    · exact hs x (List.mem_cons_of_mem _ hx) hm

theorem Climbs.unique {info? : String → Option ClassInfo} {seen : List String}
    {chain? chain?' : Option (List String)} (h : Climbs info? seen name chain?)
    (h' : Climbs info? seen name chain?') : chain? = chain?' := by
  induction h generalizing chain?' with
  | object => cases h' with
    | object => rfl
    | again hn | unknown hn | root hn | step hn => exact absurd rfl hn
  | again hn found => cases h' with
    | object => exact absurd rfl hn
    | again => rfl
    | unknown _ new | root _ new | step _ new => exact absurd found new
  | unknown hn new unknown => cases h' with
    | object => exact absurd rfl hn
    | again _ found => exact absurd found new
    | unknown => rfl
    | root _ _ known | step _ _ known =>
      rw [unknown] at known
      cases known
  | root hn new known last => cases h' with
    | object => exact absurd rfl hn
    | again _ found => exact absurd found new
    | unknown _ _ unknown =>
      rw [unknown] at known
      cases known
    | root => rfl
    | step _ _ known' up' =>
      obtain rfl := Option.some.inj (known.symm.trans known')
      rw [last] at up'
      cases up'
  | step hn new known up _ ih => cases h' with
    | object => exact absurd rfl hn
    | again _ found => exact absurd found new
    | unknown _ _ unknown =>
      rw [unknown] at known
      cases known
    | root _ _ known' last' =>
      obtain rfl := Option.some.inj (known.symm.trans known')
      rw [last'] at up
      cases up
    | step _ _ known' up' rest' =>
      obtain rfl := Option.some.inj (known.symm.trans known')
      obtain rfl := Option.some.inj (up.symm.trans up')
      rw [ih rest']

/-- Climbing ends, since only so many classes can be seen before one comes again. -/
theorem exists_climbs {start : String} {n : Nat} {seen : List String} (hn : seen.Nodup)
    (hs : ∀ x ∈ name :: seen, x ∈ start :: ancestry.parents)
    (hlen : ancestry.parents.length + 2 ≤ n + seen.length) :
    ∃ chain?, Climbs ancestry.info? seen name chain? := by
  induction n generalizing name seen with
  | zero =>
    have := hn.length_le_of_subset fun x hx => hs x (List.mem_cons_of_mem _ hx)
    rw [List.length_cons] at this
    omega
  | succ n ih =>
    by_cases ho : name = Name.object
    · subst ho
      exact ⟨_, .object⟩
    by_cases hseen : name ∈ seen
    · exact ⟨none, .again ho hseen⟩
    cases hi : ancestry.info? name with
    | none => exact ⟨none, .unknown ho hseen hi⟩
    | some info =>
      cases hp : info.superName with
      | none => exact ⟨_, .root ho hseen hi hp⟩
      | some parent =>
        have hparent : parent ∈ start :: ancestry.parents :=
          List.mem_cons_of_mem _ (ancestry.complete hi hp)
        obtain ⟨chain?, hc⟩ := @ih parent (name :: seen) (List.nodup_cons.mpr ⟨hseen, hn⟩)
          (List.forall_mem_cons.mpr ⟨hparent, hs⟩) (by rw [List.length_cons]; omega)
        exact ⟨_, .step ho hseen hi hp hc⟩

/-- What is computed for a class is what climbing from it ends with. -/
theorem climbs_chain? (ancestry : Ancestry) (name : String) :
    Climbs ancestry.info? [] name (ancestry.chain? name) := by
  obtain ⟨chain?, hc⟩ := @exists_climbs ancestry name name (ancestry.parents.length + 2) []
    List.nodup_nil (by simp) (by simp)
  cases chain? with
  | some l => rwa [chain?_eq_some.mpr hc.chain]
  | none =>
    cases hl : ancestry.chain? name with
    | none => exact hc
    | some l => cases hc.unique ((chain?_eq_some.mp hl).climbs (by simp))

/-- Two chains share what they end with, and nothing before that. -/
theorem Chain.meet (ha : ancestry.Chain a l) (hb : ancestry.Chain b m) :
    ∃ before₁ before₂ shared, l = before₁ ++ shared ∧ m = before₂ ++ shared ∧
      (∀ x ∈ before₁, x ∉ m) ∧ ∀ x ∈ before₂, x ∉ l := by
  have found : ∀ {x : String} {rest : List String}, ancestry.Chain x (x :: rest) → x ∈ m →
      ∃ before, m = before ++ x :: rest ∧ ∀ y ∈ before, y ∉ x :: rest := by
    intro x rest hx hm
    obtain ⟨before, after, rfl⟩ := List.append_of_mem hm
    obtain rfl := (List.cons.inj (hx.unique hb.rest)).2
    exact ⟨before, rfl, fun y hy hmem => List.disjoint_of_nodup_append hb.nodup hy hmem⟩
  have single : ∀ {x : String}, ancestry.Chain x [x] → ∃ before₁ before₂ shared,
      [x] = before₁ ++ shared ∧ m = before₂ ++ shared ∧ (∀ y ∈ before₁, y ∉ m) ∧
        ∀ y ∈ before₂, y ∉ [x] := by
    intro x hx
    by_cases hm : x ∈ m
    · obtain ⟨before, he, hn⟩ := found hx hm
      exact ⟨[], before, [x], rfl, he, by simp, hn⟩
    · exact ⟨[x], m, [], rfl, by simp, by simpa using hm, fun y hy he =>
        hm (List.mem_singleton.mp he ▸ hy)⟩
  induction ha with
  | object => exact single .object
  | root hn known last => exact single (.root hn known last)
  | @step name parent info rest hn known up tail ih =>
    by_cases hm : name ∈ m
    · obtain ⟨before, he, hdisjoint⟩ := found (.step hn known up tail) hm
      exact ⟨[], before, name :: rest, rfl, he, by simp, hdisjoint⟩
    · obtain ⟨before₁, before₂, shared, hl, he, h₁, h₂⟩ := ih
      refine ⟨name :: before₁, before₂, shared, by rw [hl]; rfl, he,
        List.forall_mem_cons.mpr ⟨hm, h₁⟩, fun y hy hmem => ?_⟩
      rcases List.mem_cons.mp hmem with rfl | hmem
      · exact hm (he ▸ List.mem_append_left _ hy)
      · exact h₂ y hy hmem

/-- Two lists with the same elements are cut at the same one, if neither has the other's cut before
its own. -/
theorem eq_of_append_eq_append {before' after' : List String}
    (h : before ++ x :: after = before' ++ y :: after') (hx : x ∉ before') (hy : y ∉ before) :
    x = y := by
  rcases List.append_eq_append_iff.mp h with ⟨more, hbefore, hrest⟩ | ⟨more, hbefore, hrest⟩
  · cases more with
    | nil => exact (List.cons.inj hrest).1
    | cons other more =>
      obtain rfl := (List.cons.inj hrest).1
      exact absurd (by simp [hbefore]) hx
  · cases more with
    | nil => exact (List.cons.inj hrest).1.symm
    | cons other more =>
      obtain rfl := (List.cons.inj hrest).1
      exact absurd (by simp [hbefore]) hy

/-- The common superclass of two different classes whose superclasses are known is the first one
that their chains share. -/
theorem commonSuperclass_of_meet {before₁ before₂ shared : List String} (hab : a ≠ b)
    (ha : ancestry.resolved? a = some (before₁ ++ shared))
    (hb : ancestry.resolved? b = some (before₂ ++ shared))
    (h₁ : ∀ x ∈ before₁, x ∉ before₂ ++ shared) (h₂ : ∀ x ∈ before₂, x ∉ before₁ ++ shared) :
    ancestry.commonSuperclass a b = shared.head?.getD Name.object := by
  rcases commonSuperclass_cases hab with ⟨chain, before, after, hl, hr, hm, hnone⟩ | ⟨ho, hnone⟩
  · obtain rfl := Option.some.inj (hl.symm.trans ha)
    have he := Option.some.inj (hr.symm.trans hb)
    cases shared with
    | nil =>
      refine absurd ?_ (h₁ _ (by simpa using hm))
      rw [← he]
      simp
    | cons first rest =>
      exact eq_of_append_eq_append he (fun hmem => h₂ _ hmem hm)
        (fun hmem => hnone _ hmem (by simp))
  · cases shared with
    | nil => exact ho
    | cons first rest =>
      rw [ho]
      exact (hnone ha hb first (by simp) (by simp)).symm

theorem commonSuperclass_of_unresolved (hab : a ≠ b)
    (h : ancestry.resolved? a = none ∨ ancestry.resolved? b = none) :
    ancestry.commonSuperclass a b = Name.object := by
  rcases commonSuperclass_cases hab with ⟨chain, before, after, hl, hr, -⟩ | ⟨ho, -⟩
  · rcases h with h | h
    · rw [hl] at h
      cases h
    · rw [hr] at h
      cases h
  · exact ho

theorem chain_of_resolved? (h : ancestry.resolved? name = some l) : ancestry.Chain name l :=
  (resolved?_eq_some.mp h).2.1

/-- It does not matter which chain is searched for classes of the other one. -/
theorem commonSuperclass_comm (ancestry : Ancestry) (a b : String) :
    ancestry.commonSuperclass a b = ancestry.commonSuperclass b a := by
  by_cases hab : a = b
  · rw [hab]
  cases ha : ancestry.resolved? a with
  | none =>
    rw [commonSuperclass_of_unresolved hab (.inl ha),
      commonSuperclass_of_unresolved (Ne.symm hab) (.inr ha)]
  | some l =>
    cases hb : ancestry.resolved? b with
    | none =>
      rw [commonSuperclass_of_unresolved hab (.inr hb),
        commonSuperclass_of_unresolved (Ne.symm hab) (.inl hb)]
    | some m =>
      obtain ⟨before₁, before₂, shared, rfl, rfl, h₁, h₂⟩ :=
        (chain_of_resolved? ha).meet (chain_of_resolved? hb)
      rw [commonSuperclass_of_meet hab ha hb h₁ h₂,
        commonSuperclass_of_meet (Ne.symm hab) hb ha h₂ h₁]

/-- A class is the first one that two chains share. -/
def Meets (l m : List String) (c : String) : Prop :=
  ∃ before₁ before₂ after, l = before₁ ++ c :: after ∧ m = before₂ ++ c :: after ∧
    (∀ x ∈ before₁, x ∉ m) ∧ ∀ x ∈ before₂, x ∉ l

/-- Two chains either share a class, and then their classes have that one in common, or their
classes have only `java/lang/Object` in common. -/
theorem commonSuperclass_of_resolved (hab : a ≠ b) (ha : ancestry.resolved? a = some l)
    (hb : ancestry.resolved? b = some m) :
    Meets l m (ancestry.commonSuperclass a b) ∨
      ancestry.commonSuperclass a b = Name.object ∧ l.Disjoint m := by
  obtain ⟨before₁, before₂, shared, rfl, rfl, h₁, h₂⟩ :=
    (chain_of_resolved? ha).meet (chain_of_resolved? hb)
  rw [commonSuperclass_of_meet hab ha hb h₁ h₂]
  cases shared with
  | nil => exact .inr ⟨rfl, by simpa [List.Disjoint] using h₁⟩
  | cons first rest => exact .inl ⟨before₁, before₂, rest, rfl, rfl, h₁, h₂⟩

theorem finite_char : Finite Char := by
  refine Finite.of_injective (fun c => (⟨c.toNat, ?_⟩ : Fin 0x110000)) fun c d h => ?_
  · have := c.valid
    unfold Char.toNat
    rcases this with h | h
    · exact Nat.lt_of_lt_of_le h (by decide)
    · exact h.2
  · have hval : c.val.toNat = d.val.toNat := Fin.mk.inj h
    exact Char.ext (UInt32.toNat_inj.mp hval)

/-- Superclasses have names of bounded length, as all texts do that fit into an address space. -/
def Bounded (info? : String → Option ClassInfo) : Prop :=
  ∃ bound, ∀ {name parent : String} {info : ClassInfo}, info? name = some info →
    info.superName = some parent → parent.length ≤ bound

/-- There are only so many names of bounded length, and so many superclasses. -/
theorem exists_of_bounded {info? : String → Option ClassInfo} (h : Bounded info?) :
    ∃ ancestry : Ancestry, ancestry.info? = info? := by
  obtain ⟨bound, h⟩ := h
  have := finite_char
  have hfinite := (List.finite_length_le Char bound).image String.ofList
  obtain ⟨parents, hparents⟩ := hfinite.exists_finset
  refine ⟨⟨info?, parents.toList, fun hi hp => ?_⟩, rfl⟩
  rw [Finset.mem_toList, hparents]
  exact ⟨_, h hi hp, String.ofList_toList⟩

theorem Meets.unique (h : Meets l m x) (h' : Meets l m y) : x = y := by
  obtain ⟨before₁, before₂, after, hl, hm, -, h₂⟩ := h
  obtain ⟨before₁', before₂', after', hl', hm', -, h₂'⟩ := h'
  have hx : x ∈ l := hl ▸ by simp
  have hy : y ∈ l := hl' ▸ by simp
  exact eq_of_append_eq_append (hm.symm.trans hm') (fun hmem => h₂' x hmem hx)
    (fun hmem => h₂ y hmem hy)

/-- Whatever is said of classes, climbing from two of them ends, and the first class that their
chains share is what they have in common; that is `java/lang/Object` if they share none, or if one
of them is not known to be a class or has superclasses that are not all known. -/
theorem commonSuperclass_closest {info? : String → Option ClassInfo} (h : Bounded info?) :
    (∃ ancestry : Ancestry, ancestry.info? = info?) ∧
    ∀ ancestry : Ancestry, ancestry.info? = info? → ∀ a b,
      Climbs info? [] a (ancestry.chain? a) ∧ Climbs info? [] b (ancestry.chain? b) ∧
      ancestry.commonSuperclass a b = ancestry.commonSuperclass b a ∧
      (a = b → ancestry.commonSuperclass a b = a) ∧
      (a ≠ b → ancestry.commonSuperclass a b = Name.object ∨
        ∃ l m, ancestry.chain? a = some l ∧ ancestry.chain? b = some m ∧
          Meets l m (ancestry.commonSuperclass a b)) ∧
      (a ≠ b → ancestry.isClass a = true → ancestry.isClass b = true →
        ∀ {l m c}, ancestry.chain? a = some l → ancestry.chain? b = some m → Meets l m c →
          ancestry.commonSuperclass a b = c) := by
  refine ⟨exists_of_bounded h, ?_⟩
  rintro ancestry rfl a b
  refine ⟨climbs_chain? ancestry a, climbs_chain? ancestry b, commonSuperclass_comm ancestry a b,
    ?_, fun hab => ?_, fun hab hca hcb l m c ha hb hmeets => ?_⟩
  · rintro rfl
    exact commonSuperclass_self a
  · cases ha : ancestry.resolved? a with
    | none => exact .inl (commonSuperclass_of_unresolved hab (.inl ha))
    | some l =>
      cases hb : ancestry.resolved? b with
      | none => exact .inl (commonSuperclass_of_unresolved hab (.inr hb))
      | some m =>
        rcases commonSuperclass_of_resolved hab ha hb with hmeets | ⟨ho, -⟩
        · exact .inr ⟨l, m, chain?_eq_some.mpr (chain_of_resolved? ha),
            chain?_eq_some.mpr (chain_of_resolved? hb), hmeets⟩
        · exact .inl ho
  · have hra : ancestry.resolved? a = some l := by rw [resolved?, if_pos (.inr hca), ha]
    have hrb : ancestry.resolved? b = some m := by rw [resolved?, if_pos (.inr hcb), hb]
    rcases commonSuperclass_of_resolved hab hra hrb with hfound | ⟨-, hnone⟩
    · exact hfound.unique hmeets
    · obtain ⟨before₁, before₂, after, rfl, rfl, -⟩ := hmeets
      exact (hnone (by simp) (by simp : c ∈ _)).elim

/-- Two classes that extend each other, and two that extend the same interface, above which there
is nothing. -/
def tangled (name : String) : Option ClassInfo :=
  if name = "p/A" then some ⟨some "p/B", false⟩
  else if name = "p/B" then some ⟨some "p/A", false⟩
  else if name = "p/C" ∨ name = "p/D" then some ⟨some "p/I", false⟩
  else if name = "p/I" then some ⟨none, true⟩
  else none

theorem bounded_tangled : Bounded tangled := by
  refine ⟨3, fun {name parent info} hi hp => ?_⟩
  unfold tangled at hi
  split at hi
  · cases hi
    cases hp
    decide
  split at hi
  · cases hi
    cases hp
    decide
  split at hi
  · cases hi
    cases hp
    decide
  split at hi
  · cases hi
    cases hp
  · cases hi

theorem tangled_closest : Bounded tangled ∧ ∃ ancestry : Ancestry, ancestry.info? = tangled ∧
    ancestry.commonSuperclass "p/C" "p/D" = "p/I" ∧
    ancestry.commonSuperclass "p/A" "p/C" = Name.object := by
  obtain ⟨⟨ancestry, hi⟩, hall⟩ := commonSuperclass_closest bounded_tangled
  have climb : ∀ {name}, name = "p/C" ∨ name = "p/D" →
      Climbs tangled [] name (some [name, "p/I"]) := by
    rintro name (rfl | rfl)
    all_goals
      exact .step (by decide) (by simp) rfl rfl (.root (by decide) (by decide) rfl rfl)
  obtain ⟨hc, hd, -, -, -, hclosest⟩ := hall ancestry hi "p/C" "p/D"
  obtain ⟨ha, -, -, -, hobject, -⟩ := hall ancestry hi "p/A" "p/C"
  refine ⟨bounded_tangled, ancestry, hi, ?_, ?_⟩
  · refine hclosest (by decide) (by rw [isClass, hi]; rfl) (by rw [isClass, hi]; rfl)
      (hc.unique (climb (.inl rfl))) (hd.unique (climb (.inr rfl))) ?_
    exact ⟨["p/C"], ["p/D"], [], rfl, rfl, by decide, by decide⟩
  · -- climbing from the first class comes back to it
    have hnone : ancestry.chain? "p/A" = none := by
      have hstep : Climbs tangled [] "p/A" ((none : Option (List String)).map ("p/B" :: ·)
          |>.map ("p/A" :: ·)) :=
        .step (by decide) (by simp) rfl rfl (.step (by decide) (by decide) rfl rfl
          (.again (by decide) (by decide)))
      exact ha.unique hstep
    refine (hobject (by decide)).resolve_right ?_
    rintro ⟨l, m, hl, -⟩
    rw [hnone] at hl
    cases hl

end ClassTree.Ancestry
