import ClassTree.Proofs.Hierarchy.Chains

namespace ClassTree.Ancestry

variable {ancestry : Ancestry} {a b x y z : String} {l m n s t u : List String}

/-- The last classes of two chains that they share, and all that they share. -/
structure Shares (l m shared : List String) : Prop where
  left : shared <:+ l
  right : shared <:+ m
  all : ∀ x ∈ l, x ∈ m → x ∈ shared

theorem Shares.symm (h : Shares l m s) : Shares m l s :=
  ⟨h.right, h.left, fun x hm hl => h.all x hl hm⟩

/-- The common superclass of two different classes heads what their chains share. -/
theorem exists_shares (hab : a ≠ b) (ha : ancestry.resolved? a = some l)
    (hb : ancestry.resolved? b = some m) :
    ∃ shared, Shares l m shared ∧
      ancestry.commonSuperclass a b = shared.head?.getD Name.object := by
  obtain ⟨before₁, before₂, shared, rfl, rfl, h₁, h₂⟩ :=
    (chain_of_resolved? ha).meet (chain_of_resolved? hb)
  refine ⟨shared, ⟨List.suffix_append _ _, List.suffix_append _ _, fun x hl hm => ?_⟩,
    commonSuperclass_of_meet hab ha hb h₁ h₂⟩
  exact (List.mem_append.mp hl).resolve_left fun hx => h₁ x hx hm

/-- What three chains share: of what two of them share, all chains share what is no longer than
what two others do. -/
theorem Shares.suffix (hl : l.Nodup) (hlm : Shares l m s) (hmn : Shares m n t) (hln : Shares l n u)
    (hlen : s.length ≤ t.length) : s <:+ u := by
  have hst : s <:+ t := List.suffix_of_suffix_length_le hlm.right hmn.left hlen
  rcases List.suffix_or_suffix_of_suffix hlm.left hln.left with hsu | ⟨more, rfl⟩
  · exact hsu
  -- whatever else were shared, the first and the last chain would share, too
  obtain ⟨before, rfl⟩ := hlm.left
  cases more with
  | nil => exact List.suffix_rfl
  | cons x more =>
    have hdisjoint := List.disjoint_of_nodup_append (List.Nodup.of_append_right hl)
    have hx : x ∈ n := hmn.right.mem (hst.mem List.mem_cons_self)
    exact (hdisjoint List.mem_cons_self (hln.all x (by simp) hx)).elim

/-- Of what three chains share, two and two, the shortest is shared by all of them. -/
theorem shares_isosceles (hl : l.Nodup) (hm : m.Nodup) (hn : n.Nodup) (hlm : Shares l m s)
    (hmn : Shares m n t) (hln : Shares l n u) : s = t ∨ s = u ∨ t = u := by
  have hsu := hlm.suffix hl hmn hln
  have hst := hlm.symm.suffix hm hln hmn
  have htu := hmn.symm.suffix hn hlm.symm hln.symm
  have hts := hmn.suffix hm hln.symm hlm.symm
  have hus := hln.suffix hl hmn.symm hlm
  have hut := hln.symm.suffix hn hlm hmn.symm
  rcases Nat.le_total s.length t.length with h | h
  · have hle := (hsu h).length_le
    rcases Nat.le_total t.length u.length with h' | h'
    · exact .inl ((hst hle).eq_of_length_le (hts h').length_le)
    · exact .inr (.inl ((hsu h).eq_of_length_le (hus h').length_le))
  · have hle := (htu h).length_le
    rcases Nat.le_total s.length u.length with h' | h'
    · exact .inl ((hst h').eq_of_length_le h)
    · exact .inr (.inr ((htu h).eq_of_length_le (hut h').length_le))

/-- Of the common superclasses of three different classes, two are the same. -/
theorem commonSuperclass_isosceles (hxy : x ≠ y) (hyz : y ≠ z) (hxz : x ≠ z) :
    ancestry.commonSuperclass x y = ancestry.commonSuperclass y z ∨
      ancestry.commonSuperclass x y = ancestry.commonSuperclass x z ∨
      ancestry.commonSuperclass y z = ancestry.commonSuperclass x z := by
  cases hx : ancestry.resolved? x with
  | none =>
    rw [commonSuperclass_of_unresolved hxy (.inl hx), commonSuperclass_of_unresolved hxz (.inl hx)]
    exact .inr (.inl rfl)
  | some l =>
    cases hy : ancestry.resolved? y with
    | none =>
      rw [commonSuperclass_of_unresolved hxy (.inr hy),
        commonSuperclass_of_unresolved hyz (.inl hy)]
      exact .inl rfl
    | some m =>
      cases hz : ancestry.resolved? z with
      | none =>
        rw [commonSuperclass_of_unresolved hyz (.inr hz),
          commonSuperclass_of_unresolved hxz (.inr hz)]
        exact .inr (.inr rfl)
      | some n =>
        obtain ⟨s, hlm, hs⟩ := exists_shares hxy hx hy
        obtain ⟨t, hmn, ht⟩ := exists_shares hyz hy hz
        obtain ⟨u, hln, hu⟩ := exists_shares hxz hx hz
        rw [hs, ht, hu]
        rcases shares_isosceles (chain_of_resolved? hx).nodup (chain_of_resolved? hy).nodup
          (chain_of_resolved? hz).nodup hlm hmn hln with rfl | rfl | rfl
        · exact .inl rfl
        · exact .inr (.inl rfl)
        · exact .inr (.inr rfl)

/-- Different classes have fewer common superclasses than there are classes. -/
theorem exists_covering (ancestry : Ancestry) {classes : List String} (hn : classes.Nodup) :
    ∃ covering : List String, covering.length ≤ classes.length - 1 ∧
      ∀ x ∈ classes, ∀ y ∈ classes, x ≠ y → ancestry.commonSuperclass x y ∈ covering := by
  induction classes with
  | nil => exact ⟨[], Nat.zero_le _, nofun⟩
  | cons first rest ih =>
    obtain ⟨hfirst, hrest⟩ := List.nodup_cons.mp hn
    obtain ⟨covering, hlen, hc⟩ := ih hrest
    -- with the first class, all but one of the others have in common what others have anyway
    obtain ⟨more, hmore, hall⟩ : ∃ more : List String, more.length ≤ rest.length ∧
        (∀ x ∈ covering, x ∈ more) ∧ ∀ x ∈ rest, ancestry.commonSuperclass first x ∈ more := by
      by_cases hnew : ∃ x ∈ rest, ancestry.commonSuperclass first x ∉ covering
      · obtain ⟨x, hx, hnew⟩ := hnew
        refine ⟨ancestry.commonSuperclass first x :: covering, ?_,
          fun y hy => List.mem_cons_of_mem _ hy, fun y hy => ?_⟩
        · have := List.length_pos_of_mem hx
          rw [List.length_cons]
          omega
        · by_cases hxy : x = y
          · exact hxy ▸ List.mem_cons_self
          have hne : ∀ {w}, w ∈ rest → first ≠ w := fun hw he => hfirst (he ▸ hw)
          rcases @commonSuperclass_isosceles ancestry _ _ _ (hne hx) hxy (hne hy) with
            he | he | he
          · exact absurd (he ▸ hc x hx y hy hxy) hnew
          · exact he ▸ List.mem_cons_self
          · exact List.mem_cons_of_mem _ (he ▸ hc x hx y hy hxy)
      · refine ⟨covering, by omega, fun _ hy => hy, fun y hy => ?_⟩
        by_contra hy'
        exact hnew ⟨y, hy, hy'⟩
    refine ⟨more, hmore, fun x hx y hy hxy => ?_⟩
    rcases List.mem_cons.mp hx with rfl | hx'
    · exact hall.2 y ((List.mem_cons.mp hy).resolve_left (Ne.symm hxy))
    · rcases List.mem_cons.mp hy with rfl | hy'
      · rw [commonSuperclass_comm]
        exact hall.2 x hx'
      · exact hall.1 _ (hc x hx' y hy' hxy)

/-- Among some classes there is one from which nothing comes that two of them have in common. -/
theorem exists_irreducible (ancestry : Ancestry) (base : String → String)
    {classes : List String} (hn : classes.Nodup) (hne : classes ≠ []) :
    ∃ top ∈ classes, ∀ x ∈ classes, ∀ y ∈ classes, x ≠ y →
      base (ancestry.commonSuperclass x y) ≠ top := by
  obtain ⟨covering, hlen, hc⟩ := exists_covering ancestry hn
  by_contra hno
  have hsub : classes ⊆ covering.map base := by
    intro top htop
    by_contra hout
    refine hno ⟨top, htop, fun x hx y hy hxy he => hout ?_⟩
    exact List.mem_map.mpr ⟨_, hc x hx y hy hxy, he⟩
  have hle := hn.length_le_of_subset hsub
  have hpos := List.length_pos_of_ne_nil hne
  rw [List.length_map] at hle
  omega

/-- Grades for some classes: the irreducible one is given the highest grade, and taken away. -/
theorem exists_grade_within (ancestry : Ancestry) (base : String → String) {size : Nat}
    {classes : List String} (hn : classes.Nodup) (hsize : classes.length = size) :
    ∃ grade : String → Nat, (∀ x ∈ classes, grade x < size) ∧
      ∀ x ∈ classes, ∀ y ∈ classes, x ≠ y → base (ancestry.commonSuperclass x y) ∈ classes →
        grade (base (ancestry.commonSuperclass x y)) < max (grade x) (grade y) := by
  induction size generalizing classes with
  | zero =>
    obtain rfl := List.eq_nil_of_length_eq_zero hsize
    exact ⟨fun _ => 0, nofun, nofun⟩
  | succ size ih =>
    obtain ⟨top, htop, hbase⟩ := exists_irreducible ancestry base hn
      (List.ne_nil_of_length_eq_add_one hsize)
    obtain ⟨grade, hlt, hgrade⟩ := ih (hn.erase top)
      (by rw [List.length_erase_of_mem htop, hsize, Nat.add_sub_cancel])
    have hmem : ∀ {x}, x ∈ classes.erase top ↔ x ≠ top ∧ x ∈ classes := hn.mem_erase_iff
    refine ⟨fun x => if x = top then size else grade x, fun x hx => ?_, fun x hx y hy hxy hm => ?_⟩
    · dsimp only
      split
      · exact Nat.lt_succ_self _
      · exact Nat.lt_succ_of_lt (hlt x (hmem.mpr ⟨‹_›, hx⟩))
    · have hm' := hmem.mpr ⟨hbase x hx y hy hxy, hm⟩
      dsimp only
      rw [if_neg (hbase x hx y hy hxy)]
      split
      · exact Nat.lt_of_lt_of_le (hlt _ hm') (Nat.le_max_left _ _)
      · split
        · exact Nat.lt_of_lt_of_le (hlt _ hm') (Nat.le_max_right _ _)
        · exact hgrade x (hmem.mpr ⟨‹_›, hx⟩) y (hmem.mpr ⟨‹_›, hy⟩) hxy hm'

/-- What two different classes have in common is extended by something. -/
theorem isSuper_commonSuperclass (hab : a ≠ b) (ho : ancestry.commonSuperclass a b ≠ Name.object) :
    ancestry.IsSuper (ancestry.commonSuperclass a b) := by
  rcases commonSuperclass_cases hab with ⟨chain, before, after, ha, hb, hm, -⟩ | ⟨he, -⟩
  · rcases (chain_of_resolved? ha).isSuper hm with hc | hs
    · refine ((chain_of_resolved? hb).isSuper
        (List.mem_append_right before List.mem_cons_self)).resolve_left fun hc' => hab ?_
      exact hc.symm.trans hc'
    · exact hs
  · exact absurd he ho

/-- There are no more grades than there are superclasses, and one. Whatever names come from, from
the common superclass of two different ones there comes one of a lower grade. -/
theorem exists_grade (ancestry : Ancestry) (base : String → String) :
    ∃ grade : String → Nat, (∀ x, grade x ≤ ancestry.parents.length) ∧
      ∀ a b, a ≠ b → ancestry.commonSuperclass a b ≠ Name.object →
        grade (base (ancestry.commonSuperclass a b)) < max (grade a) (grade b) := by
  let bases := (ancestry.parents.map base).dedup
  have hlen : bases.length ≤ ancestry.parents.length := by
    simpa using (List.dedup_sublist (ancestry.parents.map base)).length_le
  obtain ⟨grade, hlt, hgrade⟩ := exists_grade_within ancestry base
    (List.nodup_dedup (ancestry.parents.map base)) rfl
  refine ⟨fun x => if x ∈ bases then grade x else bases.length, fun x => ?_, fun a b hab ho => ?_⟩
  · dsimp only
    split
    · exact Nat.le_trans (Nat.le_of_lt (hlt x ‹_›)) hlen
    · exact hlen
  · have hm : base (ancestry.commonSuperclass a b) ∈ bases :=
      List.mem_dedup.mpr (List.mem_map_of_mem (isSuper_commonSuperclass hab ho).mem_parents)
    dsimp only
    rw [if_pos hm]
    split
    · split
      · exact hgrade a ‹_› b ‹_› hab hm
      · exact Nat.lt_of_lt_of_le (hlt _ hm) (Nat.le_max_right _ _)
    · exact Nat.lt_of_lt_of_le (hlt _ hm) (Nat.le_max_left _ _)

end ClassTree.Ancestry
