import ClassTree.Pool.Builder
import ClassTree.Proofs.Outcome
import ClassTree.Proofs.Pool.Slots

namespace ClassTree.Pool

theorem Table.get_eq_ok {table : Table} {index : Index} {constant : Constant} :
    table.get index = .ok constant ↔ table.constants.get? index.toNat = some constant := by
  unfold get
  split <;> rename_i h <;> simp [h]

namespace Builder

/-- The table that a class file with this pool has. -/
def table (builder : Builder) : Table :=
  ⟨builder.constants, builder.bootstrap⟩

/-- Everything in the first pool is in the second one, at the same indices. -/
structure Within (b b' : Builder) : Prop where
  constants : ∀ {place constant}, b.constants.get? place = some constant →
    b'.constants.get? place = some constant
  bootstrap : ∀ {place : Nat} {entry}, b.bootstrap[place]? = some entry →
    b'.bootstrap[place]? = some entry
  indices : ∀ {constant : Constant} {index}, b.indices[constant]? = some index →
    b'.indices[constant]? = some index
  bootstrapIndices : ∀ {entry : BootstrapMethod} {index}, b.bootstrapIndices[entry]? = some index →
    b'.bootstrapIndices[entry]? = some index

theorem Within.refl (b : Builder) : b.Within b :=
  ⟨id, id, id, id⟩

theorem Within.trans {b b' b'' : Builder} (h : b.Within b') (h' : b'.Within b'') :
    b.Within b'' where
  constants := fun hc => h'.constants (h.constants hc)
  bootstrap := fun he => h'.bootstrap (h.bootstrap he)
  indices := fun hi => h'.indices (h.indices hi)
  bootstrapIndices := fun hi => h'.bootstrapIndices (h.bootstrapIndices hi)

/-- What the indices say is true. Of the places in the bootstrap table, 16 bits are kept. -/
structure Sound (b : Builder) : Prop where
  indices : ∀ {constant : Constant} {index}, b.indices[constant]? = some index →
    b.constants.get? index.toNat = some constant
  bootstrapIndices : ∀ {entry : BootstrapMethod} {index}, b.bootstrapIndices[entry]? = some index →
    ∃ place, b.bootstrap[place]? = some entry ∧ index = UInt16.ofNat place

variable {b : Builder} {constant : Constant} {entry : BootstrapMethod}

theorem within_add (hn : b.indices[constant]? = none) : b.Within (b.add constant).2 where
  constants := Slots.get?_push
  bootstrap := id
  indices := by
    intro other index hi
    have hne : constant ≠ other := by
      rintro rfl
      rw [hn] at hi
      cases hi
    simp [add, Std.HashMap.getElem?_insert, hne, hi]
  bootstrapIndices := id

theorem get?_add (b : Builder) (constant : Constant) (hr : b.hasRoom constant = true) :
    (b.add constant).2.constants.get? (b.add constant).1.toNat = some constant := by
  have hlt : b.constants.next < 0x10000 := by
    have hr : b.constants.next + constant.width ≤ 0xFFFF := of_decide_eq_true hr
    have hw : 1 ≤ constant.width := by unfold Constant.width; split <;> omega
    omega
  have hi : (b.add constant).1.toNat = b.constants.next := UInt16.toNat_ofNat_of_lt' hlt
  rw [hi]
  exact Slots.get?_push_next _

theorem Sound.add (h : b.Sound) (hn : b.indices[constant]? = none)
    (hr : b.hasRoom constant = true) : (b.add constant).2.Sound where
  indices := by
    intro other index hi
    by_cases hc : constant = other
    · subst hc
      have hi' : (b.add constant).1 = index := by
        simpa [Builder.add, Std.HashMap.getElem?_insert] using hi
      exact hi' ▸ get?_add b constant hr
    · have hold : b.indices[other]? = some index := by
        simpa [Builder.add, Std.HashMap.getElem?_insert, hc] using hi
      exact (within_add hn).constants (h.indices hold)
  bootstrapIndices := h.bootstrapIndices

theorem within_addBootstrap (hn : b.bootstrapIndices[entry]? = none) :
    b.Within (b.addBootstrap entry).2 where
  constants := id
  bootstrap := by
    intro place other hp
    obtain ⟨hlt, -⟩ := Array.getElem?_eq_some_iff.mp hp
    simp [addBootstrap, Array.getElem?_push, Nat.ne_of_lt hlt, hp]
  indices := id
  bootstrapIndices := by
    intro other index hi
    have hne : entry ≠ other := by
      rintro rfl
      rw [hn] at hi
      cases hi
    simp [addBootstrap, Std.HashMap.getElem?_insert, hne, hi]

theorem Sound.addBootstrap (h : b.Sound) (hn : b.bootstrapIndices[entry]? = none) :
    (b.addBootstrap entry).2.Sound where
  indices := h.indices
  bootstrapIndices := by
    intro other index hi
    by_cases hc : entry = other
    · subst hc
      have hi' : UInt16.ofNat b.bootstrap.size = index := by
        simpa [Builder.addBootstrap, Std.HashMap.getElem?_insert] using hi
      exact ⟨b.bootstrap.size, by simp [Builder.addBootstrap], hi'.symm⟩
    · have hold : b.bootstrapIndices[other]? = some index := by
        simpa [Builder.addBootstrap, Std.HashMap.getElem?_insert, hc] using hi
      obtain ⟨place, hp, rfl⟩ := h.bootstrapIndices hold
      exact ⟨place, (within_addBootstrap hn).bootstrap hp, rfl⟩

end Builder
end ClassTree.Pool
