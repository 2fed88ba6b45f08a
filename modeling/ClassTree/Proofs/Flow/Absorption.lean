import ClassTree.Flow.Types
import ClassTree.Proofs.Flow.Merging

namespace ClassTree.Flow

variable {hierarchy : Hierarchy} {a b c e g m : List SlotType}

/-- Merging the second list of types into the first one gives the first one back. -/
def Above (hierarchy : Hierarchy) (e g : List SlotType) : Prop :=
  List.zipWith (mergeTypes hierarchy) e g = e

@[simp] theorem above_nil (g : List SlotType) : Above hierarchy [] g := rfl

@[simp] theorem above_cons_cons {x y : SlotType} :
    Above hierarchy (x :: e) (y :: g) ↔ mergeTypes hierarchy x y = x ∧ Above hierarchy e g := by
  simp [Above]

@[simp] theorem not_above_cons_nil {x : SlotType} : ¬ Above hierarchy (x :: e) [] := by
  simp [Above]

theorem Above.refl (e : List SlotType) : Above hierarchy e e := by
  induction e with
  | nil => simp
  | cons x e ih => simp [ih]

/-- A type that has taken in another one has taken in what that one did. -/
theorem mergeTypes_absorb_trans (hj : hierarchy.JoinsClasses) {x y z : SlotType}
    (hxy : mergeTypes hierarchy x y = x) (hyz : mergeTypes hierarchy y z = y) :
    mergeTypes hierarchy x z = x := by
  calc mergeTypes hierarchy x z = mergeTypes hierarchy (mergeTypes hierarchy x y) z := by rw [hxy]
    _ = mergeTypes hierarchy x (mergeTypes hierarchy y z) := mergeTypes_assoc hj x y z
    _ = x := by rw [hyz, hxy]

theorem mergeTypes_absorb_left (hj : hierarchy.JoinsClasses) (x y : SlotType) :
    mergeTypes hierarchy (mergeTypes hierarchy x y) x = mergeTypes hierarchy x y := by
  rw [mergeTypes_comm hj, ← mergeTypes_assoc hj, mergeTypes_self]

theorem mergeTypes_absorb_right (hj : hierarchy.JoinsClasses) (x y : SlotType) :
    mergeTypes hierarchy (mergeTypes hierarchy x y) y = mergeTypes hierarchy x y := by
  rw [mergeTypes_assoc hj, mergeTypes_self]

theorem Above.trans (hj : hierarchy.JoinsClasses) (hab : Above hierarchy a b)
    (hbc : Above hierarchy b c) : Above hierarchy a c := by
  induction a generalizing b c with
  | nil => simp
  | cons x a ih =>
    cases b with
    | nil => simp at hab
    | cons y b =>
      cases c with
      | nil => simp at hbc
      | cons z c =>
        rw [above_cons_cons] at hab hbc ⊢
        exact ⟨mergeTypes_absorb_trans hj hab.1 hbc.1, ih hab.2 hbc.2⟩

theorem above_zipWith_left (hj : hierarchy.JoinsClasses) (e g : List SlotType) :
    Above hierarchy (List.zipWith (mergeTypes hierarchy) e g) e := by
  induction e generalizing g with
  | nil => simp
  | cons x e ih =>
    cases g with
    | nil => simp
    | cons y g => simp [mergeTypes_absorb_left hj, ih]

theorem above_zipWith_right (hj : hierarchy.JoinsClasses) (e g : List SlotType) :
    Above hierarchy (List.zipWith (mergeTypes hierarchy) e g) g := by
  induction e generalizing g with
  | nil => simp
  | cons x e ih =>
    cases g with
    | nil => simp
    | cons y g => simp [mergeTypes_absorb_right hj, ih]

/-- No place of the stack is left without something usable by a merge. -/
def Mergeable (hierarchy : Hierarchy) (e g : List SlotType) : Prop :=
  ∀ p ∈ e.zip g, mergeTypes hierarchy p.1 p.2 = .top → p.1 = .top

theorem mergeable_cons {x y : SlotType} : Mergeable hierarchy (x :: e) (y :: g) ↔
    (mergeTypes hierarchy x y = .top → x = .top) ∧ Mergeable hierarchy e g := by
  simp [Mergeable]

theorem Above.mergeable (h : Above hierarchy e g) : Mergeable hierarchy e g := by
  induction e generalizing g with
  | nil => simp [Mergeable]
  | cons x e ih =>
    cases g with
    | nil => simp [Mergeable]
    | cons y g =>
      rw [above_cons_cons] at h
      exact mergeable_cons.mpr ⟨fun ht => by rw [← h.1, ht], ih h.2⟩

theorem foldlM_mergeOnStack (e g done m : List SlotType) :
    (e.zip g).foldlM (fun merged (type₁, type₂) =>
        return (← mergeOnStack hierarchy type₁ type₂) :: merged) done = .ok m ↔
      Mergeable hierarchy e g ∧
        m = (List.zipWith (mergeTypes hierarchy) e g).reverse ++ done := by
  induction e generalizing g done with
  | nil => simp [Mergeable, pure, Except.pure, eq_comm]
  | cons x e ih =>
    cases g with
    | nil => simp [Mergeable, pure, Except.pure, eq_comm]
    | cons y g =>
      rw [mergeable_cons, List.zip_cons_cons, List.foldlM_cons]
      by_cases hm : mergeTypes hierarchy x y = .top ∧ x ≠ .top
      · have he : mergeOnStack hierarchy x y = .error (.unmergeable x y) := if_pos hm
        simp [he, hm, bind, Except.bind]
      · have he : mergeOnStack hierarchy x y = .ok (mergeTypes hierarchy x y) := if_neg hm
        have hok : mergeTypes hierarchy x y = .top → x = .top := by simpa using hm
        have hi := ih g (mergeTypes hierarchy x y :: done)
        simp only [he, bind, Except.bind, pure, Except.pure] at hi ⊢
        rw [hi, List.zipWith_cons_cons, List.reverse_cons, List.append_assoc, List.singleton_append]
        exact and_congr_left' ⟨fun h => ⟨hok, h⟩, And.right⟩

theorem mergeStacks_eq_ok (hl : e.length = g.length) :
    mergeStacks hierarchy e g = .ok m ↔
      Mergeable hierarchy e g ∧ m = List.zipWith (mergeTypes hierarchy) e g := by
  have hz : e.reverse.zip g.reverse = (e.zip g).reverse := by
    simp only [List.zip, List.reverse_zipWith hl]
  have hw : List.zipWith (mergeTypes hierarchy) e.reverse g.reverse =
      (List.zipWith (mergeTypes hierarchy) e g).reverse := (List.reverse_zipWith hl).symm
  have hm : Mergeable hierarchy e.reverse g.reverse ↔ Mergeable hierarchy e g := by
    simp [Mergeable, hz]
  rw [mergeStacks, foldlM_mergeOnStack, hm, hw]
  simp

/-- When frames can be merged, and what comes out. -/
theorem mergeFrames_eq_ok {existing incoming merged : SlotFrame} :
    mergeFrames hierarchy existing incoming = .ok merged ↔
      existing.stack.length = incoming.stack.length ∧
      Mergeable hierarchy existing.stack incoming.stack ∧
      merged = ⟨List.zipWith (mergeTypes hierarchy) existing.locals incoming.locals,
        List.zipWith (mergeTypes hierarchy) existing.stack incoming.stack⟩ := by
  unfold mergeFrames
  by_cases hl : existing.stack.length = incoming.stack.length
  · simp only [hl, ne_eq, not_true_eq_false, if_false, true_and]
    cases hs : mergeStacks hierarchy existing.stack incoming.stack with
    | error fault =>
      have hn : ¬ Mergeable hierarchy existing.stack incoming.stack := by
        intro hm
        have := (mergeStacks_eq_ok hl).mpr ⟨hm, rfl⟩
        rw [hs] at this
        cases this
      simp [hn, bind, Except.bind]
    | ok stack =>
      obtain ⟨hm, rfl⟩ := (mergeStacks_eq_ok hl).mp hs
      simp [hm, bind, Except.bind, pure, Except.pure, eq_comm]
  · simp [hl, throw, throwThe, MonadExceptOf.throw, bind, Except.bind]

/-- The first frame allows for everything that the second one does: merging that one in succeeds
and changes nothing. -/
def Absorbs (hierarchy : Hierarchy) (existing incoming : SlotFrame) : Prop :=
  mergeFrames hierarchy existing incoming = .ok existing

variable {f f' f'' : SlotFrame}

theorem absorbs_iff : Absorbs hierarchy f f' ↔
    f.stack.length = f'.stack.length ∧ Above hierarchy f.locals f'.locals ∧
      Above hierarchy f.stack f'.stack := by
  unfold Absorbs
  rw [mergeFrames_eq_ok]
  constructor
  · rintro ⟨hl, -, he⟩
    exact ⟨hl, (congrArg SlotFrame.locals he).symm, (congrArg SlotFrame.stack he).symm⟩
  · rintro ⟨hl, hv, hs⟩
    exact ⟨hl, hs.mergeable, by
      rw [show List.zipWith _ _ _ = _ from hv, show List.zipWith _ _ _ = _ from hs]⟩

theorem Absorbs.refl (f : SlotFrame) : Absorbs hierarchy f f :=
  absorbs_iff.mpr ⟨rfl, .refl _, .refl _⟩

theorem Absorbs.trans (hj : hierarchy.JoinsClasses) (h : Absorbs hierarchy f f')
    (h' : Absorbs hierarchy f' f'') : Absorbs hierarchy f f'' := by
  obtain ⟨hl, hv, hs⟩ := absorbs_iff.mp h
  obtain ⟨hl', hv', hs'⟩ := absorbs_iff.mp h'
  exact absorbs_iff.mpr ⟨hl.trans hl', hv.trans hj hv', hs.trans hj hs'⟩

/-- What two frames merge to allows for both. -/
theorem absorbs_of_mergeFrames (hj : hierarchy.JoinsClasses)
    (h : mergeFrames hierarchy f f' = .ok f'') :
    Absorbs hierarchy f'' f ∧ Absorbs hierarchy f'' f' := by
  obtain ⟨hl, -, rfl⟩ := mergeFrames_eq_ok.mp h
  constructor
  · refine absorbs_iff.mpr ⟨?_, above_zipWith_left hj _ _, above_zipWith_left hj _ _⟩
    rw [List.length_zipWith]
    omega
  · refine absorbs_iff.mpr ⟨?_, above_zipWith_right hj _ _, above_zipWith_right hj _ _⟩
    rw [List.length_zipWith]
    omega

end ClassTree.Flow
