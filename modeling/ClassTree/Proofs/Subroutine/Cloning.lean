import ClassTree.Proofs.Code.Labels
import ClassTree.Proofs.Subroutine.Copies

namespace ClassTree.Subroutine

variable {owns : Nat → Bool} {code : List (Instruction Label)} {insn : Instruction Label}
  {label : Label} {labels : Std.HashMap Label Label} {lo hi : Nat}

theorem getElem?_concat_eq_some {α : Type} {l : List α} {a b : α} {i : Nat} :
    (l ++ [a])[i]? = some b ↔ l[i]? = some b ∨ i = l.length ∧ a = b := by
  rcases Nat.lt_trichotomy i l.length with hlt | rfl | hgt
  · rw [List.getElem?_append_left hlt]
    exact ⟨.inl, fun h => h.resolve_right fun ⟨he, _⟩ => Nat.ne_of_lt hlt he⟩
  · simp
  · rw [List.getElem?_eq_none (by simp; omega), List.getElem?_eq_none (Nat.le_of_lt hgt)]
    simp [Nat.ne_of_gt hgt]

/-- What stands for the labels of some code, where a copy emits what it owns. -/
structure Clones (owns : Nat → Bool) (code : List (Instruction Label))
    (labels : Std.HashMap Label Label) (lo hi : Nat) : Prop where
  below : lo ≤ hi
  stands : ∀ {i : Nat} {label : Label}, code[i]? = some (.label label) →
    ∃ clone, labels[label]? = some clone
  placed : ∀ {label clone : Label}, labels[label]? = some clone →
    ∃ i : Nat, code[i]? = some (.label label)
  within : ∀ {label clone : Label}, labels[label]? = some clone →
    lo ≤ clone.index ∧ clone.index < hi
  ordered : ∀ {i j : Nat} {first last clone clone' : Label}, code[i]? = some (.label first) →
    code[j]? = some (.label last) → labels[first]? = some clone → labels[last]? = some clone' →
    i ≤ j → clone.index ≤ clone'.index
  /-- Nothing is emitted between labels that share one. -/
  joined : ∀ {i j m : Nat} {first last clone : Label} {insn : Instruction Label},
    code[i]? = some (.label first) → code[j]? = some (.label last) →
    labels[first]? = some clone → labels[last]? = some clone →
    i ≤ m → m < j → code[m]? = some insn → insn.placed? = none → owns m = false

structure CloningTo (owns : Nat → Bool) (code : List (Instruction Label)) (lo : Nat)
    (state : Cloning) : Prop where
  clones : Clones owns code state.labels lo state.supply
  latest : ∀ {clone}, state.current = some clone → lo ≤ clone.index ∧ clone.index + 1 = state.supply
  recent : ∀ {i m : Nat} {label clone : Label} {insn : Instruction Label},
    state.current = some clone → code[i]? = some (.label label) →
    state.labels[label]? = some clone → i ≤ m → code[m]? = some insn → insn.placed? = none →
    owns m = false

/-- A label gets what stands for the label before it, or something new. -/
theorem Clones.insert (h : Clones owns code labels lo hi) {clone : Label} {hi' : Nat}
    (hnew : .label label ∉ code) (hlo : lo ≤ clone.index) (hhi : clone.index + 1 = hi')
    (hle : hi ≤ hi')
    (hrecent : ∀ {i m : Nat} {first : Label} {insn : Instruction Label},
      code[i]? = some (.label first) → labels[first]? = some clone → i ≤ m →
      code[m]? = some insn → insn.placed? = none → owns m = false) :
    Clones owns (code ++ [.label label]) (labels.insert label clone) lo hi' := by
  have hold : ∀ {i : Nat} {other : Label}, code[i]? = some (.label other) → ∀ found : Label,
      (labels.insert label clone)[other]? = some found ↔ labels[other]? = some found := by
    intro i other hi found
    have hne : ¬ (label == other) = true := by
      rintro he
      obtain rfl := eq_of_beq he
      exact hnew (List.mem_of_getElem? hi)
    rw [Std.HashMap.getElem?_insert, if_neg hne]
  have hself : (labels.insert label clone)[label]? = some clone :=
    Std.HashMap.getElem?_insert_self
  refine ⟨by omega, ?_, ?_, ?_, ?_, ?_⟩
  · intro i other hi
    rcases getElem?_concat_eq_some.mp hi with hi | ⟨-, he⟩
    · obtain ⟨found, hf⟩ := h.stands hi
      exact ⟨found, (hold hi found).mpr hf⟩
    · obtain rfl := Instruction.label.inj he
      exact ⟨clone, hself⟩
  · intro other found hf
    rw [Std.HashMap.getElem?_insert] at hf
    split at hf
    · rename_i he
      obtain rfl := eq_of_beq he
      exact ⟨code.length, List.getElem?_concat_length⟩
    · obtain ⟨i, hi⟩ := h.placed hf
      exact ⟨i, getElem?_concat_eq_some.mpr (.inl hi)⟩
  · intro other found hf
    rw [Std.HashMap.getElem?_insert] at hf
    split at hf
    · obtain rfl := Option.some.inj hf
      omega
    · have := h.within hf
      omega
  · intro i j first last found found' hi hj hf hf' hij
    rcases getElem?_concat_eq_some.mp hi with hi | ⟨rfl, he⟩ <;>
      rcases getElem?_concat_eq_some.mp hj with hj | ⟨rfl, he'⟩
    · exact h.ordered hi hj ((hold hi _).mp hf) ((hold hj _).mp hf') hij
    · obtain rfl := Instruction.label.inj he'
      obtain rfl := Option.some.inj (hself.symm.trans hf')
      have := h.within ((hold hi _).mp hf)
      omega
    · have := (List.getElem?_eq_some_iff.mp hj).1
      omega
    · obtain rfl := Instruction.label.inj he
      obtain rfl := Instruction.label.inj he'
      obtain rfl := Option.some.inj (hf.symm.trans hf')
      exact Nat.le_refl _
  · intro i j m first last found insn hi hj hf hf' him hmj hm hp
    rcases getElem?_concat_eq_some.mp hm with hm | ⟨rfl, he⟩
    · have hmlt := (List.getElem?_eq_some_iff.mp hm).1
      rcases getElem?_concat_eq_some.mp hi with hi | ⟨rfl, -⟩
      · rcases getElem?_concat_eq_some.mp hj with hj | ⟨rfl, he'⟩
        · exact h.joined hi hj ((hold hi _).mp hf) ((hold hj _).mp hf') him hmj hm hp
        · obtain rfl := Instruction.label.inj he'
          obtain rfl := Option.some.inj (hself.symm.trans hf')
          exact hrecent hi ((hold hi _).mp hf) him hm hp
      · omega
    · rw [← he] at hp
      cases hp

theorem Clones.append (h : Clones owns code labels lo hi) (hp : insn.placed? = none) :
    Clones owns (code ++ [insn]) labels lo hi := by
  have hold : ∀ {i : Nat} {other : Label}, (code ++ [insn])[i]? = some (.label other) →
      code[i]? = some (.label other) := by
    intro i other hi
    refine (getElem?_concat_eq_some.mp hi).resolve_right ?_
    rintro ⟨-, rfl⟩
    cases hp
  refine ⟨h.below, fun hi => h.stands (hold hi), ?_, h.within, ?_, ?_⟩
  · intro label clone hc
    obtain ⟨i, hi⟩ := h.placed hc
    exact ⟨i, getElem?_concat_eq_some.mpr (.inl hi)⟩
  · exact fun hi hj => h.ordered (hold hi) (hold hj)
  · intro i j m first last clone other hi hj hf hl him hmj hm hpm
    have hjlt := (List.getElem?_eq_some_iff.mp (hold hj)).1
    refine h.joined (hold hi) (hold hj) hf hl him hmj ?_ hpm
    rwa [List.getElem?_append_left (Nat.lt_trans hmj hjlt)] at hm

theorem CloningTo.step {state : Cloning} (h : CloningTo owns code lo state)
    (hnew : ∀ label, insn = .label label → .label label ∉ code) :
    CloningTo owns (code ++ [insn]) lo (state.step owns (insn, code.length)) := by
  unfold Cloning.step
  cases hp : insn.placed? with
  | some label =>
    obtain rfl := Instruction.eq_of_placed? hp
    have hnew := hnew label rfl
    have hrecent : ∀ {labels : Std.HashMap Label Label} {clone : Label},
        Clones owns (code ++ [.label label]) labels lo (clone.index + 1) →
        labels[label]? = some clone →
        ∀ {i m : Nat} {other : Label} {insn : Instruction Label},
          (code ++ [.label label])[i]? = some (.label other) → labels[other]? = some clone →
          i ≤ m → (code ++ [.label label])[m]? = some insn → insn.placed? = none →
          owns m = false := by
      intro labels clone hc hl i m other insn hi ho him hm hpm
      rcases getElem?_concat_eq_some.mp hm with hm' | ⟨rfl, he⟩
      · have hlt := (List.getElem?_eq_some_iff.mp hm').1
        exact hc.joined hi List.getElem?_concat_length ho hl him hlt hm hpm
      · rw [← he] at hpm
        cases hpm
    dsimp only
    cases hcur : state.current with
    | some clone =>
      obtain ⟨hlo, hsupply⟩ := h.latest hcur
      have hc := h.clones.insert hnew hlo hsupply (Nat.le_refl _)
        (fun hi hf him hm hpm => h.recent hcur hi hf him hm hpm)
      refine ⟨hc, ?_, ?_⟩
      · rintro _ ⟨⟩
        exact ⟨hlo, hsupply⟩
      · rintro i m other _ insn ⟨⟩ hi ho him hm hpm
        exact hrecent (hsupply ▸ hc) Std.HashMap.getElem?_insert_self hi ho him hm hpm
    | none =>
      have hc := @Clones.insert _ _ _ _ _ _ h.clones ⟨state.supply⟩ _ hnew h.clones.below rfl
        (Nat.le_succ _) (fun hi hf => absurd (h.clones.within hf).2 (Nat.lt_irrefl _))
      refine ⟨hc, ?_, ?_⟩
      · rintro _ ⟨⟩
        exact ⟨h.clones.below, rfl⟩
      · rintro i m other _ insn ⟨⟩ hi ho him hm hpm
        exact hrecent hc Std.HashMap.getElem?_insert_self hi ho him hm hpm
  | none =>
    have hc := h.clones.append hp
    dsimp only
    by_cases ho : owns code.length = true
    · rw [if_pos ho]
      exact ⟨hc, nofun, nofun⟩
    · rw [if_neg ho]
      refine ⟨hc, h.latest, ?_⟩
      intro i m other clone insn' hcur hi hf him hm hpm
      rcases getElem?_concat_eq_some.mp hm with hm | ⟨rfl, -⟩
      · rcases getElem?_concat_eq_some.mp hi with hi | ⟨-, rfl⟩
        · exact h.recent hcur hi hf him hm hpm
        · cases hp
      · simpa using ho

/-- Labels that are placed once each have something that stands for them. -/
theorem cloningTo (owns : Nat → Bool) (lo : Nat) (hn : (code.filterMap Instruction.placed?).Nodup) :
    CloningTo owns code lo (code.zipIdx.foldl (Cloning.step owns) ⟨lo, none, ∅⟩) := by
  induction code using List.reverseRecOn with
  | nil =>
    refine ⟨⟨Nat.le_refl _, ?_, ?_, ?_, ?_, ?_⟩, nofun, nofun⟩ <;> simp
  | append_singleton code insn ih =>
    rw [List.filterMap_append] at hn
    have hstep := @CloningTo.step _ _ insn _ _ (ih (List.nodup_append.mp hn).1) ?_
    · simpa [List.zipIdx_append] using hstep
    · rintro label rfl hm
      have hfirst : label ∈ code.filterMap Instruction.placed? :=
        List.mem_filterMap.mpr ⟨_, hm, rfl⟩
      exact (List.nodup_append.mp hn).2.2 label hfirst label (by simp [Instruction.placed?]) rfl

variable {job : Job} {nesting : Nesting} {supply supply' : Nat} {subroutine : Subroutine}
  {caller : Option Nesting}

/-- The labels of an instance are new, and so is the label that it returns to. -/
theorem clones_instantiate (hn : job.outline.method.body.placed.Nodup)
    (h : job.instantiate supply subroutine caller = .ok (nesting, supply')) :
    Clones nesting.owns job.outline.method.body.code nesting.inner.labels
      (supply + if caller.isSome then 1 else 0) supply' := by
  unfold Job.instantiate at h
  by_cases hw : caller.any (·.isWithin subroutine.entry) = true
  · rw [if_pos hw] at h
    cases h
  · rw [if_neg hw] at h
    cases caller with
    | none =>
      obtain ⟨rfl, rfl⟩ := Prod.mk.inj (pure_eq_ok.mp h)
      exact (cloningTo _ _ hn).clones
    | some caller =>
      obtain ⟨rfl, rfl⟩ := Prod.mk.inj (pure_eq_ok.mp h)
      exact (cloningTo _ _ hn).clones

/-- An instance is within others of different subroutines only. -/
theorem entry_instantiate (h : job.instantiate supply subroutine caller = .ok (nesting, supply')) :
    ∀ nesting' ∈ caller, ∀ other ∈ nesting'.inner :: nesting'.outer,
      other.subroutine.entry ≠ subroutine.entry := by
  intro nesting' hc other ho he
  obtain rfl : caller = some nesting' := hc
  unfold Job.instantiate at h
  rw [if_pos] at h
  · cases h
  · exact List.any_eq_true.mpr ⟨other, ho, by simpa using he⟩

end ClassTree.Subroutine
