import ClassTree.Proofs.Code.Operands
import ClassTree.Proofs.Code.Widening

namespace ClassTree.Code

open Pool Build

variable {method : String} {hasFrames : Bool} {body : Body} {b b' : Builder} {offsets : Offsets}
  {sites : List Site} {labels : Nat}

/-- How rounds end, and how many of them change the code. No round asks which jumps were put there
by the ones before. -/
inductive Rounds (method : String) (hasFrames : Bool) :
    Nat → Body → Builder → Except Error LaidOut × Builder → Prop
  | noRoom {body : Body} {b b' : Builder} {fault : Error}
      (full : (layout body.code).exec b = (.error fault, b')) :
      Rounds method hasFrames 0 body b (.error fault, b')
  | tooLong {body : Body} {b b' : Builder} {offsets : Offsets}
      (laid : Yields (layout body.code) b offsets b') (long : maxLength < offsets.length) :
      Rounds method hasFrames 0 body b
        (.error (.inconsistent (.codeTooLarge method offsets.length)), b')
  | outOfRange {body : Body} {b b' : Builder} {offsets : Offsets}
      (laid : Yields (layout body.code) b offsets b') (short : offsets.length ≤ maxLength)
      (frames : hasFrames = true)
      (far : body.code.zipIdx.any (isFarCondition offsets body.code) = true) :
      Rounds method hasFrames 0 body b (.error (.inconsistent (.jumpOutOfRange method)), b')
  | reached {body : Body} {b b' : Builder} {offsets : Offsets}
      (laid : Yields (layout body.code) b offsets b') (short : offsets.length ≤ maxLength)
      (near : body.code.zipIdx.any (isFar offsets body.code) = false) :
      Rounds method hasFrames 0 body b (.ok ⟨body.code, body.labels, offsets⟩, b')
  | again {body : Body} {b b' : Builder} {offsets : Offsets} {n : Nat}
      {outcome : Except Error LaidOut × Builder}
      (laid : Yields (layout body.code) b offsets b') (short : offsets.length ≤ maxLength)
      (far : body.code.zipIdx.any (isFar offsets body.code) = true)
      (plain : hasFrames = true → body.code.zipIdx.any (isFarCondition offsets body.code) = false)
      (rest : Rounds method hasFrames n (widenFar (isFar offsets body.code) body) b' outcome) :
      Rounds method hasFrames (n + 1) body b outcome

theorem any_isFar_of_any_isFarCondition {code : List (Instruction Label)}
    {entries : List (Instruction Label × Nat)}
    (h : entries.any (isFarCondition offsets code) = true) :
    entries.any (isFar offsets code) = true := by
  obtain ⟨entry, hm, hfar⟩ := List.any_eq_true.mp h
  exact List.any_eq_true.mpr ⟨entry, hm, (Bool.and_eq_true_iff.mp hfar).1⟩

/-- Rounds end in one way only. -/
theorem Rounds.unique {n n' : Nat} {outcome outcome' : Except Error LaidOut × Builder}
    (h : Rounds method hasFrames n body b outcome)
    (h' : Rounds method hasFrames n' body b outcome') : n = n' ∧ outcome = outcome' := by
  -- the layout is the same in both, so that what is asked of it decides
  induction h generalizing n' with
  | noRoom full =>
    cases h' with
    | noRoom full' =>
      cases full.symm.trans full'
      exact ⟨rfl, rfl⟩
    | tooLong laid | outOfRange laid | reached laid | again laid => cases full.symm.trans laid
  | tooLong laid long =>
    cases h' with
    | noRoom full => cases full.symm.trans laid
    | tooLong laid' =>
      cases laid.symm.trans laid'
      exact ⟨rfl, rfl⟩
    | outOfRange laid' short | reached laid' short | again laid' short =>
      cases laid.symm.trans laid'
      exact absurd long (Nat.not_lt.mpr short)
  | outOfRange laid short frames far =>
    cases h' with
    | noRoom full => cases full.symm.trans laid
    | tooLong laid' long =>
      cases laid.symm.trans laid'
      exact absurd long (Nat.not_lt.mpr short)
    | outOfRange laid' =>
      cases laid.symm.trans laid'
      exact ⟨rfl, rfl⟩
    | reached laid' _ near =>
      cases laid.symm.trans laid'
      cases near.symm.trans (any_isFar_of_any_isFarCondition far)
    | again laid' _ _ plain =>
      cases laid.symm.trans laid'
      cases far.symm.trans (plain frames)
  | reached laid short near =>
    cases h' with
    | noRoom full => cases full.symm.trans laid
    | tooLong laid' long =>
      cases laid.symm.trans laid'
      exact absurd long (Nat.not_lt.mpr short)
    | outOfRange laid' _ _ far =>
      cases laid.symm.trans laid'
      cases near.symm.trans (any_isFar_of_any_isFarCondition far)
    | reached laid' =>
      cases laid.symm.trans laid'
      exact ⟨rfl, rfl⟩
    | again laid' _ far =>
      cases laid.symm.trans laid'
      cases near.symm.trans far
  | again laid short far plain _ ih =>
    cases h' with
    | noRoom full => cases full.symm.trans laid
    | tooLong laid' long =>
      cases laid.symm.trans laid'
      exact absurd long (Nat.not_lt.mpr short)
    | outOfRange laid' _ frames farCondition =>
      cases laid.symm.trans laid'
      cases farCondition.symm.trans (plain frames)
    | reached laid' _ near =>
      cases laid.symm.trans laid'
      cases near.symm.trans far
    | again laid' _ _ _ rest =>
      cases laid.symm.trans laid'
      obtain ⟨rfl, rfl⟩ := ih rest
      exact ⟨rfl, rfl⟩

/-- Code that has been laid out in the end would be laid out so again. -/
theorem Rounds.laid {n : Nat} {laidOut : LaidOut}
    (h : Rounds method hasFrames n body b (.ok laidOut, b')) :
    Yields (layout laidOut.code) b' laidOut.offsets b' := by
  generalize ho : (Except.ok laidOut, b') = outcome at h
  induction h with
  | reached laid =>
    obtain ⟨rfl, rfl⟩ : laidOut = _ ∧ b' = _ := by simpa using ho
    exact (lawful_layout _).again laid (.refl _)
  | again _ _ _ _ _ ih => exact ih ho
  | _ => simp at ho

/-- There are no more rounds than elements that were there before. -/
theorem Widening.ends {body : Body} (method : String) (hasFrames : Bool)
    (h : Widening body sites labels) (b : Builder) :
    ∃ n ≤ sites.countP Site.original, Rounds method hasFrames n (Site.bodyOf sites labels) b
      ((widen method hasFrames (Site.bodyOf sites labels)).exec b) := by
  induction hn : sites.countP Site.original using Nat.strongRecOn generalizing sites labels b with
  | ind n ih =>
    rw [widen_eq, exec_bind]
    rcases hl : (layout (Site.bodyOf sites labels).code).exec b with ⟨fault | offsets, b'⟩
    · exact ⟨0, Nat.zero_le _, .noRoom hl⟩
    dsimp only
    split
    · exact ⟨0, Nat.zero_le _, .tooLong hl ‹_›⟩
    rename_i hshort
    split
    · rename_i hfar
      split
      · rename_i hguard
        rw [Bool.and_eq_true] at hguard
        exact ⟨0, Nat.zero_le _, .outOfRange hl (Nat.le_of_not_lt hshort) hguard.1 hguard.2⟩
      · rename_i hguard
        have hmore := room_decreases (narrow_isFar _ _) (canReturn_of_yields hl) hshort hfar
        obtain ⟨sites', labels', hround, he⟩ := h.exists_round (laid_of_layout hl)
        rw [he] at hmore
        -- there would not be more wide jumps than before, had nothing been widened
        have hlt : sites'.countP Site.original < n := by
          rcases hround.eq_or_countP_lt with rfl | hlt
          · exact absurd hmore (Nat.lt_irrefl _)
          · exact hn ▸ hlt
        obtain ⟨m, hm, hends⟩ := ih _ hlt (h.step hround) b' rfl
        rw [← he] at hends
        refine ⟨m + 1, by omega, .again hl (Nat.le_of_not_lt hshort) hfar ?_ hends⟩
        intro hframes
        simpa [hframes] using hguard
    · rename_i hfar
      exact ⟨0, Nat.zero_le _,
        .reached hl (Nat.le_of_not_lt hshort) (Bool.eq_false_iff.mpr hfar)⟩

/-- Widening is done in rounds, of which there are no more than elements. -/
theorem rounds_widen (method : String) (hasFrames : Bool) (howns : body.Owns) (b : Builder) :
    ∃ n ≤ body.code.length,
      Rounds method hasFrames n body b ((widen method hasFrames body).exec b) := by
  obtain ⟨n, hn, hends⟩ := (widening_start howns).ends method hasFrames b
  rw [bodyOf_original] at hends
  exact ⟨n, Nat.le_trans hn (Nat.le_trans List.countP_le_length (by simp)), hends⟩

variable {laidOut : LaidOut}

variable {targets : List Label}

/-- A condition that leads past a table of targets. -/
def tabled (targets : List Label) : Body :=
  ⟨[.jump .ifeq ⟨0⟩, .tableSwitch 0 8999 ⟨0⟩ targets, .label ⟨0⟩, .plain .returnVoid], 1⟩

end ClassTree.Code
