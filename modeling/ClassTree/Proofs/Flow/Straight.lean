import ClassTree.Proofs.Flow.Heights

namespace ClassTree.Flow

variable {hierarchy : Hierarchy} {program : Program} {flow : TypeFlow} {i j : Nat}
  {f f' g : SlotFrame} {insn : Instruction Label} {targets : List Nat} {s s' : TypeState}

namespace Program

structure Straight (program : Program) : Prop where
  targets : ∀ insn ∈ program.code, insn.jumpTargets = []
  handlers : program.handlers = []

/-- The frame before the element at an index when the code is run one element after the other. -/
inductive Runs (program : Program) : Nat → SlotFrame → Prop
  | start : Runs program 0 (.initial program.context)
  | next {i : Nat} {f g : SlotFrame} {insn : Instruction Label} (here : Runs program i f)
      (at_ : program.code[i]? = some insn)
      (runs : (execute program.context program.code i insn).run f = .ok ((), g)) :
      Runs program (i + 1) g

theorem Runs.unique (h : program.Runs i f) (h' : program.Runs i f') : f = f' := by
  induction h generalizing f' with
  | start =>
    cases h'
    rfl
  | next _ at_ runs ih =>
    cases h' with
    | next here' at_' runs' =>
      obtain rfl := ih here'
      obtain rfl := Option.some.inj (at_.symm.trans at_')
      rw [runs] at runs'
      cases runs'
      rfl

/-- What is run has been run up to every element before. -/
theorem Runs.step_before (h : program.Runs i f) (hj : j < i) : ∃ before insn after,
    program.Runs j before ∧ program.code[j]? = some insn ∧
      (execute program.context program.code j insn).run before = .ok ((), after) ∧
      program.Runs (j + 1) after := by
  induction h with
  | start => exact absurd hj (Nat.not_lt_zero _)
  | @next i before after insn here at_ runs ih =>
    rcases Nat.lt_succ_iff_lt_or_eq.mp hj with hlt | rfl
    · exact ih hlt
    · exact ⟨before, insn, after, here, at_, runs, here.next at_ runs⟩

variable (hs : program.Straight)
include hs

theorem Straight.successors (hat : program.code[i]? = some insn)
    (h : successors program.code program.positions i insn = .ok targets) :
    targets = if fallsThrough insn then [i + 1] else [] := by
  obtain ⟨jumps, hjumps, h⟩ := bind_eq_ok.mp h
  rw [hs.targets insn (Array.mem_of_getElem? hat), List.mapM_nil, pure_eq_ok] at hjumps
  subst hjumps
  cases hfalls : fallsThrough insn with
  | false =>
    rw [hfalls] at h
    exact (pure_eq_ok.mp h).symm
  | true =>
    rw [hfalls] at h
    simp only [if_true] at h
    split at h
    · cases h
    · exact (pure_eq_ok.mp h).symm

end Program

theorem mergeFrames_self (h : mergeFrames hierarchy f f = .ok g) : g = f := by
  obtain ⟨-, -, rfl⟩ := mergeFrames_eq_ok.mp h
  simp [List.zipWith_self]

namespace TypeState

variable (hs : program.Straight)
include hs

/-- A visit adds the frame that a run comes to, or finds it there. -/
theorem visit_straight {types : Std.HashMap Nat String}
    (h : ∀ j f, s.flow.At j f → program.Runs j f)
    (hv : visit program hierarchy types s i = .ok s') :
    ∀ j f, s'.flow.At j f → program.Runs j f := by
  obtain ⟨-, rfl⟩ | ⟨before, insn, after, targets, s₁, hbefore, hat, hrun, hgoes, hh, hv⟩ :=
    visit_cases hv
  · exact h
  have hnext : program.Runs (i + 1) after := (h i before hbefore).next hat hrun
  have h₁ : ∀ j f, s₁.flow.At j f → program.Runs j f := by
    rw [hs.handlers, List.filter_nil, ite_self, List.foldlM_nil, pure_eq_ok] at hh
    exact hh ▸ h
  rw [hs.successors hat hgoes] at hv
  refine foldlM_ok (P := fun s : TypeState => ∀ j f, s.flow.At j f → program.Runs j f) ?_ h₁ hv
  intro target hm s s' h hf
  obtain rfl : target = i + 1 := by
    split at hm
    · exact List.mem_singleton.mp hm
    · cases hm
  obtain ⟨-, hp⟩ | ⟨existing, merged, hold, hmerged, ⟨-, rfl⟩ | ⟨hne, -⟩⟩ :=
    flowInto_cases (mapError_eq_ok.mp hf)
  · intro j f hj
    rw [hp.at_iff] at hj
    split at hj
    · rename_i he
      exact he ▸ hj ▸ hnext
    · exact h j f hj
  · exact h
  · obtain rfl := (h _ _ hold).unique hnext
    exact absurd (mergeFrames_self hmerged) hne

end TypeState

/-- In straight-line code, the frames that are computed are those of a run. -/
theorem Program.Straight.runs (hs : program.Straight)
    (h : computeTypes hierarchy program = .ok flow) (hf : flow.At i f) : program.Runs i f := by
  obtain ⟨s, rfl, -, hruns⟩ := run_of_computeTypes h
    (P := fun s => ∀ j f, s.flow.At j f → program.Runs j f)
    (fun _ j f hj => by
      obtain ⟨rfl, rfl⟩ := Program.at_start hj
      exact .start)
    (fun s i s' s'' h hpop hv => by
      have hsame : s'.flow = s.flow := congrArg (fun p => p.2.flow) hpop.symm
      exact TypeState.visit_straight hs (hsame ▸ h) hv)
  exact hruns i f hf

/-- An element that control can continue after is not the last one. -/
theorem Program.Straight.continues (hs : program.Straight)
    (h : computeTypes hierarchy program = .ok flow) (hf : flow.At i f)
    (hat : program.code[i]? = some insn) (hfalls : fallsThrough insn = true) :
    i + 1 < program.code.size := by
  obtain ⟨s, rfl, he, hw⟩ := explores_of_computeTypes h
  obtain ⟨insn', after, targets, hx, -⟩ :=
    (he.explored ⟨f, hf, rfl⟩).resolve_left (by simp [hw])
  obtain rfl := Option.some.inj (hat.symm.trans hx.steps.at_)
  obtain ⟨next, hnext, -⟩ := hx.next (i + 1) (by rw [hs.successors hat hx.steps.goes, hfalls]; simp)
  exact he.size ▸ (Array.getElem?_eq_some_iff.mp hnext).1

end ClassTree.Flow
