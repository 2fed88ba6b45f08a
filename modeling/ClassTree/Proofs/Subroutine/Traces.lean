import ClassTree.Proofs.Subroutine.Copies

namespace ClassTree

/-- States, what can follow each of them, and what is seen when it is left. -/
structure System (σ : Type) where
  step : σ → σ → Prop
  seen : σ → Option Nat

namespace System

variable {σ τ : Type} {system : System σ} {other : System τ} {s s' s'' : σ} {seen seen' : List Nat}

inductive Run (system : System σ) : σ → List Nat → σ → Prop
  | refl (s : σ) : Run system s [] s
  | head {s s' s'' : σ} {seen : List Nat} (step : system.step s s')
      (rest : Run system s' seen s'') : Run system s ((system.seen s).toList ++ seen) s''

/-- All that can be seen from a state on. Where a run ends, what is seen last may still be left out,
or belong to a state that nothing follows. -/
def Traces (system : System σ) (start : σ) (seen : List Nat) : Prop :=
  ∃ run s, system.Run start run s ∧ (seen = run ∨ seen = run ++ (system.seen s).toList)

theorem Run.single (h : system.step s s') : system.Run s (system.seen s).toList s' := by
  have hr := Run.head h (.refl s')
  rwa [List.append_nil] at hr

theorem Run.trans (h : system.Run s seen s') (h' : system.Run s' seen' s'') :
    system.Run s (seen ++ seen') s'' := by
  induction h with
  | refl s => exact h'
  | head step _ ih =>
    rw [List.append_assoc]
    exact .head step (ih h')

/-- What every step keeps, a run keeps. -/
theorem Run.keeps {P : σ → Prop} (hstep : ∀ {s s'}, P s → system.step s s' → P s')
    (h : system.Run s seen s') (hs : P s) : P s' := by
  induction h with
  | refl s => exact hs
  | head step _ ih => exact ih (hstep hs step)

/-- A step that nothing is seen of comes for free. -/
theorem Run.silent (h : system.step s s') (hn : system.seen s = none)
    (hr : system.Run s' seen s'') : system.Run s seen s'' := by
  have hr := Run.head h hr
  rwa [hn] at hr

/-- If every step can be followed, then so can every run. -/
theorem Run.follow {R : σ → τ → Prop}
    (hstep : ∀ {s p s'}, R s p → system.step s s' →
      ∃ p', other.Run p (system.seen s).toList p' ∧ R s' p')
    (h : system.Run s seen s') {p : τ} (hr : R s p) : ∃ p', other.Run p seen p' ∧ R s' p' := by
  induction h generalizing p with
  | refl s => exact ⟨p, .refl p, hr⟩
  | head step _ ih =>
    obtain ⟨p', hrun, hr'⟩ := hstep hr step
    obtain ⟨p'', hrest, hr''⟩ := ih hr'
    exact ⟨p'', hrun.trans hrest, hr''⟩

/-- If every step can be followed, and what is seen of a state can be seen, then all that is seen
from one state is seen from the other. -/
theorem Traces.follow {R : σ → τ → Prop}
    (hstep : ∀ {s p s'}, R s p → system.step s s' →
      ∃ p', other.Run p (system.seen s).toList p' ∧ R s' p')
    (hlast : ∀ {s p x}, R s p → system.seen s = some x →
      ∃ p', other.Run p [] p' ∧ other.seen p' = some x)
    {p : τ} (hr : R s p) (h : system.Traces s seen) : other.Traces p seen := by
  obtain ⟨run, s', hrun, hseen⟩ := h
  obtain ⟨p', hrun', hr'⟩ := hrun.follow hstep hr
  rcases hseen with rfl | rfl
  · exact ⟨_, p', hrun', .inl rfl⟩
  · cases hx : system.seen s' with
    | none => exact ⟨_, p', hrun', .inl (by simp)⟩
    | some x =>
      obtain ⟨p'', hsilent, hlast⟩ := hlast hr' hx
      refine ⟨_, p'', hrun'.trans hsilent, .inr ?_⟩
      rw [List.append_nil, hlast]

end System

namespace Method

variable (method : Method)

def place? (label : Label) : Option Nat :=
  (Flow.Positions.ofCode method.body.code)[label]?

def Protects (handler : TryCatch) (index : Nat) : Prop :=
  ∃ start stop, method.place? handler.start = some start ∧ method.place? handler.stop = some stop ∧
    start ≤ index ∧ index < stop

inductive Leads (i : Nat) : Nat → Prop
  | next {insn : Instruction Label} (at_ : method.body.code[i]? = some insn)
      (continues : Subroutine.Outline.continues insn = true) : Leads i (i + 1)
  | jump {insn : Instruction Label} {label : Label} {j : Nat}
      (at_ : method.body.code[i]? = some insn) (mem : label ∈ insn.jumpTargets)
      (placed : method.place? label = some j) : Leads i j

inductive Throws (i : Nat) : Nat → Prop
  | intro {insn : Instruction Label} {handler : TryCatch} {j : Nat}
      (at_ : method.body.code[i]? = some insn) (real : insn.isMarker = false)
      (mem : handler ∈ method.handlers) (protects : method.Protects handler i)
      (placed : method.place? handler.handler = some j) : Throws i j

/-- The method as it runs without subroutines, where some of its instructions are seen. -/
def flat (seen : Nat → Option Nat) : System Nat :=
  ⟨fun i j => method.Leads i j ∨ method.Throws i j, seen⟩

end Method

namespace Subroutine

/-- Where control is, and where it returns to, from the innermost call on. -/
structure Config where
  index : Nat
  returns : List Nat

def isReturn : Instruction Label → Bool
  | .var .ret _ => true
  | _ => false

variable (method : Method)

inductive Step : Config → Config → Prop
  | leads {i j : Nat} {returns : List Nat} {insn : Instruction Label}
      (at_ : method.body.code[i]? = some insn) (noCall : callTarget? insn = none)
      (leads : method.Leads i j) : Step ⟨i, returns⟩ ⟨j, returns⟩
  | throws {i j : Nat} {returns : List Nat} (throws : method.Throws i j) :
      Step ⟨i, returns⟩ ⟨j, returns⟩
  | call {i j : Nat} {returns : List Nat} {target : Label}
      (at_ : method.body.code[i]? = some (.jump .jsr target))
      (placed : method.place? target = some j) : Step ⟨i, returns⟩ ⟨j, (i + 1) :: returns⟩
  | ret {i j : Nat} {returns : List Nat} {slot : UInt16}
      (at_ : method.body.code[i]? = some (.var .ret slot)) :
      Step ⟨i, j :: returns⟩ ⟨j, returns⟩

def seenAt (i : Nat) : Option Nat :=
  match method.body.code[i]? with
  | some insn =>
    if insn.isMarker || (callTarget? insn).isSome || isReturn insn then none else some i
  | none => none

/-- The method as it runs with its subroutines. -/
def calling : System Config :=
  ⟨Step method, fun config => seenAt method config.index⟩

/-- Control can get to here from the start of the method. -/
def Reaches (config : Config) : Prop :=
  ∃ seen, (calling method).Run ⟨0, []⟩ seen config

variable {method} {config config' : Config} {i : Nat} {insn : Instruction Label}

theorem Reaches.step (h : Reaches method config) (hs : Step method config config') :
    Reaches method config' := by
  obtain ⟨seen, hr⟩ := h
  exact ⟨_, hr.trans (.single hs)⟩

theorem seenAt_marker (hat : method.body.code[i]? = some insn) (hm : insn.isMarker = true) :
    seenAt method i = none := by
  simp [seenAt, hat, hm]

theorem seenAt_call {target : Label} (hat : method.body.code[i]? = some (.jump .jsr target)) :
    seenAt method i = none := by
  simp [seenAt, hat, callTarget?]

theorem seenAt_return {slot : UInt16} (hat : method.body.code[i]? = some (.var .ret slot)) :
    seenAt method i = none := by
  simp [seenAt, hat, isReturn]

theorem seenAt_real (hat : method.body.code[i]? = some insn) (hreal : insn.isMarker = false)
    (noCall : callTarget? insn = none) (noReturn : ∀ slot, insn ≠ .var .ret slot) :
    seenAt method i = some i := by
  have hr : isReturn insn = false := by
    unfold isReturn
    split
    · exact absurd rfl (noReturn _)
    · rfl
  simp [seenAt, hat, hreal, noCall, hr]

theorem real_of_seenAt {j : Nat} (hat : method.body.code[i]? = some insn)
    (h : seenAt method i = some j) : insn.isMarker = false := by
  rw [← Bool.not_eq_true]
  intro hm
  cases (seenAt_marker hat hm).symm.trans h

theorem eq_of_seenAt {j : Nat} (h : seenAt method i = some j) : i = j := by
  unfold seenAt at h
  split at h
  · split at h
    · cases h
    · exact Option.some.inj h
  · cases h

end Subroutine
end ClassTree
