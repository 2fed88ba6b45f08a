import ClassTree.Flow.Graph
import ClassTree.Proofs.Outcome

namespace ClassTree.Flow

namespace Worklist

def Honest (work : Worklist) : Prop :=
  ∀ i, work.queued[i]? = some true → i ∈ work.pending

variable {work : Worklist} {i : Nat}

theorem honest_empty (size : Nat) : (empty size).Honest := by
  intro i hi
  simp [empty, Array.getElem?_replicate] at hi

theorem push_of_queued (hq : work.queued.getD i true = true) : work.push i = work := by
  obtain ⟨pending, queued⟩ := work
  exact if_pos hq

theorem push_of_not_queued (hq : ¬ work.queued.getD i true = true) :
    work.push i = ⟨i :: work.pending, work.queued.setIfInBounds i true⟩ := by
  obtain ⟨pending, queued⟩ := work
  exact if_neg hq

theorem mem_push (hh : work.Honest) (hi : i < work.queued.size) : i ∈ (work.push i).pending := by
  by_cases hq : work.queued.getD i true = true
  · rw [push_of_queued hq]
    exact hh i (by simpa [hi] using hq)
  · rw [push_of_not_queued hq]
    exact List.mem_cons_self

theorem subset_push (j : Nat) : ∀ i ∈ work.pending, i ∈ (work.push j).pending := by
  intro i hi
  by_cases hq : work.queued.getD j true = true
  · rwa [push_of_queued hq]
  · rw [push_of_not_queued hq]
    exact List.mem_cons_of_mem _ hi

@[simp] theorem size_push (j : Nat) : (work.push j).queued.size = work.queued.size := by
  by_cases hq : work.queued.getD j true = true
  · rw [push_of_queued hq]
  · rw [push_of_not_queued hq, Array.size_setIfInBounds]

theorem Honest.push (hh : work.Honest) (j : Nat) : (work.push j).Honest := by
  by_cases hq : work.queued.getD j true = true
  · rwa [push_of_queued hq]
  · rw [push_of_not_queued hq]
    intro i hi
    by_cases hij : j = i
    · exact hij ▸ List.mem_cons_self
    · simp only [Array.getElem?_setIfInBounds, if_neg hij] at hi
      exact List.mem_cons_of_mem _ (hh i hi)

/-- Taking a place either finds nothing waiting or takes the first one. -/
theorem pop_cases (work : Worklist) :
    (work.pending = [] ∧ work.pop = (none, work)) ∨
      ∃ i work', work.pop = (some i, work') ∧ work.pending = i :: work'.pending ∧
        work'.queued = work.queued.setIfInBounds i false := by
  obtain ⟨pending, queued⟩ := work
  cases pending with
  | nil => exact .inl ⟨rfl, rfl⟩
  | cons i pending => exact .inr ⟨i, _, rfl, rfl, rfl⟩

theorem Honest.pop (hh : work.Honest) {work' : Worklist}
    (hc : work.pending = i :: work'.pending)
    (hq : work'.queued = work.queued.setIfInBounds i false) : work'.Honest := by
  intro j hj
  rw [hq, Array.getElem?_setIfInBounds] at hj
  split at hj
  · split at hj <;> cases hj
  · rename_i hij
    have hm := hh j hj
    rw [hc] at hm
    exact (List.mem_cons.mp hm).resolve_left (Ne.symm hij)

end Worklist

theorem drain_visit {σ ε : Type} {pop : σ → Option Nat × σ} {visit : σ → Nat → Except ε σ}
    {unsettled : ε} {bound i : Nat} {s s' s'' : σ} (hp : pop s = (some i, s'))
    (hv : visit s' i = .ok s'') :
    drain pop visit unsettled (bound + 1) s = drain pop visit unsettled bound s'' := by
  rw [drain, hp]
  simp only [hv]
  rfl

theorem drain_done {σ ε : Type} {pop : σ → Option Nat × σ} {visit : σ → Nat → Except ε σ}
    {unsettled : ε} {bound : Nat} {s s' : σ} (hp : pop s = (none, s')) :
    drain pop visit unsettled bound s = .ok s' := by
  cases bound <;> rw [drain, hp]

/-- A run from one state to another one that visits places in turn until none is waiting. -/
inductive Drains {σ ε : Type} (pop : σ → Option Nat × σ) (visit : σ → Nat → Except ε σ) :
    σ → List Nat → σ → Prop
  | done {s s' : σ} (popped : pop s = (none, s')) : Drains pop visit s [] s'
  | visit {s s' s'' final : σ} {i : Nat} {visits : List Nat} (popped : pop s = (some i, s'))
      (visited : visit s' i = .ok s'') (rest : Drains pop visit s'' visits final) :
      Drains pop visit s (i :: visits) final

/-- A run that visits places in turn until none is waiting or a visit fails. -/
inductive Halts {σ ε : Type} (pop : σ → Option Nat × σ) (visit : σ → Nat → Except ε σ) :
    σ → List Nat → Except ε σ → Prop
  | done {s s' : σ} (popped : pop s = (none, s')) : Halts pop visit s [] (.ok s')
  | failed {s s' : σ} {i : Nat} {e : ε} (popped : pop s = (some i, s'))
      (visited : visit s' i = .error e) : Halts pop visit s [i] (.error e)
  | visit {s s' s'' : σ} {i : Nat} {visits : List Nat} {outcome : Except ε σ}
      (popped : pop s = (some i, s')) (visited : visit s' i = .ok s'')
      (rest : Halts pop visit s'' visits outcome) : Halts pop visit s (i :: visits) outcome

theorem Halts.drain_eq {σ ε : Type} {pop : σ → Option Nat × σ} {visit : σ → Nat → Except ε σ}
    {unsettled : ε} {s : σ} {visits : List Nat} {outcome : Except ε σ}
    (h : Halts pop visit s visits outcome) {bound : Nat} (hb : visits.length ≤ bound) :
    drain pop visit unsettled bound s = outcome := by
  induction h generalizing bound with
  | done popped => exact drain_done popped
  | failed popped visited =>
    cases bound with
    | zero => cases hb
    | succ bound =>
      rw [drain, popped]
      simp only [visited]
      rfl
  | visit popped visited _ ih =>
    cases bound with
    | zero => cases hb
    | succ bound =>
      rw [drain_visit popped visited]
      exact ih (Nat.le_of_succ_le_succ hb)

theorem Drains.halts {σ ε : Type} {pop : σ → Option Nat × σ} {visit : σ → Nat → Except ε σ}
    {s final : σ} {visits : List Nat} (h : Drains pop visit s visits final) :
    Halts pop visit s visits (.ok final) := by
  induction h with
  | done popped => exact .done popped
  | visit popped visited _ ih => exact .visit popped visited ih

theorem Drains.drain_eq {σ ε : Type} {pop : σ → Option Nat × σ} {visit : σ → Nat → Except ε σ}
    {unsettled : ε} {s final : σ} {visits : List Nat} (h : Drains pop visit s visits final)
    {bound : Nat} (hb : visits.length ≤ bound) : drain pop visit unsettled bound s = .ok final :=
  h.halts.drain_eq hb

/-- What every visit keeps holds of the last state, in which nothing is waiting. -/
theorem drain_ok {σ ε : Type} {P : σ → Prop} {pop : σ → Option Nat × σ}
    {visit : σ → Nat → Except ε σ} {unsettled : ε} {bound : Nat} {state final : σ}
    (step : ∀ s i s' s'', P s → pop s = (some i, s') → visit s' i = .ok s'' → P s'')
    (h : P state) (hd : drain pop visit unsettled bound state = .ok final) :
    ∃ last, P last ∧ pop last = (none, final) := by
  induction bound generalizing state with
  | zero =>
    rw [drain] at hd
    split at hd
    · rename_i next hp
      cases hd
      exact ⟨state, h, hp⟩
    · cases hd
  | succ bound ih =>
    rw [drain] at hd
    split at hd
    · rename_i next hp
      cases hd
      exact ⟨state, h, hp⟩
    · rename_i i next hp
      obtain ⟨after, hv, hd⟩ := bind_eq_ok.mp hd
      exact ih (step state i next after h hp hv) hd

end ClassTree.Flow
