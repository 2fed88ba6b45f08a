import Mathlib.Order.Bounds.Basic
import ClassTree.Proofs.Flow.Effects
import ClassTree.Proofs.Flow.Invariants

namespace ClassTree.Flow

/-- Executing the instruction at an index with a stack of some height: the height after it, and
where control goes from there. -/
structure Program.Steps (program : Program) (i before : Nat) (insn : Instruction Label)
    (after : Nat) (targets : List Nat) : Prop where
  at_ : program.code[i]? = some insn
  noCall : isCall insn = false
  delta : ∃ δ, stackDelta insn = .ok δ ∧ (after : Int) = before + δ
  goes : successors program.code program.positions i insn = .ok targets

structure Program.Catches (program : Program) (i : Nat) (range : HandlerRange) : Prop where
  real : ∃ insn, program.code[i]? = some insn ∧ insn.isMarker = false
  mem : range ∈ program.handlers
  covers : range.covers i = true

inductive Program.Height (program : Program) : Nat → Nat → Prop
  | entry : Program.Height program 0 0
  | next {i j before after : Nat} {insn : Instruction Label} {targets : List Nat}
      (here : Program.Height program i before)
      (steps : program.Steps i before insn after targets) (mem : j ∈ targets) :
      Program.Height program j after
  | handler {i before : Nat} {range : HandlerRange} (here : Program.Height program i before)
      (catches : program.Catches i range) : Program.Height program range.handler 1

inductive Program.Gets (program : Program) : Nat → Prop
  | entry : Program.Gets program 0
  | after {i before after : Nat} {insn : Instruction Label} {targets : List Nat}
      (here : program.Height i before) (steps : program.Steps i before insn after targets) :
      Program.Gets program after
  | caught {i before : Nat} {range : HandlerRange} (here : program.Height i before)
      (catches : program.Catches i range) : Program.Gets program 1

/-- The instruction at an index has been followed: heights are known wherever control goes from
there, and none is above the top. -/
structure Program.Explored (program : Program) (known : Nat → Nat → Prop) (top : Nat)
    (i before : Nat) (insn : Instruction Label) (after : Nat) (targets : List Nat) : Prop where
  steps : program.Steps i before insn after targets
  le_top : after ≤ top
  next : ∀ j ∈ targets, known j after
  handler : ∀ range, program.Catches i range → known range.handler 1 ∧ 1 ≤ top

section Exploring

variable {program : Program} {known known' : Nat → Nat → Prop} {top top' i before after : Nat}
  {insn : Instruction Label} {targets : List Nat}

theorem Program.Steps.unique {insn' : Instruction Label} {after' : Nat} {targets' : List Nat}
    (h : program.Steps i before insn after targets)
    (h' : program.Steps i before insn' after' targets') :
    insn = insn' ∧ after = after' ∧ targets = targets' := by
  obtain rfl := Option.some.inj (h.at_.symm.trans h'.at_)
  obtain ⟨δ, hd, ha⟩ := h.delta
  obtain ⟨δ', hd', ha'⟩ := h'.delta
  obtain rfl := Except.ok.inj (hd.symm.trans hd')
  exact ⟨rfl, by omega, Except.ok.inj (h.goes.symm.trans h'.goes)⟩

theorem Program.Explored.mono (h : program.Explored known top i before insn after targets)
    (hk : ∀ {j height}, known j height → known' j height) (ht : top ≤ top') :
    program.Explored known' top' i before insn after targets where
  steps := h.steps
  le_top := Nat.le_trans h.le_top ht
  next := fun j hj => hk (h.next j hj)
  handler := fun range hc => (h.handler range hc).imp hk fun h => Nat.le_trans h ht

/-- Heights are known, each of them has been followed, and the top is one that the stack gets to. -/
structure Program.Surveyed (program : Program) (known : Nat → Nat → Prop) (top : Nat) : Prop where
  entry : known 0 0
  sound : ∀ {i height}, known i height → program.Height i height
  explored : ∀ {i before}, known i before →
    ∃ insn after targets, program.Explored known top i before insn after targets
  gets : program.Gets top

namespace Program.Surveyed

variable (h : program.Surveyed known top)
include h

/-- As all that is known has been followed, all that can be is known. -/
theorem known_of_height {height : Nat} (hi : program.Height i height) : known i height := by
  induction hi with
  | entry => exact h.entry
  | next _ steps mem ih =>
    obtain ⟨insn, after, targets, he⟩ := h.explored ih
    obtain ⟨rfl, rfl, rfl⟩ := steps.unique he.steps
    exact he.next _ mem
  | handler _ catches ih =>
    obtain ⟨insn, after, targets, he⟩ := h.explored ih
    exact (he.handler _ catches).1

theorem height_iff {height : Nat} : program.Height i height ↔ known i height :=
  ⟨h.known_of_height, h.sound⟩

theorem exists_steps (hi : program.Height i before) :
    ∃ insn after targets, program.Steps i before insn after targets := by
  obtain ⟨insn, after, targets, he⟩ := h.explored (h.known_of_height hi)
  exact ⟨insn, after, targets, he.steps⟩

/-- The stack gets no higher than to the top. -/
theorem le_top {height : Nat} (hg : program.Gets height) : height ≤ top := by
  cases hg with
  | entry => exact Nat.zero_le _
  | after here steps =>
    obtain ⟨insn, after, targets, he⟩ := h.explored (h.known_of_height here)
    obtain ⟨rfl, rfl, rfl⟩ := steps.unique he.steps
    exact he.le_top
  | caught here catches =>
    obtain ⟨insn, after, targets, he⟩ := h.explored (h.known_of_height here)
    exact (he.handler _ catches).2

theorem top_unique (h' : program.Surveyed known' top') : top = top' :=
  Nat.le_antisymm (h'.le_top h.gets) (h.le_top h'.gets)

/-- Control gets to all that it can get to with some height. -/
theorem exists_height (hi : program.Reachable i) : ∃ height, program.Height i height := by
  induction hi with
  | refl => exact ⟨0, .entry⟩
  | tail _ edge ih =>
    obtain ⟨before, here⟩ := ih
    obtain ⟨insn, after, targets, he⟩ := h.explored (h.known_of_height here)
    cases edge with
    | next at_ goes mem =>
      obtain rfl := Option.some.inj (at_.symm.trans he.steps.at_)
      obtain rfl := Except.ok.inj (goes.symm.trans he.steps.goes)
      exact ⟨after, .next here he.steps mem⟩
    | handler at_ real mem covers => exact ⟨1, .handler here ⟨⟨_, at_, real⟩, mem, covers⟩⟩

end Program.Surveyed

end Exploring

def TypeFlow.HeightAt (flow : TypeFlow) (i height : Nat) : Prop :=
  ∃ f, flow.At i f ∧ f.stack.length = height

theorem TypeFlow.HeightAt.unique {flow : TypeFlow} {i height height' : Nat}
    (h : flow.HeightAt i height) (h' : flow.HeightAt i height') : height = height' := by
  obtain ⟨f, hf, rfl⟩ := h
  obtain ⟨f', hf', rfl⟩ := h'
  rw [hf.unique hf']

namespace TypeState

/-- What can come of a state: heights that are known stay so, new ones are those of places that
wait, and the maxima go up no further than they may. -/
structure Rises (program : Program) (most : Nat) (s s' : TypeState) : Prop where
  ready : s.Ready → s'.Ready
  size : s'.flow.frames.size = s.flow.frames.size
  kept : ∀ {i height}, s.flow.HeightAt i height → s'.flow.HeightAt i height
  fresh : ∀ {i height}, s'.flow.HeightAt i height →
    s.flow.HeightAt i height ∨ i ∈ s'.work.pending ∧ program.Height i height
  waiting : ∀ {i}, i ∈ s.work.pending → i ∈ s'.work.pending
  stack : s.flow.maxStack ≤ s'.flow.maxStack
  gets : program.Gets s.flow.maxStack → program.Gets s'.flow.maxStack
  locals : s.flow.maxLocals ≤ s'.flow.maxLocals
  bounded : s.flow.maxLocals ≤ most → s'.flow.maxLocals ≤ most

variable {hierarchy : Hierarchy} {program : Program} {most : Nat} {s s' s'' : TypeState}

theorem Rises.refl : Rises program most s s :=
  ⟨id, rfl, id, .inl, id, Nat.le_refl _, id, Nat.le_refl _, id⟩

theorem Rises.trans (h : Rises program most s s') (h' : Rises program most s' s'') :
    Rises program most s s'' where
  ready := h'.ready ∘ h.ready
  size := h'.size.trans h.size
  kept := h'.kept ∘ h.kept
  fresh := fun hh => by
    rcases h'.fresh hh with hh | hn
    · exact (h.fresh hh).imp_right fun ⟨hw, hh⟩ => ⟨h'.waiting hw, hh⟩
    · exact .inr hn
  waiting := h'.waiting ∘ h.waiting
  stack := Nat.le_trans h.stack h'.stack
  gets := h'.gets ∘ h.gets
  locals := Nat.le_trans h.locals h'.locals
  bounded := h'.bounded ∘ h.bounded

theorem rises_raise {stack locals : Nat} (hs : program.Gets stack) (hl : locals ≤ most) :
    Rises program most s (s.raise stack locals) where
  ready := fun hr => ⟨hr.size, hr.honest⟩
  size := rfl
  kept := id
  fresh := .inl
  waiting := id
  stack := Nat.le_max_left _ _
  gets := fun hg => by
    change program.Gets (max s.flow.maxStack stack)
    rcases Nat.le_total s.flow.maxStack stack with hle | hle
    · rwa [Nat.max_eq_right hle]
    · rwa [Nat.max_eq_left hle]
  locals := Nat.le_max_left _ _
  bounded := fun hb => Nat.max_le.mpr ⟨hb, hl⟩

/-- Replacing a frame by one of the same height, and putting its place on the list. -/
theorem Puts.rises {target : Nat} {new : SlotFrame} (h : Puts target new s s') (hr : s.Ready)
    (hh : program.Height target new.stack.length)
    (ha : ∀ f, s.flow.At target f → f.stack.length = new.stack.length) :
    Rises program most s s' where
  ready := h.ready
  size := h.size_eq
  kept := by
    rintro i _ ⟨f, hf, rfl⟩
    by_cases hi : target = i
    · subst hi
      exact ⟨new, h.at_target, (ha f hf).symm⟩
    · exact ⟨f, h.at_iff.mpr (by rwa [if_neg hi]), rfl⟩
  fresh := by
    rintro i _ ⟨f, hf, rfl⟩
    rw [h.at_iff] at hf
    split at hf
    · rename_i hi
      subst hi hf
      exact .inr ⟨h.mem hr, hh⟩
    · exact .inl ⟨f, hf, rfl⟩
  waiting := h.subset
  stack := by rw [h.flow]
  gets := by rw [h.flow]; exact id
  locals := by rw [h.flow]
  bounded := by rw [h.flow]; exact id

/-- A frame that flows somewhere makes its height known there. -/
theorem flowInto_rises (hr : s.Ready) {target : Nat} {incoming : SlotFrame}
    (hh : program.Height target incoming.stack.length)
    (hf : flowInto hierarchy target incoming s = .ok s') :
    Rises program most s s' ∧ s'.flow.HeightAt target incoming.stack.length := by
  obtain ⟨hn, hp⟩ | ⟨existing, merged, hat, hm, hc⟩ := flowInto_cases hf
  · refine ⟨hp.rises hr hh ?_, incoming, hp.at_target, rfl⟩
    intro f hf
    rw [TypeFlow.At, hn] at hf
    cases hf
  · obtain ⟨hlen, -, he⟩ := mergeFrames_eq_ok.mp hm
    have hmerged : merged.stack.length = existing.stack.length := by
      rw [he, List.length_zipWith, hlen, Nat.min_self]
    have hsame := hmerged.trans hlen
    obtain ⟨-, rfl⟩ | ⟨-, hp⟩ := hc
    · exact ⟨.refl, existing, hat, hlen⟩
    · refine ⟨hp.rises hr (hsame ▸ hh) ?_, merged, hp.at_target, hsame⟩
      intro f hf
      exact TypeFlow.At.unique hf hat ▸ hmerged.symm

/-- What each step of a run makes known, and no later step undoes, is known at its end. -/
theorem foldlM_rises (program : Program) (most : Nat) {α ε : Type}
    {f : TypeState → α → Except ε TypeState} {l : List α} {Q : α → TypeFlow → Prop}
    (step : ∀ x ∈ l, ∀ s s' : TypeState, s.Ready → f s x = .ok s' →
      Rises program most s s' ∧ Q x s'.flow)
    (keep : ∀ x s s', Rises program most s s' → Q x s.flow → Q x s'.flow)
    (hr : s.Ready) (hf : l.foldlM f s = .ok s') :
    Rises program most s s' ∧ ∀ x ∈ l, Q x s'.flow :=
  foldlM_brings (R := Rises program most) (Q := fun x s => Q x s.flow) (fun _ => .refl)
    (fun _ _ _ => Rises.trans) (fun _ _ => Rises.ready) keep step hr hf

variable {types : Std.HashMap Nat String} {i before : Nat}

theorem enterHandler_rises (hr : s.Ready) {range : HandlerRange} {f g : SlotFrame}
    (here : program.Height i before) (hc : program.Catches i range)
    (hf : enterHandler program hierarchy types f g s range = .ok s') :
    Rises program most s s' ∧ s'.flow.HeightAt range.handler 1 ∧ 1 ≤ s'.flow.maxStack := by
  obtain ⟨last, hflow, hlast⟩ := bind_eq_ok.mp hf
  obtain rfl := pure_eq_ok.mp hlast
  have hh : program.Height range.handler 1 := .handler here hc
  obtain ⟨hg, hq⟩ := foldlM_rises program most
    (Q := fun _ flow => flow.HeightAt range.handler 1)
    (fun locals _ s s' hr h => flowInto_rises hr hh (mapError_eq_ok.mp h))
    (fun _ _ _ hg => hg.kept) hr hflow
  have hraise : Rises program most last (last.raise 1 0) :=
    rises_raise (.caught here hc) (Nat.zero_le _)
  exact ⟨hg.trans hraise, hraise.kept (hq f.locals (by simp)), Nat.le_max_right _ _⟩

/-- Visiting an instruction follows it. -/
theorem visit_rises (hr : s.Ready) {f : SlotFrame} (ha : s.flow.At i f)
    (here : program.Height i f.stack.length)
    (hlocals : ∀ insn g, program.code[i]? = some insn →
      (execute program.context program.code i insn).run f = .ok ((), g) →
      Effect insn f g ∧ g.locals.length ≤ most)
    (hv : visit program hierarchy types s i = .ok s') (hc : i < program.code.size) :
    Rises program most s s' ∧ ∃ insn after targets,
      program.Explored s'.flow.HeightAt s'.flow.maxStack i f.stack.length insn after targets ∧
      localsUsed insn ≤ s'.flow.maxLocals := by
  obtain ⟨hnone, -⟩ | ⟨f', insn, g, targets, s₁, hf', hcode, hrun, ht, hh, hv⟩ := visit_cases hv
  · exact absurd (Array.getElem?_eq_none_iff.mp (hnone f ha)) (Nat.not_le_of_lt hc)
  obtain rfl := ha.unique hf'
  obtain ⟨heffect, hmost⟩ := hlocals _ g hcode hrun
  have hsteps : program.Steps i f.stack.length insn g.stack.length targets :=
    ⟨hcode, heffect.noCall, heffect.delta, ht⟩
  have hraise : Rises program most s (s.raise g.stack.length g.locals.length) :=
    rises_raise (.after here hsteps) hmost
  obtain ⟨hg₁, hq₁⟩ := foldlM_rises program most
    (Q := fun (range : HandlerRange) flow => flow.HeightAt range.handler 1 ∧ 1 ≤ flow.maxStack)
    (by
      intro range hm s s' hr h
      obtain ⟨hreal, hm, hcovers⟩ := mem_covering.mp hm
      exact enterHandler_rises hr here ⟨⟨_, hcode, hreal⟩, hm, hcovers⟩ h)
    (fun _ _ _ hg h => ⟨hg.kept h.1, Nat.le_trans h.2 hg.stack⟩) (hraise.ready hr) hh
  have hg := hraise.trans hg₁
  obtain ⟨hg₂, hq₂⟩ := foldlM_rises program most
    (Q := fun j flow => flow.HeightAt j g.stack.length)
    (fun j hm s s' hr h => flowInto_rises hr (.next here hsteps hm) (mapError_eq_ok.mp h))
    (fun _ _ _ hg => hg.kept) (hg.ready hr) hv
  have hall := hg₁.trans hg₂
  refine ⟨hg.trans hg₂, _, _, targets, ⟨hsteps, ?_, hq₂, ?_⟩, ?_⟩
  · exact Nat.le_trans (Nat.le_max_right _ _) hall.stack
  · intro range hcatches
    obtain ⟨insn, hat, hreal⟩ := hcatches.real
    obtain rfl := Option.some.inj (hat.symm.trans hcode)
    obtain ⟨hk, hone⟩ := hq₁ range (mem_covering.mpr ⟨hreal, hcatches.mem, hcatches.covers⟩)
    exact ⟨hg₂.kept hk, Nat.le_trans hone hg₂.stack⟩
  · exact Nat.le_trans heffect.used (Nat.le_trans (Nat.le_max_right _ _) hall.locals)

end TypeState

/-- Number of locals that the instructions of a program and its entry need. -/
def Program.mostLocals (program : Program) : Nat :=
  program.code.toList.foldl (fun most insn => max most (localsUsed insn))
    (SlotFrame.initial program.context).locals.length

theorem foldl_max_le_iff {α : Type} {use : α → Nat} {l : List α} {start bound : Nat} :
    l.foldl (fun most a => max most (use a)) start ≤ bound ↔
      start ≤ bound ∧ ∀ a ∈ l, use a ≤ bound := by
  induction l generalizing start with
  | nil => simp
  | cons a l ih => simp [ih, and_assoc]

variable {hierarchy : Hierarchy} {program : Program}

theorem Program.mostLocals_le_iff {bound : Nat} : program.mostLocals ≤ bound ↔
    (SlotFrame.initial program.context).locals.length ≤ bound ∧
      ∀ insn ∈ program.code, localsUsed insn ≤ bound := by
  rw [mostLocals, foldl_max_le_iff]
  simp

theorem Program.localsUsed_le {i : Nat} {insn : Instruction Label}
    (h : program.code[i]? = some insn) : localsUsed insn ≤ program.mostLocals :=
  (mostLocals_le_iff.mp (Nat.le_refl _)).2 insn (Array.mem_of_getElem? h)

theorem Program.effect {i : Nat} {insn : Instruction Label} {f g : SlotFrame}
    (hat : program.code[i]? = some insn) (hf : WellFormed program.Creates f)
    (hrun : (execute program.context program.code i insn).run f = .ok ((), g)) :
    Effect insn f g := by
  refine effect_execute program.lenient_creates ?_ hf hrun
  rintro name rfl j hj
  cases hj
  exact ⟨name, hat⟩

/-- Frames are well-formed, and have no more locals than the program needs. -/
theorem invariant_mostLocals (hierarchy : Hierarchy) (program : Program) :
    Invariant hierarchy program fun f =>
      WellFormed program.Creates f ∧ f.locals.length ≤ program.mostLocals where
  initial := ⟨wellFormed_initial program, (Program.mostLocals_le_iff.mp (Nat.le_refl _)).1⟩
  execute := by
    intro i insn f g hat hf hrun
    refine ⟨(invariant_wellFormed hierarchy program).execute hat hf.1 hrun, ?_⟩
    have hmost := Nat.max_le.mpr ⟨hf.2, program.localsUsed_le hat⟩
    exact Nat.le_trans (program.effect hat hf.1 hrun).bounded hmost
  enter := fun name hf => ⟨(invariant_wellFormed hierarchy program).enter name hf.1, hf.2⟩
  merge := by
    intro f g merged hf hg hm
    refine ⟨(invariant_wellFormed hierarchy program).merge hf.1 hg.1 hm, ?_⟩
    obtain ⟨-, -, rfl⟩ := mergeFrames_eq_ok.mp hm
    simpa using .inl hf.2

/-- What holds between visits: heights are ones that control can get there with, and each has been
followed or waits to be. -/
structure TypeState.Explores (program : Program) (s : TypeState) : Prop where
  ready : s.Ready
  size : s.flow.frames.size = program.code.size
  everywhere : s.Everywhere fun f =>
    WellFormed program.Creates f ∧ f.locals.length ≤ program.mostLocals
  entry : s.flow.HeightAt 0 0
  sound : ∀ {i height}, s.flow.HeightAt i height → program.Height i height
  explored : ∀ {i before}, s.flow.HeightAt i before → i ∈ s.work.pending ∨
    ∃ insn after targets,
      program.Explored s.flow.HeightAt s.flow.maxStack i before insn after targets ∧
      localsUsed insn ≤ s.flow.maxLocals
  gets : program.Gets s.flow.maxStack
  initial : (SlotFrame.initial program.context).locals.length ≤ s.flow.maxLocals
  bounded : s.flow.maxLocals ≤ program.mostLocals

namespace TypeState

variable {s s' s'' : TypeState}

theorem Explores.visit (he : s.Explores program) {i : Nat} (hpop : s.pop = (some i, s'))
    (hv : TypeState.visit program hierarchy (entryTypes hierarchy program.handlers) s' i
      = .ok s'') : s''.Explores program := by
  rcases s.pop_cases with ⟨-, hn⟩ | ⟨k, work, hk, hc, hq⟩
  · rw [hn] at hpop
    cases hpop
  rw [hk] at hpop
  obtain ⟨rfl, rfl⟩ : k = i ∧ ⟨s.flow, work⟩ = s' := by simpa using hpop
  have hr := he.ready.pop hc hq
  have hwait : ∀ {j}, j ∈ s.work.pending → j ≠ k → j ∈ work.pending := by
    intro j hj hne
    rw [hc] at hj
    exact (List.mem_cons.mp hj).resolve_left hne
  by_cases ha : ∃ f, s.flow.At k f
  · obtain ⟨f, ha⟩ := ha
    have here := he.sound ⟨f, ha, rfl⟩
    have hlt : k < program.code.size := he.size ▸ (Array.getElem?_eq_some_iff.mp ha).1
    have hlocals : ∀ insn g, program.code[k]? = some insn →
        (execute program.context program.code k insn).run f = .ok ((), g) →
        Effect insn f g ∧ g.locals.length ≤ program.mostLocals := by
      intro insn g hat hrun
      exact ⟨program.effect hat (he.everywhere k f ha).1 hrun,
        ((invariant_mostLocals hierarchy program).execute hat (he.everywhere k f ha) hrun).2⟩
    obtain ⟨hg, hexplored⟩ := visit_rises hr ha here hlocals hv hlt
    refine ⟨hg.ready hr, hg.size.trans he.size,
      (invariant_mostLocals hierarchy program).visit (s := ⟨s.flow, work⟩) he.everywhere hv,
      hg.kept he.entry, ?_, ?_, hg.gets he.gets, Nat.le_trans he.initial hg.locals,
      hg.bounded he.bounded⟩
    · intro j height hj
      rcases hg.fresh hj with hold | ⟨-, hh⟩
      · exact he.sound hold
      · exact hh
    · intro j before hj
      rcases hg.fresh hj with hold | ⟨hw, -⟩
      · by_cases hjk : j = k
        · subst hjk
          obtain ⟨f', hf', rfl⟩ := hold
          exact .inr (TypeFlow.At.unique ha hf' ▸ hexplored)
        · rcases he.explored hold with hw | ⟨insn, after, targets, hx, hused⟩
          · exact .inl (hg.waiting (hwait hw hjk))
          · exact .inr ⟨insn, after, targets, hx.mono hg.kept hg.stack,
              Nat.le_trans hused hg.locals⟩
      · exact .inl hw
  · have hsame := visit_of_not_at (s := ⟨s.flow, work⟩) (fun f hf => ha ⟨f, hf⟩) hv
    subst hsame
    refine ⟨hr, he.size, he.everywhere, he.entry, he.sound, ?_, he.gets, he.initial, he.bounded⟩
    intro j before hj
    refine (he.explored hj).imp_left fun hw => hwait hw ?_
    rintro rfl
    obtain ⟨f, hf, -⟩ := hj
    exact ha ⟨f, hf⟩

theorem explores_start (h : program.code.isEmpty = false) : program.start.Explores program := by
  have hpos : 0 < program.code.size := by simpa [Nat.pos_iff_ne_zero] using h
  have hh := Worklist.honest_empty program.code.size
  refine ⟨⟨by simp [Program.start, Worklist.empty], hh.push 0⟩, by simp [Program.start],
    (invariant_mostLocals .library program).start, ⟨_, program.at_start_zero hpos, rfl⟩, ?_, ?_,
    .entry, Nat.le_refl _, (Program.mostLocals_le_iff.mp (Nat.le_refl _)).1⟩
  · rintro i _ ⟨f, hf, rfl⟩
    obtain ⟨rfl, rfl⟩ := Program.at_start hf
    exact .entry
  · rintro i _ ⟨f, hf, rfl⟩
    obtain ⟨rfl, -⟩ := Program.at_start hf
    exact .inl (Worklist.mem_push hh (by simpa [Worklist.empty] using hpos))

theorem Explores.followed {s : TypeState} (h : s.Explores program) (hw : s.work.pending = [])
    {i before : Nat} (hi : s.flow.HeightAt i before) : ∃ insn after targets,
      program.Explored s.flow.HeightAt s.flow.maxStack i before insn after targets ∧
      localsUsed insn ≤ s.flow.maxLocals :=
  (h.explored hi).resolve_left (by simp [hw])

theorem Explores.surveyed {s : TypeState} (h : s.Explores program) (hw : s.work.pending = []) :
    program.Surveyed s.flow.HeightAt s.flow.maxStack where
  entry := h.entry
  sound := h.sound
  explored := by
    intro i before hi
    obtain ⟨insn, after, targets, hx, -⟩ := h.followed hw hi
    exact ⟨insn, after, targets, hx⟩
  gets := h.gets

end TypeState

/-- The types that are computed tell with which height control gets where. -/
theorem explores_of_computeTypes {flow : TypeFlow} (h : computeTypes hierarchy program = .ok flow) :
    ∃ s : TypeState, s.flow = flow ∧ s.Explores program ∧ s.work.pending = [] := by
  obtain ⟨s, hs, hdone, hexplores⟩ := run_of_computeTypes h TypeState.explores_start
    fun s i s' s'' he hpop hv => he.visit hpop hv
  exact ⟨s, hs, hexplores, hdone⟩

end ClassTree.Flow
