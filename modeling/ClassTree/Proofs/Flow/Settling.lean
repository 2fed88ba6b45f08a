import ClassTree.Proofs.Flow.Heights
import ClassTree.Proofs.Flow.Nesting
import ClassTree.Proofs.Hierarchy.Sources

namespace ClassTree.Flow

theorem total_setIfInBounds {α : Type} {weigh : α → Nat} {elements : Array α} {old new : α}
    {i : Nat} (h : elements[i]? = some old) :
    total weigh (elements.setIfInBounds i new).toList + weigh old =
      total weigh elements.toList + weigh new := by
  rw [Array.toList_setIfInBounds]
  exact total_set (by rwa [Array.getElem?_toList])

variable {ancestry : Ancestry} {program : Program} {grading : Grading ancestry}
  {f g incoming : SlotFrame} {s s' s'' : TypeState} {i : Nat}

section Heights

theorem width_le_two (type : FieldType) : type.width ≤ 2 := by
  cases type with
  | base type => cases type <;> decide
  | ref type => exact Nat.le_succ 1

theorem callDelta_le_two (type : MethodType) (receiver : Bool) : callDelta type receiver ≤ 2 := by
  have hwidth : type.resultWidth ≤ 2 := by
    unfold MethodType.resultWidth
    cases type.result with
    | none => exact Nat.zero_le _
    | some result => exact width_le_two result
  unfold callDelta
  omega

theorem le_two_of_ite {condition : Prop} [Decidable condition] {n δ : Int}
    {rest : Except FlowFault Int} (hn : n ≤ 2) (hrest : rest = .ok δ → δ ≤ 2) :
    (if condition then .ok n else rest) = .ok δ → δ ≤ 2 := by
  intro h
  split at h
  · exact Except.ok.inj h ▸ hn
  · exact hrest h

theorem plainDelta_le_two {op : Opcode} {δ : Int} : plainDelta op = .ok δ → δ ≤ 2 := by
  unfold plainDelta
  have hpair : ∀ (condition : Prop) [Decidable condition],
      (if condition then -1 else -2 : Int) ≤ 2 := by
    intro condition _
    split <;> decide
  repeat refine le_two_of_ite (by first | decide | exact hpair _) ?_
  intro h
  cases h

theorem fieldDelta_le_two (op : Opcode) (type : FieldType) : fieldDelta op type.width ≤ 2 := by
  have := width_le_two type
  unfold fieldDelta
  split <;> omega

/-- No instruction adds more than two slots to the stack. -/
theorem stackDelta_le_two {insn : Instruction Label} {δ : Int} (h : stackDelta insn = .ok δ) :
    δ ≤ 2 := by
  cases insn with
  | plain op => exact plainDelta_le_two h
  | field op member =>
    obtain ⟨type, -, hp⟩ := bind_eq_ok.mp h
    exact pure_eq_ok.mp hp ▸ fieldDelta_le_two op type
  | invoke op member onInterface =>
    obtain ⟨type, -, hp⟩ := bind_eq_ok.mp h
    exact pure_eq_ok.mp hp ▸ callDelta_le_two type _
  | invokeDynamic name descriptor handle arguments =>
    obtain ⟨type, -, hp⟩ := bind_eq_ok.mp h
    exact pure_eq_ok.mp hp ▸ callDelta_le_two type _
  | var op slot =>
    cases h
    unfold varDelta
    split <;> decide
  | jump op target =>
    cases h
    unfold jumpDelta
    split
    · decide
    split
    · decide
    split <;> decide
  | int op operand | type op operand | load value =>
    cases h
    split <;> decide
  | multiArray descriptor dimensions =>
    cases h
    omega
  | label _ | line _ _ | frame _ _ | increment _ _ | tableSwitch _ _ _ _ | lookupSwitch _ _ =>
    cases h
    decide

theorem Effect.height_le {insn : Instruction Label} (h : Effect insn f g) :
    g.stack.length ≤ f.stack.length + 2 := by
  obtain ⟨δ, hδ, hlen⟩ := h.delta
  have := stackDelta_le_two hδ
  omega

theorem Program.mostLocals_le (program : Program) : program.mostLocals ≤
    (SlotFrame.initial program.context).locals.length + 0x10001 := by
  refine Program.mostLocals_le_iff.mpr ⟨Nat.le_add_right _ _, fun insn _ => ?_⟩
  refine Nat.le_trans ?_ (Nat.le_add_left _ _)
  cases insn with
  | var op slot =>
    have := slot.toNat_lt
    rw [localsUsed]
    split <;> omega
  | increment slot amount =>
    have := slot.toNat_lt
    rw [localsUsed]
    omega
  | _ => exact Nat.zero_le _

end Heights

def Fitting (program : Program) (grading : Grading ancestry) (f : SlotFrame) : Prop :=
  (WellFormed program.Creates f ∧ f.locals.length ≤ program.mostLocals) ∧
    WellFormed (grading.Within (program.nesting ancestry.hierarchy)) f

theorem invariant_fitting (program : Program) (grading : Grading ancestry) :
    Invariant ancestry.hierarchy program (Fitting program grading) :=
  (invariant_mostLocals ancestry.hierarchy program).and (invariant_within program grading)

theorem Fitting.bounds (h : Fitting program grading f) :
    grading.Bounds (program.nesting ancestry.hierarchy) f :=
  ⟨h.2.localTypes, h.2.stack.allowed (grading.tolerant_within _)⟩

def Program.highest (program : Program) (ancestry : Ancestry) : Nat :=
  program.slots * ((program.nesting ancestry.hierarchy + 1) * (ancestry.parents.length + 4) + 1)

theorem visits_eq (program : Program) (ancestry : Ancestry) : program.visits ancestry.hierarchy =
    program.code.size * (program.highest ancestry + 1) + 1 :=
  rfl

/-- How far the frame at a place can go up. That there is none yet counts for more than any one. -/
def Program.rise (program : Program) (ancestry : Ancestry) : Option SlotFrame → Nat
  | none => program.highest ancestry + 1
  | some f => frameRank ancestry (program.nesting ancestry.hierarchy) f

theorem Fitting.rank_le (h : Fitting program grading f)
    (hlen : f.stack.length ≤ 2 * program.code.size) :
    frameRank ancestry (program.nesting ancestry.hierarchy) f ≤ program.highest ancestry := by
  refine frameRank_le h.bounds ?_
  have := Nat.le_trans h.1.2 program.mostLocals_le
  unfold Program.slots
  omega

namespace TypeState

def seen : Option SlotFrame → Nat
  | none => 0
  | some _ => 1

def reached (s : TypeState) : Nat :=
  total seen s.flow.frames.toList

/-- What is left to do: how far frames can go up, and how many places wait. -/
def remaining (program : Program) (ancestry : Ancestry) (s : TypeState) : Nat :=
  total (program.rise ancestry) s.flow.frames.toList + s.work.pending.length

structure Fits (program : Program) (grading : Grading ancestry) (s : TypeState) : Prop where
  size : s.flow.frames.size = program.code.size
  everywhere : s.Everywhere (Fitting program grading)
  heights : ∀ {i f}, s.flow.At i f → f.stack.length ≤ 2 * s.reached

/-- What can come of a state: no less is known, and no more is left to do. -/
structure Settles (program : Program) (grading : Grading ancestry) (s s' : TypeState) :
    Prop where
  fits : s'.Fits program grading
  reached : s.reached ≤ s'.reached
  remaining : s'.remaining program ancestry ≤ s.remaining program ancestry

theorem Settles.trans (h : Settles program grading s s') (h' : Settles program grading s' s'') :
    Settles program grading s s'' :=
  ⟨h'.fits, Nat.le_trans h.reached h'.reached, Nat.le_trans h'.remaining h.remaining⟩

theorem Fits.settles (h : s.Fits program grading) : Settles program grading s s :=
  ⟨h, Nat.le_refl _, Nat.le_refl _⟩

theorem seen_le_one (f? : Option SlotFrame) : seen f? ≤ 1 := by
  cases f? with
  | none => exact Nat.zero_le 1
  | some _ => exact Nat.le_refl 1

theorem reached_le (s : TypeState) : s.reached ≤ s.flow.frames.size := by
  have hle := @total_le _ seen s.flow.frames.toList 1 fun f? _ => seen_le_one f?
  rwa [Nat.mul_one, Array.length_toList] at hle

theorem reached_put {target : Nat} {old : Option SlotFrame} {new : SlotFrame}
    (hold : s.flow.frames[target]? = some old) (hp : Puts target new s s') :
    s'.reached + seen old = s.reached + 1 := by
  unfold reached
  rw [hp.flow]
  exact total_setIfInBounds hold

theorem length_push_le (work : Worklist) (i : Nat) :
    (work.push i).pending.length ≤ work.pending.length + 1 := by
  by_cases hq : work.queued.getD i true = true
  · rw [Worklist.push_of_queued hq]
    exact Nat.le_succ _
  · rw [Worklist.push_of_not_queued hq]
    exact Nat.le_refl _

/-- A place where a frame is put, or goes up, can be put on the list: no more is left to do. -/
theorem Fits.put (h : s.Fits program grading) {target : Nat} {old : Option SlotFrame}
    {new : SlotFrame} (hold : s.flow.frames[target]? = some old) (hp : Puts target new s s')
    (hall : s'.Everywhere (Fitting program grading)) (hlen : new.stack.length ≤ 2 * s'.reached)
    (hrise : program.rise ancestry (some new) < program.rise ancestry old) :
    Settles program grading s s' := by
  have hreached : s.reached ≤ s'.reached := by
    have := reached_put hold hp
    have := seen_le_one old
    omega
  refine ⟨⟨hp.size_eq.trans h.size, hall, ?_⟩, hreached, ?_⟩
  · intro i f hat
    rw [hp.at_iff] at hat
    split at hat
    · exact hat ▸ hlen
    · exact Nat.le_trans (h.heights hat) (Nat.mul_le_mul_left 2 hreached)
  · have hsum := @total_setIfInBounds _ (program.rise ancestry) _ _ (some new) _ hold
    have hpush := length_push_le s.work target
    simp only [remaining, hp.flow, hp.work]
    omega

/-- A frame that flows into another one leaves no more to do: either nothing changes, or one that is
new, or has gone up, makes up for its place on the list. -/
theorem Fits.flowInto (h : s.Fits program grading) (hq : Fitting program grading incoming)
    (hlen : incoming.stack.length ≤ 2 * s.reached + 2) {target : Nat}
    (hf : flowInto ancestry.hierarchy target incoming s = .ok s') :
    Settles program grading s s' := by
  have hall := (invariant_fitting program grading).flowInto hq h.everywhere hf
  obtain ⟨hn, hp⟩ | ⟨existing, merged, hat, hm, ⟨-, rfl⟩ | ⟨hne, hp⟩⟩ := flowInto_cases hf
  · have hreached := reached_put hn hp
    rw [seen] at hreached
    have hsize := reached_le s'
    rw [hp.size_eq, h.size] at hsize
    exact h.put hn hp hall (by omega) (Nat.lt_succ_of_le (hq.rank_le (by omega)))
  · exact h.settles
  · have hreached := reached_put hat hp
    rw [seen] at hreached
    have hheight : merged.stack.length = existing.stack.length := by
      obtain ⟨hlen, -, rfl⟩ := mergeFrames_eq_ok.mp hm
      simp [hlen]
    have hexisting := h.heights hat
    exact h.put hat hp hall (by omega)
      (frameRank_mergeFrames (h.everywhere target existing hat).bounds hq.bounds hm hne)

theorem Fits.raise (h : s.Fits program grading) (stack locals : Nat) :
    Settles program grading s (s.raise stack locals) := by
  obtain ⟨⟨frames, maxStack, maxLocals⟩, work⟩ := s
  exact ⟨⟨h.size, h.everywhere, h.heights⟩, Nat.le_refl _, Nat.le_refl _⟩

theorem Fits.enterHandler (h : s.Fits program grading) (hf : Fitting program grading f)
    (hg : Fitting program grading g) {range : HandlerRange}
    (he : enterHandler program ancestry.hierarchy
      (entryTypes ancestry.hierarchy program.handlers) f g s range =
      .ok s') : Settles program grading s s' := by
  have hq := invariant_fitting program grading
  obtain ⟨last, hflow, hlast⟩ := bind_eq_ok.mp he
  obtain rfl := pure_eq_ok.mp hlast
  have hsettles : Settles program grading s last := by
    refine foldlM_ok (P := Settles program grading s) ?_ h.settles hflow
    intro locals hm s₁ s₂ h₁ h₂
    rw [mapError_eq_ok] at h₂
    have hin :
        Fitting program grading ⟨locals, program.caught ancestry.hierarchy range.handler⟩ := by
      obtain rfl | rfl : locals = f.locals ∨ locals = g.locals := by simpa using hm
      · exact hq.enter _ hf
      · exact hq.enter _ hg
    exact h₁.trans (h₁.fits.flowInto hin (Nat.le_add_left _ _) h₂)
  exact hsettles.trans (hsettles.fits.raise 1 0)

/-- A visit leaves no more to do than there was, but for the visit itself. -/
theorem Fits.visit (h : s.Fits program grading)
    (hv : TypeState.visit program ancestry.hierarchy
      (entryTypes ancestry.hierarchy program.handlers) s i = .ok s') :
    Settles program grading s s' := by
  have hq := invariant_fitting program grading
  obtain ⟨-, rfl⟩ | ⟨before, insn, after, targets, s₁, hbefore, hat, hrun, -, hh, hv⟩ :=
    visit_cases hv
  · exact h.settles
  have hb : Fitting program grading before := h.everywhere i before hbefore
  have ha := hq.execute hat hb hrun
  have hheight : after.stack.length ≤ 2 * s.reached + 2 :=
    Nat.le_trans (program.effect hat hb.1.1 hrun).height_le
      (Nat.add_le_add_right (h.heights hbefore) 2)
  have h₁ : Settles program grading s s₁ := foldlM_ok (P := Settles program grading s)
    (fun range _ _ _ hs hf => hs.trans (hs.fits.enterHandler hb ha hf)) (h.raise _ _) hh
  refine foldlM_ok (P := Settles program grading s) ?_ h₁ hv
  intro target _ s₂ s₃ h₂ h₃
  refine h₂.trans (h₂.fits.flowInto ha ?_ (mapError_eq_ok.mp h₃))
  have := h₂.reached
  omega

/-- Where computing types starts: control gets to the first instruction. -/
def start (program : Program) : TypeState where
  flow := ⟨(Array.replicate program.code.size none).setIfInBounds 0
    (some (.initial program.context)), 0, (SlotFrame.initial program.context).locals.length⟩
  work := (Worklist.empty program.code.size).push 0

theorem fits_start (program : Program) (grading : Grading ancestry)
    (hcode : 0 < program.code.size) : (start program).Fits program grading ∧
      (start program).remaining program ancestry ≤ program.visits ancestry.hierarchy := by
  let before : TypeState := ⟨⟨Array.replicate program.code.size none, 0,
    (SlotFrame.initial program.context).locals.length⟩, .empty program.code.size⟩
  have hnone : ∀ {i f}, ¬ before.flow.At i f := by
    intro i f hat
    simp [before, TypeFlow.At, Array.getElem?_replicate] at hat
  have hfits : before.Fits program grading :=
    ⟨Array.size_replicate, fun i f hat => (hnone hat).elim, fun hat => (hnone hat).elim⟩
  have hflow : TypeState.flowInto ancestry.hierarchy 0 (.initial program.context) before =
      .ok (start program) := by
    simp only [before, TypeState.flowInto, Array.getElem?_replicate, if_pos hcode]
    rfl
  have hsettles := hfits.flowInto (invariant_fitting program grading).initial
    (Nat.zero_le _) hflow
  refine ⟨hsettles.fits, Nat.le_trans hsettles.remaining ?_⟩
  simp only [before, remaining, Array.toList_replicate, total_replicate, Worklist.empty,
    List.length_nil, Program.rise]
  rw [visits_eq]
  omega

/-- Taking a place from the list leaves less to do. -/
theorem Fits.pop (h : s.Fits program grading) {work : Worklist}
    (hc : s.work.pending = i :: work.pending) :
    (⟨s.flow, work⟩ : TypeState).Fits program grading ∧
      (⟨s.flow, work⟩ : TypeState).remaining program ancestry < s.remaining program ancestry := by
  refine ⟨⟨h.size, h.everywhere, h.heights⟩, ?_⟩
  unfold remaining
  rw [hc]
  exact Nat.lt_succ_self _

/-- Visiting ends, after no more visits than there was to do. -/
theorem Fits.halts (h : s.Fits program grading) : ∃ visits outcome,
    Halts TypeState.pop (TypeState.visit program ancestry.hierarchy
        (entryTypes ancestry.hierarchy program.handlers))
      s visits outcome ∧ visits.length ≤ s.remaining program ancestry := by
  induction hn : s.remaining program ancestry using Nat.strong_induction_on generalizing s with
  | _ n ih =>
    rcases s.pop_cases with ⟨-, hpop⟩ | ⟨i, work, hpop, hc, -⟩
    · exact ⟨[], .ok s, .done hpop, Nat.zero_le n⟩
    obtain ⟨hfits, hless⟩ := h.pop hc
    cases hv : TypeState.visit program ancestry.hierarchy
      (entryTypes ancestry.hierarchy program.handlers) ⟨s.flow, work⟩ i with
    | error fault =>
      exact ⟨[i], .error fault, .failed hpop hv, by rw [List.length_singleton]; omega⟩
    | ok next =>
      have hsettles := hfits.visit hv
      have := hsettles.remaining
      obtain ⟨visits, outcome, hhalts, hle⟩ := ih _ (by omega) hsettles.fits rfl
      exact ⟨i :: visits, outcome, .visit hpop hv hhalts, by rw [List.length_cons]; omega⟩

end TypeState

/-- Computing types comes out as visiting does, if there is anything to visit. -/
theorem computeTypes_of_halts {hierarchy : Hierarchy} {visits : List Nat}
    {outcome : Except Error TypeState} (h : Halts TypeState.pop
      (TypeState.visit program hierarchy (entryTypes hierarchy program.handlers))
      (TypeState.start program) visits outcome)
    (hle : visits.length ≤ program.visits hierarchy) :
    computeTypes hierarchy program = if program.code.isEmpty then
      .error (program.fault 0 .emptyBody) else outcome.map TypeState.flow := by
  unfold computeTypes
  split
  · rfl
  · change (drain _ _ _ _ (TypeState.start program) >>= _) = _
    rw [h.drain_eq hle]
    cases outcome <;> rfl

section Parents

variable {common : String → String → String} {parents : List String} {program : Program}

theorem mergeChars_parents (parents' : List String) (a b : List Char) :
    mergeChars ⟨common, parents⟩ a b = mergeChars ⟨common, parents'⟩ a b := by
  fun_induction mergeChars ⟨common, parents⟩ a b with
  | case1 a => rw [mergeChars, if_pos rfl]
  | case2 a b hab hboth ea eb hea heb _ ih =>
    conv_rhs => rw [mergeChars, if_neg hab, if_pos hboth]
    split
    · rename_i ha hb
      obtain rfl := Option.some.inj (hea.symm.trans ha)
      obtain rfl := Option.some.inj (heb.symm.trans hb)
      rw [ih]
    · rename_i hnone
      exact (hnone _ _ hea heb).elim
  | case3 a b hab hboth hnone =>
    rw [mergeChars, if_neg hab, if_pos hboth]
    split
    · rename_i ha hb
      exact (hnone _ _ ha hb).elim
    · rfl
  | case4 a b hab hboth hone => rw [mergeChars, if_neg hab, if_neg hboth, if_pos hone]
  | case5 a b hab hboth hnone => rw [mergeChars, if_neg hab, if_neg hboth, if_neg hnone]

/-- Only what classes have in common matters to a visit. -/
theorem visit_parents (parents' : List String) (program : Program)
    (types : Std.HashMap Nat String) : TypeState.visit program ⟨common, parents⟩ types =
      TypeState.visit program ⟨common, parents'⟩ types := by
  have hmerge : mergeTypes ⟨common, parents⟩ = mergeTypes ⟨common, parents'⟩ := by
    funext a b
    simp only [mergeTypes, mergeReferences, mergeChars_parents parents']
  have hflow : TypeState.flowInto ⟨common, parents⟩ = TypeState.flowInto ⟨common, parents'⟩ := by
    funext target incoming s
    unfold TypeState.flowInto mergeFrames mergeStacks mergeOnStack
    rw [hmerge]
  have henter : TypeState.enterHandler program ⟨common, parents⟩ types =
      TypeState.enterHandler program ⟨common, parents'⟩ types := by
    funext f g s range
    rw [TypeState.enterHandler, hflow]
    rfl
  funext s i
  rw [TypeState.visit, hflow, henter]
  rfl

theorem le_visits (parents : List String) (hcode : 0 < program.code.size) :
    parents.length ≤ program.visits ⟨common, parents⟩ := by
  set n := program.nesting ⟨common, parents⟩ with hn
  have hslots : 0 < program.slots := by
    unfold Program.slots
    omega
  calc parents.length
      ≤ (n + 1) * (parents.length + 4) + 1 := by
        rw [Nat.succ_mul]
        omega
    _ ≤ program.slots * ((n + 1) * (parents.length + 4) + 1) := Nat.le_mul_of_pos_left _ hslots
    _ ≤ program.slots * ((n + 1) * (parents.length + 4) + 1) + 1 := Nat.le_succ _
    _ ≤ program.code.size * (program.slots * ((n + 1) * (parents.length + 4) + 1) + 1) :=
        Nat.le_mul_of_pos_left _ hcode
    _ ≤ _ := Nat.le_succ _

/-- Wherever visiting ends, that is what computing types comes out as, if it is not given up
before. -/
theorem exists_computeTypes_of_halts {visits : List Nat} {outcome : Except Error TypeState}
    (h : Halts TypeState.pop (TypeState.visit program ⟨common, parents⟩
        (entryTypes ⟨common, parents⟩ program.handlers))
      (TypeState.start program) visits outcome) :
    ∃ enough, computeTypes ⟨common, enough⟩ program = if program.code.isEmpty then
      .error (program.fault 0 .emptyBody) else outcome.map TypeState.flow := by
  by_cases hcode : program.code.isEmpty
  · exact ⟨[], by rw [computeTypes, if_pos hcode, if_pos hcode]; rfl⟩
  have hle : visits.length ≤ program.visits ⟨common, List.replicate visits.length ""⟩ := by
    refine Nat.le_trans (Nat.le_of_eq List.length_replicate.symm) (le_visits _ ?_)
    simpa [Nat.pos_iff_ne_zero] using hcode
  refine ⟨List.replicate visits.length "", computeTypes_of_halts ?_ hle⟩
  rwa [visit_parents parents]

end Parents

/-- Whatever files say of classes, and whatever a method is like, only finitely many places are
visited, until none is waiting or a visit fails; and that is what computing types comes out as. -/
theorem computeTypes_halts :
    (∀ files, ∃ ancestry : Ancestry, ancestry.info? = Source.infoIn files) ∧
    ∀ (ancestry : Ancestry) (program : Program), ∃ visits outcome,
      Halts TypeState.pop
        (TypeState.visit program ancestry.hierarchy
          (entryTypes ancestry.hierarchy program.handlers))
        (TypeState.start program) visits outcome ∧
      visits.length ≤ program.visits ancestry.hierarchy ∧
      computeTypes ancestry.hierarchy program = if program.code.isEmpty then
        .error (program.fault 0 .emptyBody) else outcome.map TypeState.flow := by
  refine ⟨fun files => Ancestry.exists_of_bounded (Source.bounded_infoIn files),
    fun ancestry program => ?_⟩
  suffices hhalts : ∃ visits outcome,
      Halts TypeState.pop
        (TypeState.visit program ancestry.hierarchy
          (entryTypes ancestry.hierarchy program.handlers))
        (TypeState.start program) visits outcome ∧
      visits.length ≤ program.visits ancestry.hierarchy by
    obtain ⟨visits, outcome, hhalts, hle⟩ := hhalts
    exact ⟨visits, outcome, hhalts, hle, computeTypes_of_halts hhalts hle⟩
  obtain hcode | hcode := Nat.eq_zero_or_pos program.code.size
  · -- nothing waits, since there is no place to put on the list
    have hpop : (TypeState.start program).pop = (none, TypeState.start program) := by
      simp [TypeState.start, TypeState.pop, Worklist.empty, Worklist.push, Worklist.pop, hcode]
    exact ⟨[], .ok _, .done hpop, Nat.zero_le _⟩
  · obtain ⟨grading⟩ := exists_grading ancestry
    obtain ⟨hfits, hremaining⟩ := TypeState.fits_start program grading hcode
    obtain ⟨visits, outcome, hhalts, hle⟩ := hfits.halts
    exact ⟨visits, outcome, hhalts, Nat.le_trans hle hremaining⟩

end ClassTree.Flow
