import ClassTree.Proofs.Flow.PostFixpoint
import ClassTree.Proofs.Flow.WellFormed

namespace ClassTree.Flow

open ClassTree.Frame

variable {P : SlotType → Prop} {f : SlotFrame} {type : SlotType} {a b : List SlotType}

section Merging

variable {hierarchy : Hierarchy} {type₁ type₂ : SlotType} {incoming merged : SlotFrame}

def Mixes (hierarchy : Hierarchy) (P : SlotType → Prop) : Prop :=
  ∀ {type₁ type₂ : SlotType}, P type₁ → P type₂ → P (mergeTypes hierarchy type₁ type₂)

theorem Lenient.mixes (hl : Lenient P) : Mixes hierarchy P := by
  intro type₁ type₂ h _
  rcases mergeTypes_cases hierarchy type₁ type₂ with ⟨-, he⟩ | he | ⟨name, he, -⟩
  · rwa [he]
  · exact he ▸ hl _ rfl
  · exact he ▸ hl _ rfl

theorem zipWith_allowed (hmix : Mixes hierarchy P) (ha : ∀ type ∈ a, P type)
    (hb : ∀ type ∈ b, P type) : ∀ type ∈ List.zipWith (mergeTypes hierarchy) a b, P type := by
  intro type hm
  obtain ⟨i, hi⟩ := List.mem_iff_getElem?.mp hm
  rw [List.getElem?_zipWith_eq_some] at hi
  obtain ⟨x, y, hx, hy, rfl⟩ := hi
  exact hmix (ha x (List.mem_of_getElem? hx)) (hb y (List.mem_of_getElem? hy))

/-- Only equal wide types merge to a wide one. -/
theorem eq_of_width_mergeTypes (h : (mergeTypes hierarchy type₁ type₂).width = 2) :
    type₁ = type₂ ∧ type₁.width = 2 := by
  rcases mergeTypes_cases hierarchy type₁ type₂ with ⟨he, hm⟩ | hm | ⟨name, hm, -⟩
  · exact ⟨he, by rwa [hm] at h⟩
  · rw [hm] at h
    cases h
  · rw [hm] at h
    cases h

theorem paired_zipWith (ha : Paired a) (hb : Paired b) :
    Paired (List.zipWith (mergeTypes hierarchy) a b) := by
  rw [paired_iff] at ha hb ⊢
  intro i type hi hw
  rw [List.getElem?_zipWith_eq_some] at hi
  obtain ⟨x, y, hx, hy, rfl⟩ := hi
  obtain ⟨rfl, hwide⟩ := eq_of_width_mergeTypes hw
  rw [List.getElem?_zipWith_eq_some]
  exact ⟨.top, .top, ha i x hx hwide, hb i x hy hwide, mergeTypes_self _⟩

/-- A wide value on the stack merges with nothing but its like. -/
theorem eq_of_wide (hw : type₁.width = 2)
    (hm : mergeTypes hierarchy type₁ type₂ = .top → type₁ = .top) : type₁ = type₂ := by
  have hr : rigid type₁ = true := by cases type₁ <;> first | rfl | cases hw
  rw [mergeTypes_of_rigid hr] at hm
  by_contra hne
  rw [hm (if_neg hne)] at hw
  cases hw

theorem stacked_zipWith (hmix : Mixes hierarchy P) (ha : Stacked P a) (hb : Stacked P b)
    (hlen : a.length = b.length) (hm : Mergeable hierarchy a b) :
    Stacked P (List.zipWith (mergeTypes hierarchy) a b) := by
  induction ha generalizing b with
  | nil => exact .nil
  | @narrow type rest usable width allowed below ih =>
    cases hb with
    | nil => cases hlen
    | @narrow other rest' _ _ allowed' below' =>
      obtain ⟨htop, hm⟩ := mergeable_cons.mp hm
      refine .narrow (fun he => usable (htop he)) (fun hw => width ?_) (hmix allowed allowed')
        (ih below' (by simpa using hlen) hm)
      exact (eq_of_width_mergeTypes hw).2
    | wide => exact absurd ((mergeable_cons.mp hm).1 (mergeTypes_top _)) usable
  | @wide type rest width below ih =>
    cases hb with
    | nil => cases hlen
    | @narrow other rest' _ _ _ below' =>
      -- below the other narrow value there is none of the same width
      cases below' with
      | nil => cases hlen
      | narrow _ width' =>
        obtain rfl := eq_of_wide width (mergeable_cons.mp (mergeable_cons.mp hm).2).1
        exact absurd width width'
      | wide =>
        obtain rfl := eq_of_wide width (mergeable_cons.mp (mergeable_cons.mp hm).2).1
        cases width
    | @wide other rest' _ below' =>
      obtain ⟨htop, hrest⟩ := mergeable_cons.mp (mergeable_cons.mp hm).2
      obtain rfl := eq_of_wide width htop
      rw [List.zipWith_cons_cons, List.zipWith_cons_cons, mergeTypes_self, mergeTypes_self]
      exact .wide width (ih below' (by simpa using hlen) hrest)

theorem WellFormed.merge (hmix : Mixes hierarchy P) (hf : WellFormed P f)
    (hi : WellFormed P incoming) (hm : mergeFrames hierarchy f incoming = .ok merged) :
    WellFormed P merged := by
  obtain ⟨hlen, hok, rfl⟩ := mergeFrames_eq_ok.mp hm
  exact ⟨paired_zipWith hf.locals hi.locals, zipWith_allowed hmix hf.localTypes hi.localTypes,
    stacked_zipWith hmix hf.stack hi.stack hlen hok⟩

end Merging

section Runs

variable {hierarchy : Hierarchy} {program : Program} {Q : SlotFrame → Prop} {s s' : TypeState}

structure Invariant (hierarchy : Hierarchy) (program : Program) (Q : SlotFrame → Prop) : Prop where
  initial : Q (.initial program.context)
  execute : ∀ {i insn f g}, program.code[i]? = some insn → Q f →
    (execute program.context program.code i insn).run f = .ok ((), g) → Q g
  enter : ∀ {f} (handler : Nat), Q f → Q ⟨f.locals, program.caught hierarchy handler⟩
  merge : ∀ {f g merged}, Q f → Q g → mergeFrames hierarchy f g = .ok merged → Q merged

def TypeState.Everywhere (Q : SlotFrame → Prop) (s : TypeState) : Prop :=
  ∀ i f, s.flow.At i f → Q f

namespace Invariant

theorem and {R : SlotFrame → Prop} (hq : Invariant hierarchy program Q)
    (hr : Invariant hierarchy program R) : Invariant hierarchy program fun f => Q f ∧ R f where
  initial := ⟨hq.initial, hr.initial⟩
  execute := fun hat hf hrun => ⟨hq.execute hat hf.1 hrun, hr.execute hat hf.2 hrun⟩
  enter := fun handler hf => ⟨hq.enter handler hf.1, hr.enter handler hf.2⟩
  merge := fun hf hg hm => ⟨hq.merge hf.1 hg.1 hm, hr.merge hf.2 hg.2 hm⟩

variable (hq : Invariant hierarchy program Q)
include hq

theorem flowInto {target : Nat} {incoming : SlotFrame} (hi : Q incoming) (hs : s.Everywhere Q)
    (hf : TypeState.flowInto hierarchy target incoming s = .ok s') : s'.Everywhere Q := by
  have hput : ∀ {new}, Q new → TypeState.Puts target new s s' → s'.Everywhere Q := by
    intro new hnew hp i f hat
    rw [hp.at_iff] at hat
    split at hat
    · exact hat ▸ hnew
    · exact hs i f hat
  obtain ⟨-, hp⟩ | ⟨existing, merged, hat, hm, ⟨-, rfl⟩ | ⟨-, hp⟩⟩ := TypeState.flowInto_cases hf
  · exact hput hi hp
  · exact hs
  · exact hput (hq.merge (hs target existing hat) hi hm) hp

theorem enterHandler {before after : SlotFrame} {range : HandlerRange} (hb : Q before)
    (ha : Q after) (hs : s.Everywhere Q)
    (hf : TypeState.enterHandler program hierarchy (entryTypes hierarchy program.handlers) before
      after s range = .ok s') : s'.Everywhere Q := by
  obtain ⟨last, hflow, hlast⟩ := bind_eq_ok.mp hf
  obtain rfl := pure_eq_ok.mp hlast
  have hlast : last.Everywhere Q := by
    refine foldlM_ok (P := TypeState.Everywhere Q) ?_ hs hflow
    intro locals hm s s' hs hf
    rw [mapError_eq_ok] at hf
    obtain rfl | rfl : locals = before.locals ∨ locals = after.locals := by simpa using hm
    · exact hq.flowInto (hq.enter _ hb) hs hf
    · exact hq.flowInto (hq.enter _ ha) hs hf
  exact hlast

theorem visit {i : Nat} (hs : s.Everywhere Q)
    (hv : TypeState.visit program hierarchy (entryTypes hierarchy program.handlers) s i = .ok s') :
    s'.Everywhere Q := by
  obtain ⟨-, rfl⟩ | ⟨before, insn, after, targets, s₁, hbefore, hat, hrun, -, hh, hv⟩ :=
    TypeState.visit_cases hv
  · exact hs
  have hb : Q before := hs i before hbefore
  have ha := hq.execute hat hb hrun
  have h₁ : s₁.Everywhere Q := foldlM_ok (P := TypeState.Everywhere Q)
    (s := s.raise after.stack.length after.locals.length)
    (fun range _ _ _ hs hf => hq.enterHandler hb ha hs hf) hs hh
  exact foldlM_ok (P := TypeState.Everywhere Q)
    (fun target _ _ _ hs hf => hq.flowInto ha hs (mapError_eq_ok.mp hf)) h₁ hv

theorem start : program.start.Everywhere Q := by
  intro i f hat
  obtain ⟨-, rfl⟩ := Program.at_start hat
  exact hq.initial

/-- All frames that are computed are as stated. -/
theorem computeTypes {flow : TypeFlow} (h : computeTypes hierarchy program = .ok flow) {i : Nat}
    {f : SlotFrame} (hf : flow.At i f) : Q f := by
  obtain ⟨s, rfl, -, hs⟩ :=
    run_of_computeTypes h (fun _ => hq.start) fun s i s' s'' hs hpop hv => by
    have hsame : s'.flow = s.flow := congrArg (fun p => p.2.flow) hpop.symm
    exact hq.visit (fun i f hat => hs i f (hsame ▸ hat)) hv
  exact hs i f hf

end Invariant

def Program.Creates (program : Program) (type : SlotType) : Prop :=
  ∀ i, type.creation? = some i → ∃ name, program.code[i]? = some (.type .new name)

theorem Program.lenient_creates (program : Program) : Lenient program.Creates := by
  intro type h i hi
  rw [h] at hi
  cases hi

theorem creation?_entryLocals {context : Context} (h : type ∈ context.entryLocals) :
    type.creation? = none := by
  rcases List.mem_append.mp h with h | h
  · split at h
    · cases h
    · rw [List.mem_singleton.mp h]
      unfold Context.receiver
      split <;> rfl
  · obtain ⟨parameter, -, rfl⟩ := List.mem_map.mp h
    exact (ordinary_ofFieldType parameter).2

theorem wellFormed_of_entryLocals {context : Context} (ht : Tolerant P)
    (h : ∀ type ∈ context.entryLocals, P type) : WellFormed P (.initial context) := by
  refine ⟨paired_expand _, ?_, .nil⟩
  intro type hm
  obtain ⟨entry, he, hm⟩ := List.mem_flatMap.mp hm
  split at hm
  · rcases List.mem_pair.mp hm with rfl | rfl
    · exact h type he
    · exact ht.top
  · rw [List.mem_singleton.mp hm]
    exact h entry he

theorem wellFormed_initial (program : Program) :
    WellFormed program.Creates (.initial program.context) :=
  wellFormed_of_entryLocals program.lenient_creates.tolerant fun type hm =>
    program.lenient_creates type (creation?_entryLocals hm)

theorem invariant_wellFormed (hierarchy : Hierarchy) (program : Program) :
    Invariant hierarchy program (WellFormed program.Creates) where
  initial := wellFormed_initial program
  execute := by
    intro i insn f g hat hf hrun
    refine (keeps_execute program.lenient_creates.tolerant (fun hb => ?_) f () g hf hrun).1
    rcases hb.creation with hc | ⟨rfl, name, rfl⟩
    · exact program.lenient_creates _ hc
    · intro j hj
      cases hj
      exact ⟨name, hat⟩
  enter := fun handler hf => ⟨hf.locals, hf.localTypes,
    .narrow nofun nofun (program.lenient_creates _ rfl) .nil⟩
  merge := fun hf hg hm => hf.merge program.lenient_creates.mixes hg hm

end Runs

end ClassTree.Flow
