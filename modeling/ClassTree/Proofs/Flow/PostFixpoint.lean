import Mathlib.Logic.Relation
import ClassTree.Proofs.Flow.Absorption
import ClassTree.Proofs.Flow.Draining

namespace ClassTree.Flow

/-- Control can get from one index to another one, in one step or by an exception. -/
inductive Program.Edge (program : Program) (i : Nat) : Nat → Prop
  | next {insn : Instruction Label} {targets : List Nat} {j : Nat}
      (at_ : program.code[i]? = some insn)
      (goes : successors program.code program.positions i insn = .ok targets)
      (mem : j ∈ targets) : Program.Edge program i j
  | handler {insn : Instruction Label} {range : HandlerRange}
      (at_ : program.code[i]? = some insn) (real : insn.isMarker = false)
      (mem : range ∈ program.handlers) (covers : range.covers i = true) :
      Program.Edge program i range.handler

/-- Control can get to an index from the start of the code. -/
def Program.Reachable (program : Program) (i : Nat) : Prop :=
  Relation.ReflTransGen program.Edge 0 i

def Program.caught (hierarchy : Hierarchy) (program : Program) (handler : Nat) : List SlotType :=
  [.object ((entryTypes hierarchy program.handlers).getD handler Name.throwable)]

namespace TypeFlow

/-- The frame before the instruction at an index. -/
def At (flow : TypeFlow) (i : Nat) (f : SlotFrame) : Prop :=
  flow.frames[i]? = some (some f)

/-- The frame before the instruction at an index allows for another one. -/
def Allows (hierarchy : Hierarchy) (flow : TypeFlow) (i : Nat) (g : SlotFrame) : Prop :=
  ∃ f, flow.At i f ∧ Absorbs hierarchy f g

theorem At.unique {flow : TypeFlow} {i : Nat} {f f' : SlotFrame} (h : flow.At i f)
    (h' : flow.At i f') : f = f' := by
  unfold At at h h'
  rw [h] at h'
  exact Option.some.inj (Option.some.inj h')

/-- The instruction at an index can be executed on the frame before it, and what comes out is
allowed for wherever control goes from there. -/
structure Settled (hierarchy : Hierarchy) (program : Program) (flow : TypeFlow) (i : Nat)
    (f : SlotFrame) (insn : Instruction Label) (g : SlotFrame) (targets : List Nat) : Prop where
  at_ : program.code[i]? = some insn
  runs : (execute program.context program.code i insn).run f = .ok ((), g)
  goes : successors program.code program.positions i insn = .ok targets
  next : ∀ j ∈ targets, flow.Allows hierarchy j g
  handler : insn.isMarker = false → ∀ range ∈ program.handlers, range.covers i = true →
    flow.Allows hierarchy range.handler ⟨f.locals, program.caught hierarchy range.handler⟩ ∧
    flow.Allows hierarchy range.handler ⟨g.locals, program.caught hierarchy range.handler⟩

/-- The frames allow for every way that control can take from the start of the code, and are
exactly where it can get. -/
structure PostFixpoint (hierarchy : Hierarchy) (program : Program) (flow : TypeFlow) : Prop where
  size : flow.frames.size = program.code.size
  entry : flow.Allows hierarchy 0 (.initial program.context)
  settled : ∀ {i f}, flow.At i f → ∃ insn g targets,
    flow.Settled hierarchy program i f insn g targets
  reached : ∀ {i}, (∃ f, flow.At i f) ↔ program.Reachable i

end TypeFlow

theorem getD_eq_some_iff_at {flow : TypeFlow} {i : Nat} {f : SlotFrame} :
    flow.frames.getD i none = some f ↔ flow.At i f := by
  rw [Array.getD_eq_getD_getElem?, TypeFlow.At]
  cases flow.frames[i]? with
  | none => simp
  | some f? => simp

/-- Handlers are entered from the instructions they cover, unless those only mark a place. -/
theorem mem_covering {program : Program} {insn : Instruction Label} {i : Nat}
    {range : HandlerRange} :
    range ∈ (if insn.isMarker then [] else program.handlers.filter (·.covers i)) ↔
      insn.isMarker = false ∧ range ∈ program.handlers ∧ range.covers i = true := by
  cases insn.isMarker with
  | true => simp
  | false => simp

namespace TypeState

structure Ready (s : TypeState) : Prop where
  size : s.work.queued.size = s.flow.frames.size
  honest : s.work.Honest

/-- What can come of a state: frames allow for what they did before, and where one is new, or not
what it was, its place is one of the given ones and waits. -/
structure Grows (hierarchy : Hierarchy) (T : Nat → Prop) (s s' : TypeState) : Prop where
  ready : s.Ready → s'.Ready
  size : s'.flow.frames.size = s.flow.frames.size
  kept : ∀ {i f}, s.flow.At i f → s'.flow.Allows hierarchy i f
  fresh : ∀ {i f}, s'.flow.At i f → s.flow.At i f ∨ i ∈ s'.work.pending ∧ T i
  waiting : ∀ {i}, i ∈ s.work.pending → i ∈ s'.work.pending

variable {hierarchy : Hierarchy} {program : Program} {T U : Nat → Prop} {s s' s'' : TypeState}

theorem Grows.refl : Grows hierarchy T s s :=
  ⟨id, rfl, fun h => ⟨_, h, .refl _⟩, .inl, id⟩

theorem Grows.allows (hj : hierarchy.JoinsClasses) (h : Grows hierarchy T s s') {i : Nat}
    {g : SlotFrame} (ha : s.flow.Allows hierarchy i g) : s'.flow.Allows hierarchy i g := by
  obtain ⟨f, hf, hg⟩ := ha
  obtain ⟨f', hf', hff⟩ := h.kept hf
  exact ⟨f', hf', hff.trans hj hg⟩

theorem Grows.trans (hj : hierarchy.JoinsClasses) (h : Grows hierarchy T s s')
    (h' : Grows hierarchy T s' s'') : Grows hierarchy T s s'' where
  ready := h'.ready ∘ h.ready
  size := h'.size.trans h.size
  kept := fun hf => h'.allows hj (h.kept hf)
  fresh := by
    intro i f hf
    rcases h'.fresh hf with hf | hn
    · rcases h.fresh hf with hf | ⟨hp, ht⟩
      · exact .inl hf
      · exact .inr ⟨h'.waiting hp, ht⟩
    · exact .inr hn
  waiting := fun hi => h'.waiting (h.waiting hi)

theorem Grows.mono (h : Grows hierarchy T s s') (hT : ∀ i, T i → U i) : Grows hierarchy U s s' where
  ready := h.ready
  size := h.size
  kept := h.kept
  fresh := fun hf => (h.fresh hf).imp_right fun ⟨hp, ht⟩ => ⟨hp, hT _ ht⟩
  waiting := h.waiting

theorem grows_raise (stack locals : Nat) : Grows hierarchy T s (s.raise stack locals) := by
  obtain ⟨⟨frames, maxStack, maxLocals⟩, work⟩ := s
  exact ⟨fun hr => ⟨hr.size, hr.honest⟩, rfl, fun h => ⟨_, h, .refl _⟩, .inl, id⟩

theorem at_set {flow : TypeFlow} {frames : Array (Option SlotFrame)} {new : SlotFrame}
    {target : Nat} (hs : flow.frames = frames.setIfInBounds target (some new))
    (ht : target < frames.size) {i : Nat} {f : SlotFrame} :
    flow.At i f ↔ if target = i then new = f else frames[i]? = some (some f) := by
  unfold TypeFlow.At
  rw [hs, Array.getElem?_setIfInBounds]
  split
  · rename_i hi
    simp
  · rfl

structure Puts (target : Nat) (new : SlotFrame) (s s' : TypeState) : Prop where
  inside : target < s.flow.frames.size
  flow : s'.flow = { s.flow with frames := s.flow.frames.setIfInBounds target (some new) }
  work : s'.work = s.work.push target

theorem Puts.at_iff {target : Nat} {new f : SlotFrame} (h : Puts target new s s') {i : Nat} :
    s'.flow.At i f ↔ if target = i then new = f else s.flow.At i f :=
  at_set (by rw [h.flow]) h.inside

theorem Puts.at_target {target : Nat} {new : SlotFrame} (h : Puts target new s s') :
    s'.flow.At target new :=
  h.at_iff.mpr (by rw [if_pos rfl])

theorem Puts.size_eq {target : Nat} {new : SlotFrame} (h : Puts target new s s') :
    s'.flow.frames.size = s.flow.frames.size := by
  rw [h.flow, Array.size_setIfInBounds]

theorem Puts.ready {target : Nat} {new : SlotFrame} (h : Puts target new s s') (hr : s.Ready) :
    s'.Ready where
  size := by
    rw [h.work, h.size_eq]
    simpa using hr.size
  honest := h.work ▸ hr.honest.push target

theorem Puts.subset {target : Nat} {new : SlotFrame} (h : Puts target new s s') {i : Nat}
    (hi : i ∈ s.work.pending) : i ∈ s'.work.pending := by
  rw [h.work]
  exact Worklist.subset_push target i hi

theorem Puts.mem {target : Nat} {new : SlotFrame} (h : Puts target new s s') (hr : s.Ready) :
    target ∈ s'.work.pending := by
  rw [h.work]
  exact Worklist.mem_push hr.honest (hr.size ▸ h.inside)

/-- A frame that flows somewhere is the first one there, or is merged with the one there, and the
outcome is put in its place when it is another one. -/
theorem flowInto_cases {target : Nat} {incoming : SlotFrame}
    (hf : flowInto hierarchy target incoming s = .ok s') :
    (s.flow.frames[target]? = some none ∧ Puts target incoming s s') ∨
    ∃ existing merged, s.flow.At target existing ∧
      mergeFrames hierarchy existing incoming = .ok merged ∧
      (merged = existing ∧ s' = s ∨ merged ≠ existing ∧ Puts target merged s s') := by
  obtain ⟨⟨frames, maxStack, maxLocals⟩, work⟩ := s
  simp only [flowInto] at hf
  split at hf
  · cases hf
  · rename_i hn
    obtain rfl := Except.ok.inj hf
    exact .inl ⟨hn, (Array.getElem?_eq_some_iff.mp hn).1, rfl, rfl⟩
  · rename_i existing hn
    obtain ⟨merged, hm, hf⟩ := bind_eq_ok.mp hf
    refine .inr ⟨existing, merged, hn, hm, ?_⟩
    split at hf
    · rename_i he
      exact .inl ⟨he, (pure_eq_ok.mp hf).symm⟩
    · rename_i hne
      obtain rfl := pure_eq_ok.mp hf
      exact .inr ⟨hne, (Array.getElem?_eq_some_iff.mp hn).1, rfl, rfl⟩

/-- Replacing a frame by one that allows for it, and putting its place on the list. -/
theorem Puts.grows {target : Nat} {new : SlotFrame} (h : Puts target new s s') (hr : s.Ready)
    (ha : ∀ f, s.flow.At target f → Absorbs hierarchy new f) :
    Grows hierarchy (· = target) s s' where
  ready := h.ready
  size := h.size_eq
  kept := by
    intro i f hf
    by_cases hi : target = i
    · subst hi
      exact ⟨new, h.at_target, ha f hf⟩
    · exact ⟨f, h.at_iff.mpr (by rwa [if_neg hi]), .refl _⟩
  fresh := by
    intro i f hf
    rw [h.at_iff] at hf
    split at hf
    · rename_i hi
      exact .inr ⟨hi ▸ h.mem hr, hi.symm⟩
    · exact .inl hf
  waiting := h.subset

/-- A frame that flows into another one is allowed for from then on. -/
theorem flowInto_ok (hj : hierarchy.JoinsClasses) (hr : s.Ready) {target : Nat}
    {incoming : SlotFrame} (hf : flowInto hierarchy target incoming s = .ok s') :
    Grows hierarchy (· = target) s s' ∧ s'.flow.Allows hierarchy target incoming := by
  obtain ⟨hn, hp⟩ | ⟨existing, merged, hat, hm, ⟨rfl, rfl⟩ | ⟨-, hp⟩⟩ := flowInto_cases hf
  · refine ⟨hp.grows hr ?_, incoming, hp.at_target, .refl _⟩
    intro f hf
    rw [TypeFlow.At, hn] at hf
    cases hf
  · exact ⟨.refl, merged, hat, (absorbs_of_mergeFrames hj hm).2⟩
  · obtain ⟨he, hi⟩ := absorbs_of_mergeFrames hj hm
    refine ⟨hp.grows hr ?_, merged, hp.at_target, hi⟩
    intro f hf
    exact TypeFlow.At.unique hf hat ▸ he

/-- What each step of a run brings about, and no later step undoes, holds at its end. -/
theorem foldlM_grows {α ε : Type} (hj : hierarchy.JoinsClasses)
    {f : TypeState → α → Except ε TypeState} {l : List α} {Q : α → TypeFlow → Prop}
    (step : ∀ x ∈ l, ∀ s s' : TypeState, s.Ready → f s x = .ok s' →
      Grows hierarchy T s s' ∧ Q x s'.flow)
    (keep : ∀ x s s', Grows hierarchy T s s' → Q x s.flow → Q x s'.flow)
    (hr : s.Ready) (hf : l.foldlM f s = .ok s') :
    Grows hierarchy T s s' ∧ ∀ x ∈ l, Q x s'.flow :=
  foldlM_brings (R := Grows hierarchy T) (Q := fun x s => Q x s.flow) (fun _ => .refl)
    (fun _ _ _ => Grows.trans hj) (fun _ _ => Grows.ready) keep step hr hf

theorem enterHandler_ok (hj : hierarchy.JoinsClasses) (hr : s.Ready) {range : HandlerRange}
    {before after : SlotFrame}
    (hf : enterHandler program hierarchy (entryTypes hierarchy program.handlers) before after s
      range = .ok s') :
    Grows hierarchy (· = range.handler) s s' ∧
      s'.flow.Allows hierarchy range.handler
        ⟨before.locals, program.caught hierarchy range.handler⟩ ∧
      s'.flow.Allows hierarchy range.handler
        ⟨after.locals, program.caught hierarchy range.handler⟩ := by
  obtain ⟨last, hflow, hlast⟩ := bind_eq_ok.mp hf
  obtain rfl := pure_eq_ok.mp hlast
  obtain ⟨hg, hq⟩ := foldlM_grows (T := (· = range.handler))
    (Q := fun locals flow => flow.Allows hierarchy range.handler
      ⟨locals, program.caught hierarchy range.handler⟩) hj
    (fun locals _ s s' hr h => flowInto_ok hj hr (mapError_eq_ok.mp h))
    (fun _ _ _ hg => hg.allows hj) hr hflow
  have hraise := @grows_raise hierarchy (· = range.handler) last 1 0
  exact ⟨hg.trans hj hraise, hraise.allows hj (hq _ (by simp)), hraise.allows hj (hq _ (by simp))⟩

/-- A visit executes the instruction on the frame before it, lets what comes out flow into the
handlers that cover it, and then wherever control goes. Without such a frame it does nothing. -/
theorem visit_cases {types : Std.HashMap Nat String} {i : Nat}
    (hv : visit program hierarchy types s i = .ok s') :
    ((∀ f, s.flow.At i f → program.code[i]? = none) ∧ s' = s) ∨
    ∃ f insn g targets s₁, s.flow.At i f ∧ program.code[i]? = some insn ∧
      (execute program.context program.code i insn).run f = .ok ((), g) ∧
      successors program.code program.positions i insn = .ok targets ∧
      (if insn.isMarker then [] else program.handlers.filter (·.covers i)).foldlM
        (enterHandler program hierarchy types f g)
        (s.raise g.stack.length g.locals.length) = .ok s₁ ∧
      targets.foldlM (fun state target =>
        (flowInto hierarchy target g state).mapError (program.fault target)) s₁ = .ok s' := by
  unfold visit at hv
  split at hv
  · rename_i f insn hf hat
    obtain ⟨⟨_, g⟩, hrun, hv⟩ := bind_eq_ok.mp hv
    obtain ⟨s₁, hh, hv⟩ := bind_eq_ok.mp hv
    obtain ⟨targets, ht, hv⟩ := bind_eq_ok.mp hv
    exact .inr ⟨f, insn, g, targets, s₁, getD_eq_some_iff_at.mp hf, hat, mapError_eq_ok.mp hrun,
      mapError_eq_ok.mp ht, hh, hv⟩
  · rename_i hnone
    refine .inl ⟨fun f hf => ?_, (pure_eq_ok.mp hv).symm⟩
    cases hat : program.code[i]? with
    | none => rfl
    | some insn => exact (hnone f insn (getD_eq_some_iff_at.mpr hf) hat).elim

theorem visit_of_not_at {types : Std.HashMap Nat String} {i : Nat} (ha : ∀ f, ¬ s.flow.At i f)
    (hv : visit program hierarchy types s i = .ok s') : s' = s := by
  obtain ⟨-, hs⟩ | ⟨f, -, -, -, -, hf, -⟩ := visit_cases hv
  · exact hs
  · exact absurd hf (ha f)

/-- Visiting an instruction leaves it settled, unless its own frame changed by that. -/
theorem visit_ok (hj : hierarchy.JoinsClasses) (hr : s.Ready) {i : Nat} {f : SlotFrame}
    (hc : s.flow.frames.size = program.code.size) (ha : s.flow.At i f)
    (hv : visit program hierarchy (entryTypes hierarchy program.handlers) s i = .ok s') :
    Grows hierarchy (program.Edge i) s s' ∧
      ∃ insn g targets, s'.flow.Settled hierarchy program i f insn g targets := by
  obtain ⟨hnone, -⟩ | ⟨f', insn, g, targets, s₁, hf', hcode, hrun, ht, hh, hv⟩ := visit_cases hv
  · have hsize := Array.getElem?_eq_none_iff.mp (hnone f ha)
    have hi := (Array.getElem?_eq_some_iff.mp ha).1
    omega
  obtain rfl := ha.unique hf'
  have hraise := @grows_raise hierarchy (program.Edge i) s g.stack.length g.locals.length
  obtain ⟨hg₁, hq₁⟩ := foldlM_grows (T := program.Edge i)
    (Q := fun (range : HandlerRange) flow =>
      flow.Allows hierarchy range.handler ⟨f.locals, program.caught hierarchy range.handler⟩ ∧
      flow.Allows hierarchy range.handler ⟨g.locals, program.caught hierarchy range.handler⟩) hj
    (by
      intro range hm s s' hr h
      obtain ⟨hreal, hm, hc⟩ := mem_covering.mp hm
      obtain ⟨hg, ha⟩ := enterHandler_ok hj hr h
      refine ⟨hg.mono ?_, ha⟩
      rintro j rfl
      exact .handler hcode hreal hm hc)
    (fun _ _ _ hg h => ⟨hg.allows hj h.1, hg.allows hj h.2⟩) (hraise.ready hr) hh
  have hg := hraise.trans hj hg₁
  obtain ⟨hg₂, hq₂⟩ := foldlM_grows (T := program.Edge i)
    (Q := fun j flow => flow.Allows hierarchy j g) hj
    (by
      intro j hm s s' hr h
      obtain ⟨hg, ha⟩ := flowInto_ok hj hr (mapError_eq_ok.mp h)
      refine ⟨hg.mono ?_, ha⟩
      rintro j rfl
      exact .next hcode ht hm)
    (fun _ _ _ hg => hg.allows hj) (hg.ready hr) hv
  refine ⟨hg.trans hj hg₂, _, g, targets, hcode, hrun, ht, hq₂, ?_⟩
  intro hreal range hm hc
  obtain ⟨hbefore, hafter⟩ := hq₁ range (mem_covering.mpr ⟨hreal, hm, hc⟩)
  exact ⟨hg₂.allows hj hbefore, hg₂.allows hj hafter⟩

/-- What holds between visits: a frame is settled or its instruction waits to be visited. -/
structure Progress (hierarchy : Hierarchy) (program : Program) (s : TypeState) : Prop where
  ready : s.Ready
  size : s.flow.frames.size = program.code.size
  entry : s.flow.Allows hierarchy 0 (.initial program.context)
  settled : ∀ {i f}, s.flow.At i f → i ∈ s.work.pending ∨
    ∃ insn g targets, s.flow.Settled hierarchy program i f insn g targets
  reached : ∀ {i f}, s.flow.At i f → program.Reachable i

theorem Grows.settled (hj : hierarchy.JoinsClasses) (h : Grows hierarchy T s s') {i : Nat}
    {f g : SlotFrame} {insn : Instruction Label} {targets : List Nat}
    (hs : s.flow.Settled hierarchy program i f insn g targets) :
    s'.flow.Settled hierarchy program i f insn g targets where
  at_ := hs.at_
  runs := hs.runs
  goes := hs.goes
  next := fun j hm => h.allows hj (hs.next j hm)
  handler := by
    intro hreal range hm hc
    obtain ⟨hb, ha⟩ := hs.handler hreal range hm hc
    exact ⟨h.allows hj hb, h.allows hj ha⟩

/-- Taking a place leaves the frames alone. -/
theorem pop_cases (s : TypeState) :
    (s.work.pending = [] ∧ s.pop = (none, s)) ∨
      ∃ i work, s.pop = (some i, ⟨s.flow, work⟩) ∧ s.work.pending = i :: work.pending ∧
        work.queued = s.work.queued.setIfInBounds i false := by
  have hpop : s.pop = (s.work.pop.1, ⟨s.flow, s.work.pop.2⟩) := rfl
  rcases s.work.pop_cases with ⟨he, hp⟩ | ⟨i, work, hp, hc, hq⟩
  · exact .inl ⟨he, by rw [hpop, hp]⟩
  · exact .inr ⟨i, work, by rw [hpop, hp], hc, hq⟩

theorem Ready.pop {i : Nat} {work : Worklist} (hr : s.Ready)
    (hc : s.work.pending = i :: work.pending)
    (hq : work.queued = s.work.queued.setIfInBounds i false) : Ready ⟨s.flow, work⟩ :=
  ⟨by simpa [hq] using hr.size, hr.honest.pop hc hq⟩

/-- A visit to the instruction that was taken from the list keeps all this. -/
theorem Progress.visit (hj : hierarchy.JoinsClasses) (hp : Progress hierarchy program s) {i : Nat}
    (hpop : s.pop = (some i, s'))
    (hv : TypeState.visit program hierarchy (entryTypes hierarchy program.handlers) s' i
      = .ok s'') : Progress hierarchy program s'' := by
  rcases s.pop_cases with ⟨-, hn⟩ | ⟨k, work, hk, hc, hq⟩
  · rw [hn] at hpop
    cases hpop
  rw [hk] at hpop
  obtain ⟨rfl, rfl⟩ : k = i ∧ ⟨s.flow, work⟩ = s' := by simpa using hpop
  have hr := hp.ready.pop hc hq
  have hwait : ∀ {j}, j ∈ s.work.pending → j ≠ k → j ∈ work.pending := by
    intro j hj hne
    rw [hc] at hj
    exact (List.mem_cons.mp hj).resolve_left hne
  by_cases ha : ∃ f, s.flow.At k f
  · obtain ⟨f, ha⟩ := ha
    obtain ⟨hg, hset⟩ := visit_ok hj hr hp.size ha hv
    refine ⟨hg.ready hr, hg.size.trans hp.size, hg.allows hj hp.entry, ?_, ?_⟩
    · intro j f' hf'
      rcases hg.fresh hf' with hold | ⟨hw, -⟩
      · by_cases hjk : j = k
        · subst hjk
          exact .inr (TypeFlow.At.unique ha hold ▸ hset)
        · rcases hp.settled hold with hw | ⟨insn, g, targets, hs⟩
          · exact .inl (hg.waiting (hwait hw hjk))
          · exact .inr ⟨insn, g, targets, Grows.settled (s := ⟨s.flow, work⟩) hj hg hs⟩
      · exact .inl hw
    · intro j f' hf'
      rcases hg.fresh hf' with hold | ⟨-, he⟩
      · exact hp.reached hold
      · exact (hp.reached ha).tail he
  · have hsame := visit_of_not_at (s := ⟨s.flow, work⟩) (fun f hf => ha ⟨f, hf⟩) hv
    subst hsame
    refine ⟨hr, hp.size, hp.entry, ?_, hp.reached⟩
    intro j f' hf'
    refine (hp.settled hf').imp_left fun hw => hwait hw ?_
    rintro rfl
    exact ha ⟨f', hf'⟩

end TypeState

namespace Program

/-- The state in which only the frame on entry is known. -/
def start (program : Program) : TypeState where
  flow := ⟨(Array.replicate program.code.size none).setIfInBounds 0
    (some (.initial program.context)), 0, (SlotFrame.initial program.context).locals.length⟩
  work := (Worklist.empty program.code.size).push 0

variable {program : Program}

theorem at_start {i : Nat} {f : SlotFrame} (h : program.start.flow.At i f) :
    i = 0 ∧ f = .initial program.context := by
  have hinside : i < program.code.size := by
    simpa [start] using (Array.getElem?_eq_some_iff.mp h).1
  rw [TypeState.at_set rfl (by simpa using Nat.lt_of_le_of_lt (Nat.zero_le i) hinside)] at h
  split at h
  · rename_i hi
    exact ⟨hi.symm, h.symm⟩
  · simp [Array.getElem?_replicate] at h

theorem at_start_zero (program : Program) (h : 0 < program.code.size) :
    program.start.flow.At 0 (.initial program.context) :=
  (TypeState.at_set rfl (by simpa using h)).mpr (by simp)

end Program

namespace TypeState

variable {hierarchy : Hierarchy} {program : Program} {s s' s'' : TypeState}

theorem progress_start (h : program.code.isEmpty = false) :
    Progress hierarchy program program.start := by
  have hpos : 0 < program.code.size := by simpa [Nat.pos_iff_ne_zero] using h
  have hh := Worklist.honest_empty program.code.size
  refine ⟨⟨by simp [Program.start, Worklist.empty], hh.push 0⟩, by simp [Program.start],
    ⟨_, program.at_start_zero hpos, .refl _⟩, ?_, ?_⟩
  · intro i f hf
    obtain ⟨rfl, -⟩ := Program.at_start hf
    exact .inl (Worklist.mem_push hh (by simpa [Worklist.empty] using hpos))
  · intro i f hf
    obtain ⟨rfl, -⟩ := Program.at_start hf
    exact .refl

/-- When nothing waits any more, every frame is settled, and an edge leads on to another one. -/
theorem Progress.postFixpoint (hp : Progress hierarchy program s) (hw : s.work.pending = []) :
    s.flow.PostFixpoint hierarchy program := by
  have hset : ∀ {i f}, s.flow.At i f → ∃ insn g targets,
      s.flow.Settled hierarchy program i f insn g targets := by
    intro i f hf
    exact (hp.settled hf).resolve_left (by simp [hw])
  refine ⟨hp.size, hp.entry, hset, ⟨fun ⟨f, hf⟩ => hp.reached hf, ?_⟩⟩
  intro hr
  induction hr with
  | refl =>
    obtain ⟨f, hf, -⟩ := hp.entry
    exact ⟨f, hf⟩
  | tail _ he ih =>
    obtain ⟨f, hf⟩ := ih
    obtain ⟨insn, g, targets, hs⟩ := hset hf
    cases he with
    | next hat hgo hm =>
      obtain rfl := Option.some.inj (hs.at_.symm.trans hat)
      obtain rfl := Except.ok.inj (hs.goes.symm.trans hgo)
      obtain ⟨f', hf', -⟩ := hs.next _ hm
      exact ⟨f', hf'⟩
    | handler hat hreal hm hc =>
      obtain rfl := Option.some.inj (hs.at_.symm.trans hat)
      obtain ⟨⟨f', hf', -⟩, -⟩ := hs.handler hreal _ hm hc
      exact ⟨f', hf'⟩

end TypeState

/-- What holds at the start, and is kept by visits, holds at the end, when nothing waits any
more. -/
theorem run_of_computeTypes {hierarchy : Hierarchy} {program : Program} {flow : TypeFlow}
    {P : TypeState → Prop} (h : computeTypes hierarchy program = .ok flow)
    (start : program.code.isEmpty = false → P program.start)
    (step : ∀ s i s' s'', P s → s.pop = (some i, s') →
      TypeState.visit program hierarchy (entryTypes hierarchy program.handlers) s' i = .ok s'' →
      P s'') : ∃ s : TypeState, s.flow = flow ∧ s.work.pending = [] ∧ P s := by
  unfold computeTypes at h
  split at h
  · cases h
  rename_i hempty
  obtain ⟨final, hd, hfinal⟩ := bind_eq_ok.mp h
  obtain rfl := pure_eq_ok.mp hfinal
  obtain ⟨last, hlast, hpop⟩ := drain_ok step (start (by simpa using hempty)) hd
  rcases last.pop_cases with ⟨hw, hsame⟩ | ⟨i, work, hsome, -, -⟩
  · rw [hsame] at hpop
    obtain ⟨-, rfl⟩ := Prod.mk.inj hpop
    exact ⟨last, rfl, hw, hlast⟩
  · rw [hsome] at hpop
    cases hpop

/-- A computation that comes to an end does so with nothing waiting. -/
theorem progress_of_computeTypes {hierarchy : Hierarchy} (hj : hierarchy.JoinsClasses)
    {program : Program} {flow : TypeFlow} (h : computeTypes hierarchy program = .ok flow) :
    ∃ s : TypeState, s.flow = flow ∧ s.work.pending = [] ∧ s.Progress hierarchy program :=
  run_of_computeTypes h TypeState.progress_start fun _ _ _ _ hp hpop hv => hp.visit hj hpop hv

/-- The computed types allow for every way that control can take, and are exactly where it can
get. -/
theorem computeTypes_isPostFixpoint {hierarchy : Hierarchy} (hj : hierarchy.JoinsClasses)
    {program : Program} {flow : TypeFlow} (h : computeTypes hierarchy program = .ok flow) :
    flow.PostFixpoint hierarchy program := by
  obtain ⟨s, rfl, hw, hp⟩ := progress_of_computeTypes hj h
  exact hp.postFixpoint hw

theorem size_lt_visits (program : Program) (hierarchy : Hierarchy) :
    program.code.size < program.visits hierarchy :=
  Nat.lt_succ_of_le (Nat.le_mul_of_pos_right _ (Nat.succ_pos _))

/-- A run from the start gives the types, if it is not much longer than the code. -/
theorem computeTypes_of_drains {hierarchy : Hierarchy} {program : Program} {visits : List Nat}
    {final : TypeState} (hcode : program.code.isEmpty = false)
    (hle : visits.length ≤ program.code.size + 1)
    (h : Drains TypeState.pop
      (TypeState.visit program hierarchy (entryTypes hierarchy program.handlers)) program.start
      visits final) : computeTypes hierarchy program = .ok final.flow := by
  have hbound := Nat.le_trans hle (size_lt_visits program hierarchy)
  unfold computeTypes
  rw [if_neg (by simp [hcode])]
  exact bind_eq_ok.mpr ⟨final, h.drain_eq hbound, rfl⟩

/-- Code that throws, in a range whose handler is the place before, so that it is entered with
nothing and with an exception; and then code that control never gets to. -/
def rethrowing : Program where
  context := ⟨"Rethrowing", "run", ⟨[], none⟩, true⟩
  code := #[.plain .aconstNull, .label ⟨0⟩, .plain .athrow, .plain .returnVoid]
  positions := ∅
  handlers := [⟨2, 3, 1, none⟩]

/-- The state in which given places wait, with the types on the stack where they are known. -/
def rethrowingState (maxStack : Nat) (atHandler atThrow : Option SlotType)
    (work : Worklist) : TypeState :=
  ⟨⟨#[some ⟨[], []⟩, atHandler.map fun type => ⟨[], [type]⟩, atThrow.map fun type => ⟨[], [type]⟩,
    none], maxStack, 0⟩, work⟩

/-- Throwing brings the exception to the handler, which is given it as a `Throwable`. -/
theorem visit_rethrowing {hierarchy : Hierarchy} {types : Std.HashMap Nat String}
    (hc : types.getD 1 Name.throwable = Name.throwable) {type : SlotType} (work : Worklist)
    (ht : type = .null ∨ type = .object Name.throwable) :
    TypeState.visit rethrowing hierarchy types
      (rethrowingState 1 (some type) (some type) work) 2 =
      .ok (rethrowingState 1 (some (.object Name.throwable)) (some type)
        (if type = .null then work.push 1 else work)) := by
  have henter : ∀ before after s, TypeState.enterHandler rethrowing hierarchy types before after s
      ⟨2, 3, 1, none⟩ = ([before.locals, after.locals].foldlM (fun state locals =>
        (TypeState.flowInto hierarchy 1 ⟨locals, [.object Name.throwable]⟩ state).mapError
          (rethrowing.fault 1)) s >>= fun s => pure (s.raise 1 0)) := by
    intro before after s
    rw [← hc]
    rfl
  rcases ht with rfl | rfl
  all_goals
    change ((TypeState.enterHandler rethrowing hierarchy types _ _ _ ⟨2, 3, 1, none⟩ >>= _) >>= _)
      = _
    rw [henter]
    rfl

/-- The frame at the handler is merged with what is thrown, and its place visited again. -/
theorem computeTypes_rethrowing (hierarchy : Hierarchy) :
    computeTypes hierarchy rethrowing = .ok
      (rethrowingState 1 (some (.object Name.throwable)) (some (.object Name.throwable))
        (.empty 4)).flow := by
  have hc : (entryTypes hierarchy rethrowing.handlers).getD 1 Name.throwable = Name.throwable := by
    simp [entryTypes, rethrowing]
  refine computeTypes_of_drains rfl (by decide : [0, 1, 2, 1, 2].length ≤ 4 + 1) ?_
  change Drains _ _ (rethrowingState 0 none none ((Worklist.empty 4).push 0)) _ _
  generalize entryTypes hierarchy rethrowing.handlers = types at hc ⊢
  have h₁ : TypeState.visit rethrowing hierarchy types (rethrowingState 0 none none (.empty 4)) 0 =
      .ok (rethrowingState 1 (some .null) none ((Worklist.empty 4).push 1)) := rfl
  have h₂ : TypeState.visit rethrowing hierarchy types
      (rethrowingState 1 (some .null) none (.empty 4)) 1 =
      .ok (rethrowingState 1 (some .null) (some .null) ((Worklist.empty 4).push 2)) := rfl
  have h₃ := @visit_rethrowing hierarchy types hc .null (.empty 4) (.inl rfl)
  have h₄ : TypeState.visit rethrowing hierarchy types
      (rethrowingState 1 (some (.object Name.throwable)) (some .null) (.empty 4)) 1 =
      .ok (rethrowingState 1 (some (.object Name.throwable)) (some (.object Name.throwable))
        ((Worklist.empty 4).push 2)) := rfl
  have h₅ := @visit_rethrowing hierarchy types hc (.object Name.throwable) (.empty 4) (.inr rfl)
  have hpop : ∀ maxStack atHandler atThrow i, i < 3 →
      (rethrowingState maxStack atHandler atThrow ((Worklist.empty 4).push i)).pop =
        (some i, rethrowingState maxStack atHandler atThrow (.empty 4)) := by
    intro maxStack atHandler atThrow i hi
    match i with
    | 0 | 1 | 2 => rfl
    | i + 3 => omega
  rw [if_pos rfl] at h₃
  rw [if_neg nofun] at h₅
  refine .visit (hpop _ _ _ 0 (by decide)) h₁ (.visit (hpop _ _ _ 1 (by decide)) h₂ ?_)
  refine .visit (hpop _ _ _ 2 (by decide)) h₃ (.visit (hpop _ _ _ 1 (by decide)) h₄ ?_)
  exact .visit (hpop _ _ _ 2 (by decide)) h₅ (.done rfl)

theorem rethrowing_isPostFixpoint :
    (rethrowingState 1 (some (.object Name.throwable)) (some (.object Name.throwable))
      (.empty 4)).flow.PostFixpoint .library rethrowing :=
  computeTypes_isPostFixpoint Ancestry.library_joinsClasses (computeTypes_rethrowing .library)

section Replacing

/-- A method that replaces its first parameter by its second one, in a range whose handler is
entered with either of them. -/
def replacing (second : RefType) : Program where
  context := ⟨"p/Q", "m", ⟨[.ref (.object ⟨"p/A", by decide +kernel⟩), .ref second], none⟩, true⟩
  code := #[.var .aload 1, .var .astore 0, .plain .returnVoid, .plain .returnVoid]
  positions := ∅
  handlers := [⟨1, 2, 3, none⟩]

/-- The types in that method, where its parameters merge to `common`. -/
def replacingFlow (second : RefType) (common : SlotType) : TypeFlow :=
  let parameter : SlotType := .object second.classReference
  ⟨#[some ⟨[.object "p/A", parameter], []⟩, some ⟨[.object "p/A", parameter], [parameter]⟩,
    some ⟨[parameter, parameter], []⟩, some ⟨[common, parameter], [.object Name.throwable]⟩], 1, 2⟩

variable {hierarchy : Hierarchy} {second : RefType} {common : SlotType}

/-- The frame at the handler takes in the first parameter, and then the second one. -/
theorem enterHandler_replacing {types : Std.HashMap Nat String}
    (hc : types.getD 3 Name.throwable = Name.throwable)
    (hm : mergeTypes hierarchy (.object "p/A") (.object second.classReference) = common)
    (hne : common ≠ .object "p/A") (f₀ f₁ f₂ : Option SlotFrame) (work : Worklist) :
    TypeState.enterHandler (replacing second) hierarchy types
      ⟨[.object "p/A", .object second.classReference], [.object second.classReference]⟩
      ⟨[.object second.classReference, .object second.classReference], []⟩
      ⟨⟨#[f₀, f₁, f₂, none], 1, 2⟩, work⟩ ⟨1, 2, 3, none⟩ =
      .ok ⟨⟨#[f₀, f₁, f₂, some ⟨[common, .object second.classReference],
        [.object Name.throwable]⟩], 1, 2⟩, (work.push 3).push 3⟩ := by
  have hmerged : mergeFrames hierarchy
      ⟨[.object "p/A", .object second.classReference], [.object Name.throwable]⟩
      ⟨[.object second.classReference, .object second.classReference], [.object Name.throwable]⟩ =
      .ok ⟨[common, .object second.classReference], [.object Name.throwable]⟩ := by
    rw [mergeFrames_eq_ok]
    simp [Mergeable, hm]
  rw [TypeState.enterHandler, hc]
  simp [TypeState.flowInto, hmerged, hne, pure, Except.pure, bind, Except.bind, Except.mapError,
    TypeState.raise]

theorem computeTypes_replacing
    (hm : mergeTypes hierarchy (.object "p/A") (.object second.classReference) = common)
    (hne : common ≠ .object "p/A") :
    computeTypes hierarchy (replacing second) = .ok (replacingFlow second common) := by
  have hc : (entryTypes hierarchy (replacing second).handlers).getD 3 Name.throwable =
      Name.throwable := by
    simp [entryTypes, replacing]
  refine @computeTypes_of_drains _ _ [0, 1, 2, 3] ⟨replacingFlow second common, .empty 4⟩ rfl
    (Nat.le_succ 4) ?_
  generalize entryTypes hierarchy (replacing second).handlers = types at hc ⊢
  have h₁ : TypeState.visit (replacing second) hierarchy types
      ⟨⟨#[some ⟨[.object "p/A", .object second.classReference], []⟩,
        some ⟨[.object "p/A", .object second.classReference], [.object second.classReference]⟩,
        none, none], 1, 2⟩, .empty 4⟩ 1 =
      .ok ⟨replacingFlow second common, (((Worklist.empty 4).push 3).push 3).push 2⟩ := by
    have henter := enterHandler_replacing hc hm hne
      (some ⟨[.object "p/A", .object second.classReference], []⟩)
      (some ⟨[.object "p/A", .object second.classReference], [.object second.classReference]⟩)
      none (.empty 4)
    change ((TypeState.enterHandler (replacing second) hierarchy types _
      ⟨[.object second.classReference, .object second.classReference], []⟩ ⟨⟨_, 1, 2⟩, _⟩
      ⟨1, 2, 3, none⟩ >>= _) >>= _) = _
    rw [henter]
    rfl
  exact .visit rfl rfl (.visit rfl h₁ (.visit rfl rfl (.visit rfl rfl (.done rfl))))

/-- The handler does not allow for the first parameter, if what both have in common does not. -/
theorem not_postFixpoint_replacing
    (hno : mergeTypes hierarchy common (.object "p/A") ≠ common) :
    ¬ (replacingFlow second common).PostFixpoint hierarchy (replacing second) := by
  intro h
  have hat : (replacingFlow second common).At 1 ⟨[.object "p/A", .object second.classReference],
    [.object second.classReference]⟩ := rfl
  obtain ⟨insn, g, targets, hs⟩ := h.settled hat
  obtain rfl := Option.some.inj hs.at_
  obtain ⟨⟨f, hf, habsorbs⟩, -⟩ := hs.handler rfl _ List.mem_cons_self rfl
  obtain rfl := hf.unique (rfl : (replacingFlow second common).At 3
    ⟨[common, .object second.classReference], [.object Name.throwable]⟩)
  exact hno (above_cons_cons.mp (absorbs_iff.mp habsorbs).2.1).1

end Replacing

/-- Classes that are different have one class in common, which none has a name for. -/
def flat : Hierarchy :=
  ⟨fun name₁ name₂ => if name₁ = name₂ then name₁ else "x/Top", []⟩

theorem flat_isJoin : flat.IsJoin where
  idem _ := if_pos rfl
  comm a b := by
    simp only [flat]
    grind
  assoc a b c := by
    simp only [flat]
    grind

open ClassTree.Ancestry (siblings siblings_extendsClasses)

/-- A join is not enough: it may come out as an array type, with which classes have nothing but
`java/lang/Object` in common; and there may be something above that. -/
theorem replacing_notPostFixpoint :
    (∃ second : RefType, second.classReference = "p/B" ∧
      (siblings "[I").hierarchy.IsJoin ∧
      computeTypes (siblings "[I").hierarchy (replacing second) =
        .ok (replacingFlow second (.object "[I")) ∧
      ¬ (replacingFlow second (.object "[I")).PostFixpoint (siblings "[I").hierarchy
        (replacing second)) ∧
    ∃ second : RefType, second.classReference = "[I" ∧ flat.IsJoin ∧
      computeTypes flat (replacing second) = .ok (replacingFlow second (.object Name.object)) ∧
      ¬ (replacingFlow second (.object Name.object)).PostFixpoint flat (replacing second) := by
  refine ⟨⟨.object ⟨"p/B", by decide +kernel⟩, rfl,
    Ancestry.isJoin_of_extendsClasses (siblings_extendsClasses _),
    computeTypes_replacing ?_ (by decide), not_postFixpoint_replacing ?_⟩,
    .array 0 (.base .int), rfl, flat_isJoin, computeTypes_replacing ?_ (by decide),
    not_postFixpoint_replacing ?_⟩
  all_goals
    rw [mergeTypes_object, mergeReferences, mergeChars]
    decide +kernel

end ClassTree.Flow
