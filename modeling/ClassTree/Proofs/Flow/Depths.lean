import ClassTree.Flow.Depth
import ClassTree.Proofs.Flow.Heights
import Mathlib.Data.List.Nodup
import Mathlib.Data.List.Perm.Subperm

namespace ClassTree.Flow

namespace DepthState

def start (program : Program) : DepthState where
  depths := (Array.replicate program.code.size none).setIfInBounds 0 (some 0)
  maxStack := 0
  work := (Worklist.empty program.code.size).push 0

def DepthAt (s : DepthState) (i depth : Nat) : Prop :=
  s.depths[i]? = some (some (depth : Int))

def Recorded (s : DepthState) (i : Nat) (depth : Int) : Prop :=
  s.depths[i]? = some (some depth)

/-- After some visits, the places with a depth are those that wait and those that were visited, each
counted once. -/
structure Marks (program : Program) (done : List Nat) (s : DepthState) : Prop where
  size : s.depths.size = program.code.size
  queued : s.work.queued.size = program.code.size
  honest : s.work.Honest
  once : (s.work.pending ++ done).Nodup
  placed : ∀ i, i ∈ s.work.pending ++ done ↔ ∃ depth, s.Recorded i depth

/-- What holds between visits, after some of them: every depth is one that control can get there
with. -/
structure Tracks (program : Program) (done : List Nat) (s : DepthState) : Prop
    extends Marks program done s where
  sound : ∀ {i depth}, s.Recorded i depth → ∃ height : Nat, depth = height ∧ program.Height i height
  gets : ∃ height : Nat, s.maxStack = height ∧ program.Gets height

structure Extends (s s' : DepthState) : Prop where
  kept : ∀ {i depth}, s.DepthAt i depth → s'.DepthAt i depth
  stack : s.maxStack ≤ s'.maxStack

variable {program : Program} {done : List Nat} {s s' s'' : DepthState} {i before : Nat}

theorem DepthAt.unique {depth depth' : Nat} (h : s.DepthAt i depth) (h' : s.DepthAt i depth') :
    depth = depth' := by
  have hsame := Option.some.inj (Option.some.inj (h.symm.trans h'))
  exact Int.ofNat.inj hsame

theorem Extends.refl : Extends s s :=
  ⟨id, Int.le_refl _⟩

theorem Extends.trans (h : Extends s s') (h' : Extends s' s'') : Extends s s'' :=
  ⟨h'.kept ∘ h.kept, Int.le_trans h.stack h'.stack⟩

theorem Marks.raise (h : Marks program done s) (height : Nat) :
    Marks program done (s.raise height) :=
  ⟨h.size, h.queued, h.honest, h.once, h.placed⟩

theorem Tracks.raise (h : Tracks program done s) {height : Nat} (hg : program.Gets height) :
    Tracks program done (s.raise height) where
  toMarks := h.toMarks.raise height
  sound := h.sound
  gets := by
    obtain ⟨top, ht, hgets⟩ := h.gets
    rcases Nat.le_total top height with hle | hle
    · exact ⟨height, by simp [DepthState.raise, ht]; omega, hg⟩
    · exact ⟨top, by simp [DepthState.raise, ht]; omega, hgets⟩

theorem extends_raise (depth : Int) : Extends s (s.raise depth) :=
  ⟨id, Int.le_max_left _ _⟩

/-- There are no more places than instructions. -/
theorem Marks.length_le (h : Marks program done s) :
    (s.work.pending ++ done).length ≤ program.code.size := by
  have hsub : s.work.pending ++ done ⊆ List.range program.code.size := by
    intro i hi
    obtain ⟨depth, hd⟩ := (h.placed i).mp hi
    obtain ⟨hlt, -⟩ := Array.getElem?_eq_some_iff.mp hd
    exact List.mem_range.mpr (h.size ▸ hlt)
  simpa using (List.subperm_of_subset h.once hsub).length_le

/-- Taking a place leaves the depths alone, and counts the place as visited. -/
theorem Marks.pop_cases (h : Marks program done s) :
    (s.work.pending = [] ∧ s.pop = (none, s)) ∨
      ∃ i work, s.pop = (some i, ⟨s.depths, s.maxStack, work⟩) ∧
        s.work.pending = i :: work.pending ∧
        Marks program (i :: done) ⟨s.depths, s.maxStack, work⟩ := by
  have hpop : s.pop = (s.work.pop.1, ⟨s.depths, s.maxStack, s.work.pop.2⟩) := rfl
  rcases s.work.pop_cases with ⟨he, hp⟩ | ⟨i, work, hp, hc, hq⟩
  · exact .inl ⟨he, by rw [hpop, hp]⟩
  refine .inr ⟨i, work, by rw [hpop, hp], hc, ?_⟩
  have hperm : (work.pending ++ i :: done).Perm (s.work.pending ++ done) := by
    rw [hc]
    exact List.perm_middle
  exact ⟨h.size, by rw [hq, Array.size_setIfInBounds]; exact h.queued, h.honest.pop hc hq,
    hperm.nodup_iff.mpr h.once, fun j => hperm.mem_iff.trans (h.placed j)⟩

/-- A depth that is recorded where none was changes no other one. -/
theorem recorded_set {target : Nat} {depth : Int} (hnone : s.depths[target]? = some none)
    {work : Worklist} {j : Nat} {depth' : Int} :
    Recorded ⟨s.depths.setIfInBounds target (some depth), s.maxStack, work⟩ j depth' ↔
      s.Recorded j depth' ∨ j = target ∧ depth' = depth := by
  obtain ⟨hlt, -⟩ := Array.getElem?_eq_some_iff.mp hnone
  simp only [Recorded, Array.getElem?_setIfInBounds]
  split
  · rename_i he
    subst he
    rw [hnone]
    simp [eq_comm]
  · rename_i he
    simp [Ne.symm he]

/-- A place that gets its first depth waits, once. -/
theorem Marks.record (h : Marks program done s) {target : Nat} (depth : Int)
    (hnone : s.depths[target]? = some none) :
    Marks program done
      ⟨s.depths.setIfInBounds target (some depth), s.maxStack, s.work.push target⟩ := by
  obtain ⟨hlt, -⟩ := Array.getElem?_eq_some_iff.mp hnone
  have hnew : target ∉ s.work.pending ++ done := by
    rw [h.placed target]
    rintro ⟨depth', hd⟩
    cases hnone.symm.trans hd
  have hidle : ¬ s.work.queued.getD target true = true := by
    intro hq
    have hlt' : target < s.work.queued.size := by
      rw [h.queued, ← h.size]
      exact hlt
    exact hnew (List.mem_append_left _ (h.honest target (by simpa [hlt'] using hq)))
  have hpush := Worklist.push_of_not_queued hidle
  refine ⟨by simpa using h.size, by simpa using h.queued, h.honest.push target, ?_, ?_⟩
  · simp only [hpush, List.cons_append]
    exact List.nodup_cons.mpr ⟨hnew, h.once⟩
  · intro j
    simp only [hpush, List.cons_append, List.mem_cons, h.placed j, recorded_set hnone,
      exists_or, exists_and_left, exists_eq, and_true]
    exact or_comm

theorem recorded_start (h : 0 < program.code.size) {depth : Int} :
    (start program).Recorded i depth ↔ i = 0 ∧ depth = 0 := by
  simp only [Recorded, start, Array.getElem?_setIfInBounds, Array.size_replicate, if_pos h,
    Array.getElem?_replicate]
  by_cases hi : 0 = i
  · simp [hi.symm, eq_comm]
  · simp [hi, Ne.symm hi]

theorem marks_start (h : 0 < program.code.size) : Marks program [] (start program) := by
  have hq : ¬ (Worklist.empty program.code.size).queued.getD 0 true = true := by
    simp [Worklist.empty, h]
  have hwork : (start program).work.pending ++ [] = [0] := by
    rw [start, Worklist.push_of_not_queued hq]
    rfl
  refine ⟨by simp [start], by simp [start, Worklist.empty],
    (Worklist.honest_empty _).push 0, ?_, ?_⟩
  · rw [hwork]
    exact List.nodup_singleton 0
  · intro i
    simp [hwork, recorded_start h]

theorem Tracks.pop_cases (h : Tracks program done s) :
    (s.work.pending = [] ∧ s.pop = (none, s)) ∨
      ∃ i work, s.pop = (some i, ⟨s.depths, s.maxStack, work⟩) ∧
        s.work.pending = i :: work.pending ∧
        Tracks program (i :: done) ⟨s.depths, s.maxStack, work⟩ :=
  h.toMarks.pop_cases.imp_right fun ⟨i, work, hp, hc, hmarks⟩ =>
    ⟨i, work, hp, hc, ⟨hmarks, h.sound, h.gets⟩⟩

section Following

variable (single : ∀ {i height height'}, program.Height i height → program.Height i height' →
  height = height')
include single

/-- What arrives somewhere is recorded, or was before. -/
theorem arrive_ok (h : Tracks program done s) {target height : Nat}
    (hh : program.Height target height) (hlt : target < program.code.size) :
    ∃ s', arrive program s target height = .ok s' ∧ Tracks program done s' ∧ Extends s s' ∧
      s'.DepthAt target height := by
  have hin : target < s.depths.size := h.size ▸ hlt
  have hat : s.depths[target]? = some s.depths[target] := Array.getElem?_eq_getElem hin
  cases hd : s.depths[target] with
  | none =>
    rw [hd] at hat
    refine ⟨⟨s.depths.setIfInBounds target (some (height : Int)), s.maxStack,
      s.work.push target⟩, ?_, ⟨h.toMarks.record height hat, ?_, h.gets⟩,
      ⟨fun hr => (recorded_set hat).mpr (.inl hr), Int.le_refl _⟩,
      (recorded_set hat).mpr (.inr ⟨rfl, rfl⟩)⟩
    · simp [arrive, flowInto, hat, Except.mapError]
    · intro i depth hr
      rcases (recorded_set hat).mp hr with hr | ⟨rfl, rfl⟩
      · exact h.sound hr
      · exact ⟨height, rfl, hh⟩
  | some depth =>
    rw [hd] at hat
    obtain ⟨height', rfl, hh'⟩ := h.sound hat
    obtain rfl := single hh hh'
    exact ⟨s, by simp [arrive, flowInto, hat, Except.mapError], h, .refl, hat⟩

omit single in
/-- Everything on a list arrives. -/
theorem foldlM_arrives (h : Tracks program done s) {α : Type}
    {f : DepthState → α → Except Error DepthState} {l : List α} {Q : α → DepthState → Prop}
    (step : ∀ x ∈ l, ∀ s, Tracks program done s → ∃ s', f s x = .ok s' ∧ Tracks program done s' ∧
      Extends s s' ∧ Q x s')
    (keep : ∀ x s s', Extends s s' → Q x s → Q x s') :
    ∃ s', l.foldlM f s = .ok s' ∧ Tracks program done s' ∧ Extends s s' ∧ ∀ x ∈ l, Q x s' := by
  induction l generalizing s with
  | nil => exact ⟨s, rfl, h, .refl, nofun⟩
  | cons x l ih =>
    obtain ⟨next, hx, hn, he, hq⟩ := step x (by simp) s h
    obtain ⟨last, hl, hlast, he', hq'⟩ := ih hn fun y hy => step y (by simp [hy])
    refine ⟨last, ?_, hlast, he.trans he', ?_⟩
    · rw [List.foldlM_cons, hx]
      exact hl
    · intro y hy
      rcases List.mem_cons.mp hy with rfl | hy
      · exact keep y next last he' hq
      · exact hq' y hy

variable (steps : ∀ {i before}, program.Height i before →
  ∃ insn after targets, program.Steps i before insn after targets)
include steps

/-- Visiting an instruction follows it. -/
theorem visit_explores (h : Tracks program done s) (hd : s.DepthAt i before)
    (here : program.Height i before) :
    ∃ s', visit program s i = .ok s' ∧ Tracks program done s' ∧ Extends s s' ∧
      ∃ insn after targets,
        program.Explored s'.DepthAt s'.maxStack.toNat i before insn after targets := by
  obtain ⟨insn, after, targets, hsteps⟩ := steps here
  obtain ⟨δ, hdelta, hafter⟩ := hsteps.delta
  have hlt {j height : Nat} (hh : program.Height j height) : j < program.code.size := by
    obtain ⟨insn, after, targets, hsteps⟩ := steps hh
    exact (Array.getElem?_eq_some_iff.mp hsteps.at_).1
  have hget : s.depths.getD i none = some (before : Int) := by
    rw [Array.getD_eq_getD_getElem?, hd, Option.getD_some]
  have hcovered : ∀ range ∈ (if insn.isMarker then [] else program.handlers.filter (·.covers i)),
      program.Catches i range := by
    intro range hm
    obtain ⟨hreal, hm, hcovers⟩ := mem_covering.mp hm
    exact ⟨⟨insn, hsteps.at_, hreal⟩, hm, hcovers⟩
  obtain ⟨s₁, hs₁, ht₁, he₁, hq₁⟩ := foldlM_arrives (h.raise (.after here hsteps))
    (f := fun state range => return (← arrive program state range.handler 1).raise 1)
    (Q := fun (range : HandlerRange) s => s.DepthAt range.handler 1 ∧ 1 ≤ s.maxStack)
    (by
      intro range hm s hs
      have hh := Program.Height.handler here (hcovered range hm)
      obtain ⟨s', ha, ht, he, hd⟩ := arrive_ok single hs hh (hlt hh)
      refine ⟨s'.raise 1, ?_, ht.raise (.caught here (hcovered range hm)),
        he.trans (extends_raise 1), hd, Int.le_max_right _ _⟩
      rw [show (1 : Int) = ((1 : Nat) : Int) from rfl, ha]
      rfl)
    (fun _ _ _ he h => ⟨he.kept h.1, Int.le_trans h.2 he.stack⟩)
  obtain ⟨s₂, hs₂, ht₂, he₂, hq₂⟩ := foldlM_arrives ht₁
    (f := fun state target => arrive program state target (after : Int))
    (Q := fun j s => s.DepthAt j after)
    (fun j hm s hs => arrive_ok single hs (.next here hsteps hm) (hlt (.next here hsteps hm)))
    (fun _ _ _ he => he.kept)
  have hall := he₁.trans he₂
  refine ⟨s₂, ?_, ht₂, (extends_raise _).trans hall, insn, after, targets, hsteps, ?_, hq₂, ?_⟩
  · unfold visit
    rw [hget, hsteps.at_]
    refine bind_eq_ok.mpr ⟨δ, mapError_eq_ok.mpr hdelta, ?_⟩
    dsimp only
    rw [← hafter, if_neg (Int.not_lt.mpr (Int.natCast_nonneg after))]
    refine bind_eq_ok.mpr ⟨s₁, hs₁, ?_⟩
    refine bind_eq_ok.mpr ⟨targets.map (·, (after : Int)), mapError_eq_ok.mpr ?_, ?_⟩
    · unfold edges
      rw [if_neg (by simp [hsteps.noCall])]
      exact bind_eq_ok.mpr ⟨targets, hsteps.goes, rfl⟩
    · rw [List.foldlM_map]
      exact hs₂
  · have := hall.stack
    have htop : (after : Int) ≤ (s.raise after).maxStack := Int.le_max_right _ _
    omega
  · intro range hcatches
    obtain ⟨other, hat, hreal⟩ := hcatches.real
    obtain rfl := Option.some.inj (hat.symm.trans hsteps.at_)
    obtain ⟨hk, hone⟩ := hq₁ range (mem_covering.mpr ⟨hreal, hcatches.mem, hcatches.covers⟩)
    have := he₂.stack
    exact ⟨he₂.kept hk, by omega⟩

/-- Whatever waits is visited, once, and followed. -/
theorem exists_drains (h : Tracks program done s) {bound : Nat}
    (hb : program.code.size ≤ done.length + bound)
    (explored : ∀ {i before}, s.DepthAt i before → i ∈ s.work.pending ∨ ∃ insn after targets,
      program.Explored s.DepthAt s.maxStack.toNat i before insn after targets) :
    ∃ visits final, Drains pop (visit program) s visits final ∧ visits.length ≤ bound ∧
      Tracks program (visits.reverse ++ done) final ∧ final.work.pending = [] ∧
      Extends s final ∧
      ∀ {i before}, final.DepthAt i before → ∃ insn after targets,
        program.Explored final.DepthAt final.maxStack.toNat i before insn after targets := by
  induction bound generalizing s done with
  | zero =>
    rcases h.pop_cases with ⟨hw, hn⟩ | ⟨i, work, -, hc, -⟩
    · exact ⟨[], s, .done hn, Nat.le_refl _, h, hw, .refl,
        fun hd => (explored hd).resolve_left (by simp [hw])⟩
    · have hlength := h.toMarks.length_le
      rw [hc] at hlength
      simp at hlength
      omega
  | succ bound ih =>
    rcases h.pop_cases with ⟨hw, hn⟩ | ⟨i, work, hp, hc, hpopped⟩
    · exact ⟨[], s, .done hn, Nat.zero_le _, h, hw, .refl,
        fun hd => (explored hd).resolve_left (by simp [hw])⟩
    obtain ⟨depth, hd⟩ := (h.placed i).mp (by simp [hc])
    obtain ⟨before, rfl, here⟩ := h.sound hd
    obtain ⟨s', hv, ht, he, hfollowed⟩ := visit_explores single steps hpopped hd here
    obtain ⟨visits, final, hdrains, hlen, htracks, hw, hext, hall⟩ := ih ht
      (by simp only [List.length_cons]; omega) (by
        intro j before' hj
        rcases List.mem_append.mp ((ht.placed j).mpr ⟨_, hj⟩) with hm | hm
        · exact .inl hm
        rcases List.mem_cons.mp hm with rfl | hm
        · obtain rfl := DepthAt.unique hj (he.kept hd)
          exact .inr hfollowed
        · -- what was visited before is followed still
          obtain ⟨depth, hold⟩ := (h.placed j).mp (List.mem_append_right _ hm)
          obtain ⟨height, rfl, -⟩ := h.sound hold
          obtain rfl := DepthAt.unique hj (he.kept hold)
          have hvisited : j ∉ s.work.pending := fun hw =>
            (List.nodup_append.mp h.once).2.2 j hw j hm rfl
          obtain ⟨insn, after, targets, hx⟩ := (explored hold).resolve_left hvisited
          exact .inr ⟨insn, after, targets, hx.mono he.kept (Int.toNat_le_toNat he.stack)⟩)
    refine ⟨i :: visits, final, .visit hp hv hdrains, Nat.succ_le_succ hlen, ?_, hw,
      ⟨fun hd => hext.kept (he.kept hd), Int.le_trans he.stack hext.stack⟩, hall⟩
    rwa [List.reverse_cons, List.append_assoc]

end Following

theorem tracks_start (h : 0 < program.code.size) : Tracks program [] (start program) := by
  refine ⟨marks_start h, ?_, 0, rfl, .entry⟩
  intro i depth hi
  obtain ⟨rfl, rfl⟩ := (recorded_start h).mp hi
  exact ⟨0, rfl, .entry⟩

/-- Where heights have been surveyed, and no place has two, depths are recorded for the places that
have one, in a visit each. -/
theorem exists_survey {known : Nat → Nat → Prop} {top : Nat} (h : program.Surveyed known top)
    (single : ∀ {i height height'}, known i height → known i height' → height = height') :
    ∃ visits final, Drains pop (visit program) (start program) visits final ∧
      visits.length ≤ program.code.size ∧ visits.Nodup ∧
      (∀ i, i ∈ visits ↔ ∃ height, known i height) ∧
      (∀ i depth, final.Recorded i depth ↔ ∃ height : Nat, depth = height ∧ known i height) ∧
      final.maxStack = top := by
  have hpos : 0 < program.code.size := by
    obtain ⟨insn, after, targets, hsteps⟩ := h.exists_steps .entry
    exact (Array.getElem?_eq_some_iff.mp hsteps.at_).1
  have hstart := tracks_start hpos
  obtain ⟨visits, final, hdrains, hlen, ht, hdone, hext, hfollowed⟩ :=
    exists_drains (fun hi hi' => single (h.known_of_height hi) (h.known_of_height hi'))
      h.exists_steps hstart (Nat.le_of_eq (Nat.zero_add _).symm)
      fun {i _} hd => .inl (by simpa using (hstart.placed i).mpr ⟨_, hd⟩)
  rw [List.append_nil] at ht
  obtain ⟨top', htop, hgets⟩ := ht.gets
  have hsurveyed : program.Surveyed final.DepthAt final.maxStack.toNat :=
    { entry := hext.kept ((recorded_start hpos).mpr ⟨rfl, rfl⟩)
      sound := by
        intro i height hd
        obtain ⟨height', he, hi⟩ := ht.sound hd
        obtain rfl := Int.ofNat.inj he
        exact hi
      explored := hfollowed
      gets := htop ▸ hgets }
  have hrecorded : ∀ i depth, final.Recorded i depth ↔
      ∃ height : Nat, depth = height ∧ known i height := by
    intro i depth
    constructor
    · intro hd
      obtain ⟨height, rfl, hi⟩ := ht.sound hd
      exact ⟨height, rfl, h.known_of_height hi⟩
    · rintro ⟨height, rfl, hi⟩
      exact hsurveyed.known_of_height (h.sound hi)
  refine ⟨visits, final, hdrains, hlen, ?_, fun i => ?_, hrecorded, ?_⟩
  · have hnodup := ht.once
    rw [hdone] at hnodup
    exact List.nodup_reverse.mp hnodup
  · have hplaced := ht.placed i
    rw [hdone, List.nil_append, List.mem_reverse] at hplaced
    rw [hplaced]
    simp only [hrecorded]
    exact ⟨fun ⟨_, height, _, hi⟩ => ⟨height, hi⟩, fun ⟨height, hi⟩ => ⟨_, height, rfl, hi⟩⟩
  · have := hsurveyed.top_unique h
    omega

end DepthState

def UsesLocal : Instruction Label → Prop
  | .var _ _ | .increment _ _ => True
  | _ => False

theorem localsUsed_of_not {insn : Instruction Label} (h : ¬ UsesLocal insn) :
    localsUsed insn = 0 := by
  cases insn <;> first | rfl | exact absurd trivial h

variable {hierarchy : Hierarchy} {program : Program} {flow : TypeFlow}

/-- Where types can be computed, so can depths, with any hierarchy of classes: the run visits the
instructions that have types, each once, and finds the heights of their frames. The maximum for the
stack is the same; that for the locals also counts what cannot be reached. -/
theorem computeMaxima_of_computeTypes (h : computeTypes hierarchy program = .ok flow) :
    ∃ visits final most,
      Drains DepthState.pop (DepthState.visit program) (DepthState.start program) visits final ∧
      visits.Nodup ∧ (∀ i, i ∈ visits ↔ ∃ f, flow.At i f) ∧
      (∀ (i : Nat) (depth : Int), final.depths[i]? = some (some depth) ↔
        ∃ f, flow.At i f ∧ depth = f.stack.length) ∧
      computeMaxima program = .ok (final.maxStack.toNat, most) ∧
      final.maxStack = flow.maxStack ∧ flow.maxLocals ≤ most ∧
      ((∀ (i : Nat) insn, program.code[i]? = some insn → UsesLocal insn → program.Reachable i) →
        most = flow.maxLocals) := by
  obtain ⟨s, rfl, he, hw⟩ := explores_of_computeTypes h
  have hsurveyed := he.surveyed hw
  obtain ⟨visits, final, hdrains, hlen, hnodup, hvisits, hrecorded, htop⟩ :=
    DepthState.exists_survey hsurveyed TypeFlow.HeightAt.unique
  refine ⟨visits, final, program.mostLocals, hdrains, hnodup, fun i => ?_, fun i depth => ?_, ?_,
    htop, he.bounded, fun hreach => ?_⟩
  · rw [hvisits]
    exact ⟨fun ⟨_, f, hf, _⟩ => ⟨f, hf⟩, fun ⟨f, hf⟩ => ⟨_, f, hf, rfl⟩⟩
  · refine (hrecorded i depth).trans ⟨?_, ?_⟩
    · rintro ⟨height, rfl, f, hf, rfl⟩
      exact ⟨f, hf, rfl⟩
    · rintro ⟨f, hf, rfl⟩
      exact ⟨_, rfl, f, hf, rfl⟩
  · have hnonempty : ¬ program.code.size = 0 := by
      obtain ⟨insn, after, targets, hsteps⟩ := hsurveyed.exists_steps .entry
      exact Nat.ne_of_gt (Nat.zero_lt_of_lt (Array.getElem?_eq_some_iff.mp hsteps.at_).1)
    unfold computeMaxima
    rw [if_neg hnonempty]
    exact bind_eq_ok.mpr ⟨final, hdrains.drain_eq hlen, rfl⟩
  · refine Nat.le_antisymm (Program.mostLocals_le_iff.mpr ⟨he.initial, ?_⟩) he.bounded
    intro insn hm
    obtain ⟨i, hi⟩ := Array.getElem?_of_mem hm
    by_cases huses : UsesLocal insn
    · obtain ⟨height, hh⟩ := hsurveyed.exists_height (hreach i insn hi huses)
      obtain ⟨insn', after, targets, hx, hused⟩ := he.followed hw (hsurveyed.known_of_height hh)
      obtain rfl := Option.some.inj (hi.symm.trans hx.steps.at_)
      exact hused
    · rw [localsUsed_of_not huses]
      exact Nat.zero_le _

/-- The handler that is visited twice for its types counts once for depths. -/
theorem rethrowing_maxima :
    computeTypes .library rethrowing = .ok (rethrowingState 1 (some (.object Name.throwable))
      (some (.object Name.throwable)) (.empty 4)).flow ∧
    computeMaxima rethrowing = .ok (1, 0) ∧
    ∃ visits final, Drains DepthState.pop (DepthState.visit rethrowing)
      (DepthState.start rethrowing) visits final ∧ visits.Nodup ∧ ∀ i, i ∈ visits ↔ i < 3 := by
  have htypes := computeTypes_rethrowing .library
  obtain ⟨visits, final, most, hdrains, hnodup, hvisits, -, hmaxima, htop, -, hmost⟩ :=
    computeMaxima_of_computeTypes htypes
  refine ⟨htypes, ?_, visits, final, hdrains, hnodup, fun i => ?_⟩
  · have hnone : ∀ insn ∈ rethrowing.code, ¬ UsesLocal insn := by
      simp [rethrowing, UsesLocal]
    rw [hmaxima, htop, hmost fun i insn hi huses =>
      absurd huses (hnone insn (Array.mem_of_getElem? hi))]
    rfl
  · rw [hvisits i]
    have hcases : i = 0 ∨ i = 1 ∨ i = 2 ∨ i = 3 ∨ ∃ beyond, i = beyond + 4 := by
      by_cases h : i < 4
      · omega
      · exact .inr (.inr (.inr (.inr ⟨i - 4, by omega⟩)))
    rcases hcases with rfl | rfl | rfl | rfl | ⟨beyond, rfl⟩
    · exact iff_of_true ⟨_, rfl⟩ (by decide)
    · exact iff_of_true ⟨_, rfl⟩ (by decide)
    · exact iff_of_true ⟨_, rfl⟩ (by decide)
    · exact iff_of_false (Exists.rec fun _ h => by cases h) (by decide)
    · exact iff_of_false (Exists.rec fun _ h => by cases h) (by omega)

end ClassTree.Flow
