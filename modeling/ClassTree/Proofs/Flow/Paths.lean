import ClassTree.Proofs.Flow.Depths

namespace ClassTree.Flow

/-- Where control can go from an index with a depth. A subroutine call goes to the subroutine, with
the return address on the stack, and past it to the next index, with the stack as it was. -/
inductive Program.Leads (program : Program) : Nat × Int → Nat × Int → Prop
  | next {i j : Nat} {depth δ : Int} {insn : Instruction Label} {targets : List Nat}
      (at_ : program.code[i]? = some insn) (noCall : isCall insn = false)
      (delta : stackDelta insn = .ok δ)
      (goes : successors program.code program.positions i insn = .ok targets)
      (mem : j ∈ targets) : Program.Leads program (i, depth) (j, depth + δ)
  | caught {i : Nat} {depth : Int} {range : HandlerRange} (catches : program.Catches i range) :
      Program.Leads program (i, depth) (range.handler, 1)
  | enter {i j : Nat} {depth : Int} {op : Opcode} {target : Label}
      (at_ : program.code[i]? = some (.jump op target)) (call : op = .jsr ∨ op = .jsrWide)
      (placed : program.positions[target]? = some j) :
      Program.Leads program (i, depth) (j, depth + 1)
  | pass {i : Nat} {depth : Int} {op : Opcode} {target : Label}
      (at_ : program.code[i]? = some (.jump op target)) (call : op = .jsr ∨ op = .jsrWide)
      (inside : i + 1 < program.code.size) : Program.Leads program (i, depth) (i + 1, depth)

/-- Some path gets from the entry to an index with a depth. -/
def Program.Arrives (program : Program) (i : Nat) (depth : Int) : Prop :=
  Relation.ReflTransGen program.Leads (0, 0) (i, depth)

/-- A depth that the stack gets to: when the method is entered, when an exception is caught, or
after an instruction, which for a subroutine call is on entry to the subroutine. -/
inductive Program.Peak (program : Program) : Int → Prop
  | entry : Program.Peak program 0
  | caught {i : Nat} {depth : Int} {range : HandlerRange} (here : program.Arrives i depth)
      (catches : program.Catches i range) : Program.Peak program 1
  | after {i : Nat} {depth δ : Int} {insn : Instruction Label} (here : program.Arrives i depth)
      (at_ : program.code[i]? = some insn) (delta : stackDelta insn = .ok δ) :
      Program.Peak program (depth + δ)

/-- Locals that an instruction uses, two of them for a long or a double. -/
def slotsUsed : Instruction Label → List Nat
  | .var op slot =>
    if op = .lload ∨ op = .dload ∨ op = .lstore ∨ op = .dstore then
      [slot.toNat, slot.toNat + 1]
    else [slot.toNat]
  | .increment slot _ => [slot.toNat]
  | _ => []

theorem localsUsed_le_iff {insn : Instruction Label} {bound : Nat} :
    localsUsed insn ≤ bound ↔ ∀ slot ∈ slotsUsed insn, slot < bound := by
  cases insn with
  | var op slot =>
    simp only [localsUsed, slotsUsed]
    split
    · simp
      omega
    · simp [Nat.succ_le_iff]
  | increment slot amount => simp [localsUsed, slotsUsed, Nat.succ_le_iff]
  | _ => simp [localsUsed, slotsUsed]

/-- The locals of a program are just enough for its entry and all that its instructions use. -/
theorem isLeast_mostLocals (program : Program) :
    IsLeast {locals | (SlotFrame.initial program.context).locals.length ≤ locals ∧
      ∀ insn ∈ program.code, ∀ slot ∈ slotsUsed insn, slot < locals} program.mostLocals := by
  simp only [← localsUsed_le_iff, ← Program.mostLocals_le_iff]
  exact isLeast_Ici

theorem stackDelta_call {op : Opcode} (call : op = .jsr ∨ op = .jsrWide) (target : Label) :
    stackDelta (.jump op target) = .ok 1 := by
  rcases call with rfl | rfl <;> rfl

namespace DepthState

/-- What holds between visits, after some of them: some path gets with every depth to where it is
recorded. -/
structure Walks (program : Program) (done : List Nat) (s : DepthState) : Prop
    extends Marks program done s where
  sound : ∀ i depth, s.Recorded i depth → program.Arrives i depth
  peak : program.Peak s.maxStack

/-- What can come of a state: what is recorded stays, and the maximum goes up. -/
structure Grows (program : Program) (done : List Nat) (s s' : DepthState) : Prop where
  walks : Walks program done s → Walks program done s'
  kept : ∀ {i depth}, s.Recorded i depth → s'.Recorded i depth
  stack : s.maxStack ≤ s'.maxStack

/-- The instruction at an index has been followed: it fits between an empty stack and the highest
one, and the depth is recorded wherever control goes from there. -/
structure Followed (program : Program) (s : DepthState) (i : Nat) (depth : Int) : Prop where
  fits : ∃ insn δ, program.code[i]? = some insn ∧ stackDelta insn = .ok δ ∧
    0 ≤ depth + δ ∧ depth + δ ≤ s.maxStack
  goes : ∀ j depth', program.Leads (i, depth) (j, depth') → s.Recorded j depth'
  caught : ∀ range, program.Catches i range → 1 ≤ s.maxStack

variable {program : Program} {done : List Nat} {s s' s'' : DepthState} {i : Nat} {depth δ : Int}

theorem Recorded.unique {depth' : Int} (h : s.Recorded i depth) (h' : s.Recorded i depth') :
    depth = depth' :=
  Option.some.inj (Option.some.inj (h.symm.trans h'))

theorem Grows.refl (s : DepthState) : Grows program done s s :=
  ⟨id, id, Int.le_refl _⟩

theorem Grows.trans (h : Grows program done s s') (h' : Grows program done s' s'') :
    Grows program done s s'' :=
  ⟨h'.walks ∘ h.walks, h'.kept ∘ h.kept, Int.le_trans h.stack h'.stack⟩

theorem Followed.mono (h : Followed program s i depth)
    (kept : ∀ {i depth}, s.Recorded i depth → s'.Recorded i depth)
    (stack : s.maxStack ≤ s'.maxStack) : Followed program s' i depth where
  fits := by
    obtain ⟨insn, δ, hat, hdelta, hpos, htop⟩ := h.fits
    exact ⟨insn, δ, hat, hdelta, hpos, Int.le_trans htop stack⟩
  goes := fun j depth' hleads => kept (h.goes j depth' hleads)
  caught := fun range hc => Int.le_trans (h.caught range hc) stack

theorem grows_raise (hpeak : program.Peak depth) : Grows program done s (s.raise depth) where
  walks := by
    intro h
    refine ⟨⟨h.size, h.queued, h.honest, h.once, h.placed⟩, h.sound, ?_⟩
    rcases Int.le_total s.maxStack depth with hle | hle
    · simpa [raise, Int.max_eq_right hle] using hpeak
    · simpa [raise, Int.max_eq_left hle] using h.peak
  kept := id
  stack := Int.le_max_left _ _

/-- What flows somewhere was recorded there before, or nothing was. -/
theorem flowInto_cases {target : Nat} (h : flowInto target depth s = .ok s') :
    (s' = s ∧ s.Recorded target depth) ∨
      s.depths[target]? = some none ∧
        s' = ⟨s.depths.setIfInBounds target (some depth), s.maxStack, s.work.push target⟩ := by
  obtain ⟨depths, maxStack, work⟩ := s
  simp only [flowInto] at h
  split at h
  · cases h
  · rename_i hnone
    cases h
    exact .inr ⟨hnone, rfl⟩
  · rename_i existing hsome
    split at h
    · rename_i hsame
      cases h
      exact .inl ⟨rfl, hsame ▸ hsome⟩
    · cases h

/-- What arrives where some path does is recorded. -/
theorem arrive_grows {target : Nat} (h : arrive program s target depth = .ok s')
    (hw : Walks program done s) (here : program.Arrives target depth) :
    Grows program done s s' ∧ s'.Recorded target depth := by
  rcases flowInto_cases (mapError_eq_ok.mp h) with ⟨rfl, hr⟩ | ⟨hnone, rfl⟩
  · exact ⟨.refl s', hr⟩
  refine ⟨⟨fun _ => ⟨hw.record depth hnone, ?_, hw.peak⟩,
    fun hr => (recorded_set hnone).mpr (.inl hr), Int.le_refl _⟩,
    (recorded_set hnone).mpr (.inr ⟨rfl, rfl⟩)⟩
  intro j depth' hr
  rcases (recorded_set hnone).mp hr with hr | ⟨rfl, rfl⟩
  · exact hw.sound j depth' hr
  · exact here

theorem isCall_iff {insn : Instruction Label} : isCall insn = true ↔
    ∃ op target, insn = .jump op target ∧ (op = .jsr ∨ op = .jsrWide) := by
  cases insn <;> simp [isCall]

theorem find_eq_ok {positions : Positions} {target : Label} {j : Nat} :
    positions.find target = .ok j ↔ positions[target]? = some j := by
  unfold Positions.find
  split <;> simp_all

/-- The edges that a visit follows are those that control can take, other than to handlers. -/
theorem leads_iff {insn : Instruction Label} {followed : List (Nat × Int)}
    (hat : program.code[i]? = some insn) (hdelta : stackDelta insn = .ok δ)
    (h : edges program i insn depth (depth + δ) = .ok followed) {j : Nat} {depth' : Int} :
    program.Leads (i, depth) (j, depth') ↔ (j, depth') ∈ followed ∨
      ∃ range, program.Catches i range ∧ range.handler = j ∧ depth' = 1 := by
  have hsame {other : Instruction Label} (h : program.code[i]? = some other) : other = insn :=
    Option.some.inj (h.symm.trans hat)
  unfold edges at h
  by_cases hcall : isCall insn = true
  · obtain ⟨op, target, rfl, hop⟩ := isCall_iff.mp hcall
    rw [if_pos hcall] at h
    obtain ⟨targets, ht, hfollowed⟩ := bind_eq_ok.mp h
    obtain ⟨entry, hentry, rfl⟩ : ∃ entry, program.positions.find target = .ok entry ∧
        targets = [entry] := by
      obtain ⟨entry, rest, hentry, hrest, rfl⟩ := List.forall₂_cons_left_iff.mp (mapM_eq_ok.mp ht)
      obtain rfl := List.forall₂_nil_left_iff.mp hrest
      exact ⟨entry, hentry, rfl⟩
    obtain rfl := Except.ok.inj ((stackDelta_call hop target).symm.trans hdelta)
    rw [find_eq_ok] at hentry
    obtain rfl := pure_eq_ok.mp hfollowed
    constructor
    · intro hleads
      cases hleads with
      | next at_ noCall => simp [hsame at_, hcall] at noCall
      | caught catches => exact .inr ⟨_, catches, rfl, rfl⟩
      | enter at_ call placed =>
        cases hsame at_
        obtain rfl := Option.some.inj (placed.symm.trans hentry)
        exact .inl (by simp)
      | pass at_ call inside => exact .inl (by simp [inside])
    · rintro (hm | ⟨range, hc, rfl, rfl⟩)
      · rcases List.mem_append.mp hm with hm | hm
        · obtain ⟨rfl, rfl⟩ : j = entry ∧ depth' = depth + 1 := by simpa using hm
          exact .enter hat hop hentry
        · split at hm
          · rename_i inside
            obtain ⟨rfl, rfl⟩ : j = i + 1 ∧ depth' = depth := by simpa using hm
            exact .pass hat hop inside
          · cases hm
      · exact .caught hc
  · rw [if_neg hcall] at h
    obtain ⟨targets, goes, hfollowed⟩ := bind_eq_ok.mp h
    obtain rfl := pure_eq_ok.mp hfollowed
    constructor
    · intro hleads
      cases hleads with
      | next at_ noCall delta goes' mem =>
        obtain rfl := hsame at_
        obtain rfl := Except.ok.inj (goes'.symm.trans goes)
        obtain rfl := Except.ok.inj (delta.symm.trans hdelta)
        exact .inl (List.mem_map_of_mem mem)
      | caught catches => exact .inr ⟨_, catches, rfl, rfl⟩
      | enter at_ call => exact absurd (isCall_iff.mpr ⟨_, _, (hsame at_).symm, call⟩) hcall
      | pass at_ call => exact absurd (isCall_iff.mpr ⟨_, _, (hsame at_).symm, call⟩) hcall
    · rintro (hm | ⟨range, hc, rfl, rfl⟩)
      · obtain ⟨target, mem, he⟩ := List.mem_map.mp hm
        cases he
        exact .next hat (Bool.eq_false_of_not_eq_true hcall) hdelta goes mem
      · exact .caught hc

/-- Visiting an instruction follows it. -/
theorem visit_grows (hw : Walks program done s) (hr : s.Recorded i depth)
    (h : visit program s i = .ok s') : Grows program done s s' ∧ Followed program s' i depth := by
  have here := hw.sound i depth hr
  have hget : s.depths.getD i none = some depth := by
    rw [Array.getD_eq_getD_getElem?, hr, Option.getD_some]
  obtain ⟨hlt, -⟩ := Array.getElem?_eq_some_iff.mp hr
  rw [hw.size] at hlt
  have hat : program.code[i]? = some program.code[i] := Array.getElem?_eq_getElem hlt
  unfold visit at h
  rw [hget, hat] at h
  obtain ⟨δ, hdelta, h⟩ := bind_eq_ok.mp h
  rw [mapError_eq_ok] at hdelta
  dsimp only at h
  split at h
  · cases h
  rename_i hpos
  obtain ⟨s₁, hcaught, h⟩ := bind_eq_ok.mp h
  obtain ⟨followed, hedges, h⟩ := bind_eq_ok.mp h
  rw [mapError_eq_ok] at hedges
  have hleads := @leads_iff program i depth δ _ followed hat hdelta hedges
  have hraise : Grows program done s (s.raise (depth + δ)) := grows_raise (.after here hat hdelta)
  obtain ⟨hg₁, hq₁⟩ := foldlM_brings (P := Walks program done) (R := Grows program done)
    (Q := fun (range : HandlerRange) s => s.Recorded range.handler 1 ∧ 1 ≤ s.maxStack)
    .refl (fun _ _ _ => .trans) (fun _ _ hg => hg.walks)
    (fun _ _ _ hg h => ⟨hg.kept h.1, Int.le_trans h.2 hg.stack⟩)
    (by
      intro range hm s s' hw h
      obtain ⟨hreal, hm, hcovers⟩ := mem_covering.mp hm
      have hcatches : program.Catches i range := ⟨⟨_, hat, hreal⟩, hm, hcovers⟩
      obtain ⟨middle, ha, he⟩ := bind_eq_ok.mp h
      obtain rfl := pure_eq_ok.mp he
      obtain ⟨hg, hk⟩ := arrive_grows ha hw (here.tail (.caught hcatches))
      exact ⟨hg.trans (grows_raise (.caught here hcatches)), hk, Int.le_max_right _ _⟩)
    (hraise.walks hw) hcaught
  obtain ⟨hg₂, hq₂⟩ := foldlM_brings (P := Walks program done) (R := Grows program done)
    (Q := fun (target : Nat × Int) s => s.Recorded target.1 target.2)
    .refl (fun _ _ _ => .trans) (fun _ _ hg => hg.walks) (fun _ _ _ hg => hg.kept)
    (fun target hm s s' hw h => arrive_grows h hw (here.tail (hleads.mpr (.inl hm))))
    (hg₁.walks (hraise.walks hw)) h
  have hone : ∀ range, program.Catches i range → s'.Recorded range.handler 1 ∧ 1 ≤ s'.maxStack := by
    intro range hcatches
    obtain ⟨other, hat', hreal⟩ := hcatches.real
    obtain rfl := Option.some.inj (hat'.symm.trans hat)
    obtain ⟨hk, htop⟩ := hq₁ range (mem_covering.mpr ⟨hreal, hcatches.mem, hcatches.covers⟩)
    exact ⟨hg₂.kept hk, Int.le_trans htop hg₂.stack⟩
  refine ⟨hraise.trans (hg₁.trans hg₂), ⟨_, δ, hat, hdelta, Int.not_lt.mp hpos, ?_⟩, ?_,
    fun range hc => (hone range hc).2⟩
  · have htop : depth + δ ≤ (s.raise (depth + δ)).maxStack := Int.le_max_right _ _
    exact Int.le_trans htop (Int.le_trans hg₁.stack hg₂.stack)
  · intro j depth' hedge
    rcases hleads.mp hedge with hm | ⟨range, hc, rfl, rfl⟩
    · exact hq₂ _ hm
    · exact (hone range hc).1

/-- Whatever waits is visited, once, and unless a visit fails all of it is followed. -/
theorem exists_halts (hw : Walks program done s) {bound : Nat}
    (hb : program.code.size ≤ done.length + bound)
    (followed : ∀ {i depth}, s.Recorded i depth →
      i ∈ s.work.pending ∨ Followed program s i depth) :
    ∃ visits outcome, Halts pop (visit program) s visits outcome ∧ visits.length ≤ bound ∧
      (visits.reverse ++ done).Nodup ∧
      ∀ final, outcome = .ok final → Walks program (visits.reverse ++ done) final ∧
        (∀ {i depth}, s.Recorded i depth → final.Recorded i depth) ∧
        ∀ {i depth}, final.Recorded i depth → Followed program final i depth := by
  induction bound generalizing s done with
  | zero =>
    rcases hw.pop_cases with ⟨hnone, hp⟩ | ⟨i, work, -, hc, -⟩
    · refine ⟨[], .ok s, .done hp, Nat.le_refl _, by simpa [hnone] using hw.once, ?_⟩
      rintro final ⟨⟩
      exact ⟨hw, id, fun hr => (followed hr).resolve_left (by simp [hnone])⟩
    · have hlength := hw.length_le
      simp [hc] at hlength
      omega
  | succ bound ih =>
    rcases hw.pop_cases with ⟨hnone, hp⟩ | ⟨i, work, hp, hc, hmarks⟩
    · refine ⟨[], .ok s, .done hp, Nat.zero_le _, by simpa [hnone] using hw.once, ?_⟩
      rintro final ⟨⟩
      exact ⟨hw, id, fun hr => (followed hr).resolve_left (by simp [hnone])⟩
    obtain ⟨depth, hr⟩ := (hw.placed i).mp (by simp [hc])
    have hpopped : Walks program (i :: done) ⟨s.depths, s.maxStack, work⟩ :=
      ⟨hmarks, hw.sound, hw.peak⟩
    cases hv : visit program ⟨s.depths, s.maxStack, work⟩ i with
    | error e =>
      have honce := (List.nodup_append.mp hmarks.once).2.1
      exact ⟨[i], .error e, .failed hp hv, by simp, honce, nofun⟩
    | ok s' =>
      obtain ⟨hg, hfollowed⟩ := visit_grows hpopped hr hv
      obtain ⟨visits, outcome, hhalts, hlength, honce, hall⟩ := ih (hg.walks hpopped)
        (by simp only [List.length_cons]; omega) (by
          intro j depth' hj
          rcases List.mem_append.mp (((hg.walks hpopped).placed j).mpr ⟨_, hj⟩) with hm | hm
          · exact .inl hm
          rcases List.mem_cons.mp hm with rfl | hm
          · obtain rfl := (hg.kept hr).unique hj
            exact .inr hfollowed
          · -- what was visited before is followed still
            obtain ⟨depth'', hold⟩ := (hw.placed j).mp (List.mem_append_right _ hm)
            obtain rfl := (hg.kept hold).unique hj
            have hvisited : j ∉ s.work.pending := fun hwaits =>
              (List.nodup_append.mp hw.once).2.2 j hwaits j hm rfl
            exact .inr (((followed hold).resolve_left hvisited).mono hg.kept hg.stack))
      refine ⟨i :: visits, outcome, .visit hp hv hhalts, Nat.succ_le_succ hlength, ?_, ?_⟩
      · rwa [List.reverse_cons, List.append_assoc]
      · intro final hfinal
        rw [List.reverse_cons, List.append_assoc]
        obtain ⟨hlast, hkept, hdone⟩ := hall final hfinal
        exact ⟨hlast, fun hr => hkept (hg.kept hr), hdone⟩

theorem walks_start (h : 0 < program.code.size) : Walks program [] (start program) := by
  refine ⟨marks_start h, ?_, .entry⟩
  intro i depth hr
  obtain ⟨rfl, rfl⟩ := (recorded_start h).mp hr
  exact .refl

/-- If all that is recorded has been followed, every path arrives with a depth that is recorded. -/
theorem Recorded.of_arrives (entry : s.Recorded 0 0)
    (followed : ∀ {i depth}, s.Recorded i depth → Followed program s i depth)
    (h : program.Arrives i depth) : s.Recorded i depth := by
  refine Relation.ReflTransGen.rec (motive := fun place _ => s.Recorded place.1 place.2) ?_ ?_ h
  · exact entry
  · intro place place' _ hleads hr
    exact (followed hr).goes _ _ hleads

end DepthState

/-- Computing how much space a method needs visits every instruction at most once, until none waits
or one does not fit: it never runs out of visits. -/
theorem computeMaxima_halts (program : Program) (h : 0 < program.code.size) :
    ∃ visits outcome, Halts DepthState.pop (DepthState.visit program) (DepthState.start program)
        visits outcome ∧ visits.Nodup ∧
      computeMaxima program =
        outcome.map (fun final => (final.maxStack.toNat, program.mostLocals)) ∧
      ∀ final, outcome = .ok final → (∀ i depth, program.Arrives i depth ↔ final.Recorded i depth) ∧
        program.Peak final.maxStack ∧
        ∀ {i depth}, final.Recorded i depth → DepthState.Followed program final i depth := by
  have hstart := DepthState.walks_start h
  obtain ⟨visits, outcome, hhalts, hlength, honce, hfinal⟩ :=
    DepthState.exists_halts hstart (Nat.le_of_eq (Nat.zero_add _).symm)
      fun {i _} hr => .inl (by simpa using (hstart.placed i).mpr ⟨_, hr⟩)
  rw [List.append_nil, List.nodup_reverse] at honce
  refine ⟨visits, outcome, hhalts, honce, ?_, ?_⟩
  · unfold computeMaxima
    rw [if_neg (Nat.ne_of_gt h)]
    change drain _ _ _ _ (DepthState.start program) >>= _ = _
    rw [hhalts.drain_eq hlength]
    cases outcome <;> rfl
  · intro final hok
    obtain ⟨hwalks, hkept, hfollowed⟩ := hfinal final hok
    have hentry := hkept ((DepthState.recorded_start h).mpr ⟨rfl, rfl⟩)
    exact ⟨fun i depth => ⟨.of_arrives hentry hfollowed, hwalks.sound i depth⟩, hwalks.peak,
      hfollowed⟩

section Bounds

variable {program : Program} {s : DepthState} {i : Nat} {depth : Int}

theorem Program.Leads.lt_size {place : Nat × Int} (h : program.Leads (i, depth) place) :
    i < program.code.size := by
  cases h with
  | next at_ => exact (Array.getElem?_eq_some_iff.mp at_).1
  | caught catches =>
    obtain ⟨insn, at_, -⟩ := catches.real
    exact (Array.getElem?_eq_some_iff.mp at_).1
  | enter at_ => exact (Array.getElem?_eq_some_iff.mp at_).1
  | pass at_ => exact (Array.getElem?_eq_some_iff.mp at_).1

/-- Without code, control stays where it enters. -/
theorem Program.Arrives.of_empty (hempty : program.code.size = 0) (h : program.Arrives i depth) :
    i = 0 ∧ depth = 0 := by
  rcases Relation.ReflTransGen.cases_head h with he | ⟨place, hleads, -⟩
  · cases he
    exact ⟨rfl, rfl⟩
  · have := hleads.lt_size
    omega

variable (followed : ∀ {i depth}, program.Arrives i depth → DepthState.Followed program s i depth)
include followed

/-- No path arrives with a depth below zero or above the highest one. -/
theorem Program.Arrives.bounded (h : program.Arrives i depth) :
    0 ≤ depth ∧ depth ≤ s.maxStack := by
  have htop : 0 ≤ s.maxStack := by
    obtain ⟨insn, δ, -, -, hpos, hle⟩ := (followed .refl).fits
    exact Int.le_trans hpos hle
  refine Relation.ReflTransGen.rec
    (motive := fun place _ => 0 ≤ place.2 ∧ place.2 ≤ s.maxStack) ?_ ?_ h
  · exact ⟨Int.le_refl 0, htop⟩
  · rintro ⟨k, before⟩ place hpath hleads ih
    obtain ⟨insn, δ, hat, hdelta, hpos, hle⟩ := (followed hpath).fits
    cases hleads with
    | next at_ noCall delta =>
      obtain rfl := Option.some.inj (hat.symm.trans at_)
      obtain rfl := Except.ok.inj (hdelta.symm.trans delta)
      exact ⟨hpos, hle⟩
    | caught catches => exact ⟨Int.zero_le_ofNat 1, (followed hpath).caught _ catches⟩
    | enter at_ call =>
      obtain rfl := Option.some.inj (hat.symm.trans at_)
      obtain rfl := Except.ok.inj ((stackDelta_call call _).symm.trans hdelta)
      exact ⟨hpos, hle⟩
    | pass => exact ih

theorem Program.Peak.le_top (h : program.Peak depth) : depth ≤ s.maxStack := by
  cases h with
  | entry => exact (Program.Arrives.bounded followed .refl).2
  | caught here catches => exact (followed here).caught _ catches
  | after here at_ delta =>
    obtain ⟨insn, δ, hat, hdelta, -, hle⟩ := (followed here).fits
    obtain rfl := Option.some.inj (hat.symm.trans at_)
    obtain rfl := Except.ok.inj (hdelta.symm.trans delta)
    exact hle

end Bounds

variable {program : Program} {stack locals : Nat}

/-- Where depths can be computed, all paths to an index arrive with the same one. No depth before or
after an instruction is below zero or above the highest one, which some path gets to, and the locals
are no more than the entry and the instructions use. -/
theorem computeMaxima_paths (h : computeMaxima program = .ok (stack, locals)) :
    (∀ {i depth depth'}, program.Arrives i depth → program.Arrives i depth' → depth = depth') ∧
    (∀ {i depth}, program.Arrives i depth → 0 ≤ depth ∧ depth ≤ stack ∧
      ∀ insn, program.code[i]? = some insn →
        ∃ δ, stackDelta insn = .ok δ ∧ 0 ≤ depth + δ ∧ depth + δ ≤ stack) ∧
    IsGreatest {depth | program.Peak depth} stack ∧
    IsLeast {locals | (SlotFrame.initial program.context).locals.length ≤ locals ∧
      ∀ insn ∈ program.code, ∀ slot ∈ slotsUsed insn, slot < locals} locals := by
  rcases Nat.eq_zero_or_pos program.code.size with hempty | hpos
  · have hnone (i : Nat) : program.code[i]? = none := by simp [hempty]
    obtain ⟨rfl, rfl⟩ : 0 = stack ∧ program.mostLocals = locals := by
      unfold computeMaxima at h
      rw [if_pos hempty, pure_eq_ok] at h
      exact Prod.mk.inj h
    refine ⟨?_, ?_, ⟨.entry, ?_⟩, isLeast_mostLocals program⟩
    · intro i depth depth' h h'
      rw [(h.of_empty hempty).2, (h'.of_empty hempty).2]
    · intro i depth h
      obtain ⟨rfl, rfl⟩ := h.of_empty hempty
      exact ⟨Int.le_refl 0, Int.le_refl 0, fun insn hat => by simp [hnone] at hat⟩
    · intro depth hpeak
      cases hpeak with
      | entry => exact Int.le_refl 0
      | caught here catches =>
        obtain ⟨insn, hat, -⟩ := catches.real
        simp [hnone] at hat
      | after here at_ => simp [hnone] at at_
  · obtain ⟨visits, outcome, -, -, hmaxima, hfinal⟩ := computeMaxima_halts program hpos
    cases outcome with
    | error e => simp [hmaxima, Except.map] at h
    | ok final =>
      obtain ⟨harrives, hpeak, hfollowed⟩ := hfinal final rfl
      have followed {i depth} (h : program.Arrives i depth) :=
        hfollowed ((harrives i depth).mp h)
      have htop := (Program.Arrives.bounded followed .refl).2
      obtain ⟨rfl, rfl⟩ : final.maxStack.toNat = stack ∧ program.mostLocals = locals := by
        rw [hmaxima] at h
        exact Prod.mk.inj (Except.ok.inj h)
      rw [Int.toNat_of_nonneg htop]
      refine ⟨?_, ?_, ⟨hpeak, fun _ => Program.Peak.le_top followed⟩, isLeast_mostLocals program⟩
      · intro i depth depth' h h'
        exact ((harrives i depth).mp h).unique ((harrives i depth').mp h')
      · intro i depth h
        obtain ⟨insn, δ, hat, hdelta, hfits⟩ := (followed h).fits
        obtain ⟨hlow, hhigh⟩ := h.bounded followed
        refine ⟨hlow, hhigh, fun other hother => ?_⟩
        obtain rfl := Option.some.inj (hat.symm.trans hother)
        exact ⟨δ, hdelta, hfits⟩

/-- A method that calls a subroutine twice in a row. Storing the return address can be caught. -/
def callingAgain : Program where
  context := ⟨"Calling", "run", ⟨[], none⟩, true⟩
  code := #[.jump .jsr ⟨0⟩, .jump .jsr ⟨0⟩, .plain .returnVoid, .label ⟨0⟩, .var .astore 1,
    .var .ret 1, .plain .athrow]
  positions := (∅ : Positions).insert ⟨0⟩ 3
  handlers := [⟨4, 5, 6, none⟩]

theorem find_callingAgain : callingAgain.positions.find ⟨0⟩ = .ok 3 := by
  rw [Positions.find, show callingAgain.positions[(⟨0⟩ : Label)]? = some 3 from
    Std.HashMap.getElem?_insert_self]

/-- A call goes to the subroutine and to the next instruction. -/
theorem edges_callingAgain {i : Nat} (hi : i + 1 < 7) (before after : Int) :
    DepthState.edges callingAgain i (.jump .jsr ⟨0⟩) before after =
      .ok [(3, after), (i + 1, before)] := by
  have htargets : (Instruction.jump .jsr (⟨0⟩ : Label)).jumpTargets.mapM
      callingAgain.positions.find = .ok [3] := by
    rw [Instruction.jumpTargets, List.mapM_cons, find_callingAgain]
    rfl
  rw [DepthState.edges, if_pos (show isCall (.jump .jsr ⟨0⟩) = true from rfl), htargets]
  change Except.ok ([(3, after)] ++ if i + 1 < 7 then [(i + 1, before)] else []) = _
  rw [if_pos hi]
  rfl

/-- The calls are visited before the subroutine is. -/
theorem computeMaxima_callingAgain : computeMaxima callingAgain = .ok (1, 2) := by
  have hfirst : DepthState.visit callingAgain
      ⟨#[some 0, none, none, none, none, none, none], 0, .empty 7⟩ 0 =
        .ok ⟨#[some 0, some 0, none, some 1, none, none, none], 1,
          ((Worklist.empty 7).push 3).push 1⟩ := by
    change ((DepthState.edges callingAgain 0 (.jump .jsr ⟨0⟩) 0 1).mapError _ >>= _) = _
    rw [edges_callingAgain (by decide)]
    rfl
  have hsecond : DepthState.visit callingAgain
      ⟨#[some 0, some 0, none, some 1, none, none, none], 1, (Worklist.empty 7).push 3⟩ 1 =
        .ok ⟨#[some 0, some 0, some 0, some 1, none, none, none], 1,
          ((Worklist.empty 7).push 3).push 2⟩ := by
    change ((DepthState.edges callingAgain 1 (.jump .jsr ⟨0⟩) 0 1).mapError _ >>= _) = _
    rw [edges_callingAgain (by decide)]
    rfl
  have hdrains : Drains DepthState.pop (DepthState.visit callingAgain)
      (DepthState.start callingAgain) [0, 1, 2, 3, 4, 5, 6]
      ⟨#[some 0, some 0, some 0, some 1, some 1, some 0, some 1], 1, .empty 7⟩ :=
    .visit rfl hfirst (.visit rfl hsecond (.visit rfl rfl (.visit rfl rfl (.visit rfl rfl
      (.visit rfl rfl (.visit rfl rfl (.done rfl)))))))
  exact bind_eq_ok.mpr ⟨_, hdrains.drain_eq (Nat.le_refl 7), rfl⟩

/-- The subroutine starts with just the return address, whichever call it is reached from. -/
theorem callingAgain_maxima : computeMaxima callingAgain = .ok (1, 2) ∧
    (∀ {depth}, callingAgain.Arrives 3 depth → depth = 1) ∧
    IsGreatest {depth | callingAgain.Peak depth} 1 := by
  obtain ⟨hsingle, -, hgreatest, -⟩ := computeMaxima_paths computeMaxima_callingAgain
  have hat : callingAgain.code[0]? = some (.jump .jsr ⟨0⟩) := rfl
  have hcalled : callingAgain.Arrives 3 1 :=
    .single (.enter hat (.inl rfl) Std.HashMap.getElem?_insert_self)
  exact ⟨computeMaxima_callingAgain, fun h => hsingle h hcalled, hgreatest⟩

end ClassTree.Flow
