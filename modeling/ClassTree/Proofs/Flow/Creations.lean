import ClassTree.Proofs.Flow.Construction
import ClassTree.Proofs.Flow.Heights

namespace ClassTree.Flow

variable {hierarchy : Hierarchy} {program : Program} {f g : SlotFrame} {type : SlotType}
  {creation : Nat}

/-- A method that works on an object whose constructor has not run. -/
structure Constructing (context : Context) : Prop where
  isStatic : context.isStatic = false
  name : context.name = Name.initializer
  owner : context.owner ≠ Name.object

section Merging

variable {existing incoming merged : SlotFrame}

theorem raw_mergeTypes {type₁ type₂ : SlotType} (hr : Raw (mergeTypes hierarchy type₁ type₂)) :
    type₁ = mergeTypes hierarchy type₁ type₂ := by
  rcases mergeTypes_cases hierarchy type₁ type₂ with ⟨-, he⟩ | he | ⟨name, he, -⟩
  · exact he.symm
  · rw [he] at hr
    rcases hr with h | ⟨_, h⟩ <;> cases h
  · exact absurd (he ▸ hr) (not_raw_object name)

theorem mem_of_mem_zipWith {a b : List SlotType} (hr : Raw type)
    (hm : type ∈ List.zipWith (mergeTypes hierarchy) a b) : type ∈ a := by
  obtain ⟨i, hi⟩ := List.mem_iff_getElem?.mp hm
  rw [List.getElem?_zipWith_eq_some] at hi
  obtain ⟨x, y, hx, -, rfl⟩ := hi
  exact List.mem_of_getElem? (raw_mergeTypes hr ▸ hx)

/-- What is not constructed yet after a merge was not so in the frame before. -/
theorem holds_of_merge (hm : mergeFrames hierarchy existing incoming = .ok merged) (hr : Raw type)
    (h : merged.Holds type) : existing.Holds type := by
  obtain ⟨-, -, rfl⟩ := mergeFrames_eq_ok.mp hm
  exact h.imp (mem_of_mem_zipWith hr) (mem_of_mem_zipWith hr)

end Merging

/-- Wherever an object of a frame is created, it is not there before. -/
def TypeFlow.Knows (flow : TypeFlow) (f : SlotFrame) : Prop :=
  ∀ creation, f.Holds (.uninitialized creation) →
    ∃ before, flow.At creation before ∧ ¬ before.Holds (.uninitialized creation)

theorem not_holds_initial (context : Context) :
    ¬ (SlotFrame.initial context).Holds (.uninitialized creation) := by
  have ht : Tolerant fun type : SlotType => type.creation? = none :=
    ⟨fun h _ _ => h, fun _ _ => rfl⟩
  intro h
  cases (wellFormed_of_entryLocals ht fun _ => creation?_entryLocals).allowed ht h

namespace TypeState

variable {s s' : TypeState}

/-- Of all objects in the frames so far it is known where they are created. -/
def Traces (s : TypeState) : Prop :=
  s.Everywhere s.flow.Knows

/-- What is known of some frames stays known, and is known of all others. -/
structure Tracing (frames : List SlotFrame) (s : TypeState) : Prop where
  traces : s.Traces
  knows : ∀ f ∈ frames, s.flow.Knows f

/-- Where a frame goes, no object appears that was not there; so what is known of others stays. -/
theorem Puts.knows {target : Nat} {new : SlotFrame} (hp : Puts target new s s')
    (hold : ∀ before, s.flow.At target before →
      ∀ type, Raw type → new.Holds type → before.Holds type) (hf : s.flow.Knows f) :
    s'.flow.Knows f := by
  intro creation hc
  obtain ⟨before, hat, hnot⟩ := hf creation hc
  by_cases he : target = creation
  · subst he
    exact ⟨new, hp.at_target, fun h => hnot (hold before hat _ (.inr ⟨_, rfl⟩) h)⟩
  · exact ⟨before, hp.at_iff.mpr (by rwa [if_neg he]), hnot⟩

theorem Puts.tracing {frames : List SlotFrame} {target : Nat} {new : SlotFrame}
    (hp : Puts target new s s')
    (hold : ∀ before, s.flow.At target before →
      ∀ type, Raw type → new.Holds type → before.Holds type) (hn : s.flow.Knows new)
    (h : s.Tracing frames) : s'.Tracing frames where
  traces := by
    intro i f hat
    rw [hp.at_iff] at hat
    split at hat
    · exact hat ▸ hp.knows hold hn
    · exact hp.knows hold (h.traces i f hat)
  knows := fun f hm => hp.knows hold (h.knows f hm)

theorem flowInto_tracing {frames : List SlotFrame} {target : Nat} {incoming : SlotFrame}
    (hi : s.flow.Knows incoming) (h : s.Tracing frames)
    (hf : flowInto hierarchy target incoming s = .ok s') : s'.Tracing frames := by
  obtain ⟨hnone, hp⟩ | ⟨existing, merged, hat, hm, ⟨-, rfl⟩ | ⟨-, hp⟩⟩ := flowInto_cases hf
  · refine hp.tracing (fun before hb => ?_) hi h
    cases hnone.symm.trans hb
  · exact h
  · refine hp.tracing (fun before hb type hr => ?_) (fun creation hc => ?_) h
    · exact hb.unique hat ▸ holds_of_merge hm hr
    · exact h.traces target existing hat creation (holds_of_merge hm (.inr ⟨_, rfl⟩) hc)

/-- A handler sees no objects but those in the locals. -/
theorem enterHandler_tracing {frames : List SlotFrame} {before after : SlotFrame}
    {range : HandlerRange} {types : Std.HashMap Nat String} (hb : before ∈ frames)
    (ha : after ∈ frames) (h : s.Tracing frames)
    (hf : enterHandler program hierarchy types before after s range = .ok s') :
    s'.Tracing frames := by
  obtain ⟨last, hflow, hlast⟩ := bind_eq_ok.mp hf
  obtain rfl := pure_eq_ok.mp hlast
  have hlast : last.Tracing frames := by
    refine foldlM_ok (P := Tracing frames) ?_ h hflow
    intro locals hm s s' hs hf
    obtain ⟨f, hmem, rfl⟩ : ∃ f ∈ frames, f.locals = locals := by
      obtain rfl | rfl : locals = before.locals ∨ locals = after.locals := by simpa using hm
      · exact ⟨before, hb, rfl⟩
      · exact ⟨after, ha, rfl⟩
    refine flowInto_tracing (fun creation hc => hs.knows f hmem creation ?_) hs
      (mapError_eq_ok.mp hf)
    rcases hc with hc | hc
    · exact .inl hc
    · cases List.mem_singleton.mp hc
  exact ⟨hlast.traces, hlast.knows⟩

/-- What an instruction leaves was there before, unless it has just been created: then the frame
before the instruction is the one that is asked for. -/
theorem Traces.execute (h : s.Traces) (hw : s.Everywhere (WellFormed program.Creates)) {i : Nat}
    {insn : Instruction Label} (hat : s.flow.At i f)
    (hrun : (execute program.context program.code i insn).run f = .ok ((), g)) :
    s.flow.Knows g := by
  intro creation hc
  by_cases hf : f.Holds (.uninitialized creation)
  · exact h i f hat creation hf
  · obtain hheld | ⟨he, -⟩ := holds_of_execute (hw i f hat) hrun (.inr ⟨creation, rfl⟩) hc
    · exact absurd hheld hf
    · obtain rfl := VerificationType.uninitialized.inj he
      exact ⟨f, hat, hf⟩

/-- On entry, nothing has been created. -/
theorem traces_start (program : Program) : program.start.Traces := by
  intro i f hat creation hc
  obtain ⟨-, rfl⟩ := Program.at_start hat
  exact absurd hc (not_holds_initial program.context)

theorem visit_traces {i : Nat} {types : Std.HashMap Nat String} (h : s.Traces)
    (hw : s.Everywhere (WellFormed program.Creates))
    (hv : visit program hierarchy types s i = .ok s') : s'.Traces := by
  obtain ⟨-, rfl⟩ | ⟨before, insn, after, targets, s₁, hbefore, -, hrun, -, hh, hv⟩ :=
    visit_cases hv
  · exact h
  have hknown : Tracing [before, after] (s.raise after.stack.length after.locals.length) := by
    refine ⟨h, List.forall_mem_cons.mpr ⟨h i before hbefore, List.forall_mem_singleton.mpr ?_⟩⟩
    exact h.execute hw hbefore hrun
  have h₁ := foldlM_ok (P := Tracing [before, after]) (fun range _ _ _ hs hf =>
    enterHandler_tracing List.mem_cons_self (by simp) hs hf) hknown hh
  have h₂ := foldlM_ok (P := Tracing [before, after]) (fun target _ _ _ hs hf =>
    flowInto_tracing (hs.knows after (by simp)) hs (mapError_eq_ok.mp hf)) h₁ hv
  exact h₂.traces

end TypeState

/-- Wherever an object in a computed frame is created, it is not there before. -/
theorem knows_of_computeTypes {flow : TypeFlow} (h : computeTypes hierarchy program = .ok flow)
    {i : Nat} (hf : flow.At i f) : flow.Knows f := by
  have hw := invariant_wellFormed hierarchy program
  obtain ⟨s, rfl, -, hs, -⟩ := run_of_computeTypes h
    (P := fun s => s.Traces ∧ s.Everywhere (WellFormed program.Creates))
    (fun _ => ⟨TypeState.traces_start program, hw.start⟩)
    (fun s i s' s'' hs hpop hv => by
      have hsame : s'.flow = s.flow := congrArg (fun p => p.2.flow) hpop.symm
      have htraces : s'.Traces := by
        unfold TypeState.Traces TypeState.Everywhere
        rw [hsame]
        exact hs.1
      have hwell : s'.Everywhere (WellFormed program.Creates) :=
        fun i f hat => hs.2 i f (hsame ▸ hat)
      exact ⟨TypeState.visit_traces htraces hwell hv, hw.visit hwell hv⟩)
  exact hs i f hf

theorem Program.Height.reachable {i height : Nat} (h : program.Height i height) :
    program.Reachable i := by
  induction h with
  | entry => exact .refl
  | next _ steps mem ih => exact ih.tail (.next steps.at_ steps.goes mem)
  | handler _ catches ih =>
    obtain ⟨insn, hat, hreal⟩ := catches.real
    exact ih.tail (.handler hat hreal catches.mem catches.covers)

/-- Frames are computed only for instructions that control reaches. -/
theorem reachable_of_computeTypes {flow : TypeFlow} (h : computeTypes hierarchy program = .ok flow)
    {i : Nat} (hf : flow.At i f) : program.Reachable i := by
  obtain ⟨s, rfl, hexplores, -⟩ := explores_of_computeTypes h
  exact (hexplores.sound ⟨f, hf, rfl⟩).reachable

/-- A creation after which a computed frame can name an object. -/
structure Program.Creating (program : Program) (flow : TypeFlow) (creation : Nat) : Prop where
  reachable : program.Reachable creation
  element : ∃ name, program.code[creation]? = some (.type .new name)
  before : ∃ before, flow.At creation before ∧ ¬ before.Holds (.uninitialized creation)

/-- Objects in computed frames are named after creations that control reaches without them. -/
theorem creating_of_computeTypes {flow : TypeFlow} (h : computeTypes hierarchy program = .ok flow)
    {i : Nat} (hf : flow.At i f) (hc : f.Holds (.uninitialized creation)) :
    program.Creating flow creation := by
  obtain ⟨before, hat, hnot⟩ := knows_of_computeTypes h hf creation hc
  have hwell := (invariant_wellFormed hierarchy program).computeTypes h hf
  exact ⟨reachable_of_computeTypes h hat,
    hwell.allowed program.lenient_creates.tolerant hc creation rfl, before, hat, hnot⟩

/-- The receiver is not constructed on entry only where a constructor is to do so. -/
theorem constructing_of_entryLocals {context : Context}
    (h : (.uninitializedThis : SlotType) ∈ context.entryLocals) : Constructing context := by
  rcases List.mem_append.mp h with h | h
  · split at h
    · cases h
    · rename_i hstatic
      have hreceiver := List.mem_singleton.mp h
      unfold Context.receiver at hreceiver
      split at hreceiver
      · rename_i hboth
        exact ⟨by simpa using hstatic, hboth.1, hboth.2⟩
      · cases hreceiver
  · obtain ⟨parameter, -, he⟩ := List.mem_map.mp h
    exact absurd (.inl he) (not_raw_ofFieldType parameter)

theorem tolerant_constructing (context : Context) : Tolerant fun type : SlotType =>
    type = .uninitializedThis → Constructing context :=
  ⟨fun _ _ hne he => absurd he hne, fun _ _ => nofun⟩

/-- No instruction brings a receiver that is not constructed. -/
theorem invariant_constructing (hierarchy : Hierarchy) (program : Program) :
    Invariant hierarchy program
      (WellFormed fun type => type = .uninitializedThis → Constructing program.context) where
  initial := wellFormed_of_entryLocals (tolerant_constructing _) fun type hm he =>
    constructing_of_entryLocals (he ▸ hm)
  execute := fun hat hf hrun =>
    (keeps_execute (tolerant_constructing _) (fun hb he => by
      obtain ⟨hcreated, -⟩ := hb.raw (.inl he)
      cases he.symm.trans hcreated) _ () _ hf hrun).1
  enter := fun handler hf => ⟨hf.locals, hf.localTypes, .narrow nofun nofun nofun .nil⟩
  merge := fun hf hg hm =>
    hf.merge (fun h _ he => h ((raw_mergeTypes (.inl he)).trans he)) hg hm

/-- Only constructors of classes with a superclass work on a receiver that is not constructed. -/
theorem constructing_of_computeTypes {flow : TypeFlow}
    (h : computeTypes hierarchy program = .ok flow) {i : Nat} (hf : flow.At i f)
    (ht : f.Holds .uninitializedThis) : Constructing program.context :=
  ((invariant_constructing hierarchy program).computeTypes h hf).allowed
    (tolerant_constructing _) ht rfl

end ClassTree.Flow
