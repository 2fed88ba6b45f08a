import ClassTree.Code.Prepared
import ClassTree.Lookup
import ClassTree.Proofs.Descriptor.Reading
import ClassTree.Proofs.Flow.Straight
import Mathlib.Data.Finset.Card
import Mathlib.Data.Finset.Range
import Mathlib.Tactic.Choose

namespace ClassTree.Flow

open Transition

variable {P Q : SlotType → Prop} {program : Program} {i j : Nat} {f g : SlotFrame}
  {insn : Instruction Label} {type receiver : SlotType}

def Raw (type : SlotType) : Prop :=
  type = .uninitializedThis ∨ ∃ creation, type = .uninitialized creation

def SlotFrame.Holds (f : SlotFrame) (type : SlotType) : Prop :=
  type ∈ f.locals ∨ type ∈ f.stack

/-- An instruction calls the constructor of an object, when it is executed on a frame. -/
inductive Constructs (f : SlotFrame) (receiver : SlotType) : Instruction Label → Prop
  | call {member : Member} {onInterface : Bool} {type : MethodType} {called popped : SlotFrame}
      (name : member.name = Name.initializer) (parsed : parseMethod member.descriptor = .ok type)
      (arguments : (popArguments type).run f = .ok ((), called))
      (receives : popReference.run called = .ok (receiver, popped)) :
      Constructs f receiver (.invoke .invokespecial member onInterface)

theorem Stacked.imp {stack : List SlotType} (h : Stacked Q stack) (hp : ∀ type ∈ stack, P type) :
    Stacked P stack := by
  induction h with
  | nil => exact .nil
  | narrow usable width _ _ ih =>
    obtain ⟨hfirst, hrest⟩ := List.forall_mem_cons.mp hp
    exact .narrow usable width hfirst (ih hrest)
  | wide width _ ih => exact .wide width (ih fun type hm => hp type (by simp [hm]))

theorem WellFormed.imp (hf : WellFormed Q f) (hp : ∀ type, f.Holds type → P type) :
    WellFormed P f :=
  ⟨hf.locals, fun type hm => hp type (.inl hm), hf.stack.imp fun type hm => hp type (.inr hm)⟩

theorem WellFormed.allowed (ht : Tolerant P) (hf : WellFormed P f) (h : f.Holds type) : P type :=
  h.elim (hf.localTypes type) (hf.stack.allowed ht type)

theorem not_raw_ofFieldType (type : FieldType) : ¬ Raw (.ofFieldType type) := by
  rcases type with ⟨_ | _⟩ | _ <;> rintro (h | ⟨_, h⟩) <;> cases h

theorem not_raw_object (name : String) : ¬ Raw (.object name) := by
  rintro (h | ⟨_, h⟩) <;> cases h

/-- Of objects under construction, anything may hold. -/
theorem tolerant_raw (P : SlotType → Prop) : Tolerant fun type => Raw type → P type where
  value := by
    rintro type hcreation - hthis (rfl | ⟨creation, rfl⟩)
    · exact absurd rfl hthis
    · cases hcreation
  element := fun _ _ hraw => absurd hraw (not_raw_object _)

/-- The only object that an instruction brings without constructing it is one that it creates. -/
theorem Brings.raw {context : Context} {code : Array (Instruction Label)}
    (h : Brings context code i insn type) (hr : Raw type) :
    type = .uninitialized i ∧ ∃ name, insn = .type .new name := by
  cases h with
  | new => exact ⟨rfl, _, rfl⟩
  | field => exact absurd hr (not_raw_ofFieldType _)
  | result => exact absurd hr (not_raw_ofFieldType _)
  | dynamic => exact absurd hr (not_raw_ofFieldType _)
  | @literal value => cases value <;> rcases hr with h | ⟨_, h⟩ <;> cases h
  | constructed h =>
    obtain ⟨name, rfl⟩ := constructed_eq_ok h
    exact absurd hr (not_raw_object _)
  | array | cast | primitives | dimensions => exact absurd hr (not_raw_object _)

/-- An object under construction has been there before, or has just been created. -/
theorem holds_of_execute {context : Context} {code : Array (Instruction Label)}
    (hf : WellFormed Q f) (hrun : (execute context code i insn).run f = .ok ((), g))
    (hraw : Raw type) (hg : g.Holds type) :
    f.Holds type ∨ type = .uninitialized i ∧ ∃ name, insn = .type .new name := by
  have ht := tolerant_raw fun type =>
    f.Holds type ∨ type = .uninitialized i ∧ ∃ name, insn = .type .new name
  have hkept := keeps_execute ht (fun hb hr => .inr (hb.raw hr)) f () g
    (hf.imp fun _ h _ => .inl h) hrun
  exact hkept.1.allowed ht hg hraw

theorem isConstruction_iff : Method.isConstruction insn = true ↔
    ∃ member onInterface, insn = .invoke .invokespecial member onInterface ∧
      member.name = Name.initializer := by
  constructor
  · intro h
    unfold Method.isConstruction at h
    split at h
    · exact ⟨_, _, rfl, beq_iff_eq.mp h⟩
    · cases h
  · rintro ⟨member, onInterface, rfl, hname⟩
    exact beq_iff_eq.mpr hname

theorem isCreation_iff : Method.isCreation insn = true ↔ ∃ name, insn = .type .new name := by
  constructor
  · intro h
    unfold Method.isCreation at h
    split at h
    · exact ⟨_, rfl⟩
    · cases h
  · rintro ⟨name, rfl⟩
    rfl

theorem not_isCreation_of_isConstruction (h : Method.isConstruction insn = true) :
    Method.isCreation insn = false := by
  obtain ⟨member, onInterface, rfl, -⟩ := isConstruction_iff.mp h
  rfl

theorem Constructs.isConstruction (h : Constructs f receiver insn) :
    Method.isConstruction insn = true := by
  cases h with
  | call name => exact isConstruction_iff.mpr ⟨_, _, rfl, name⟩

theorem Constructs.unique {receiver' : SlotType} (h : Constructs f receiver insn)
    (h' : Constructs f receiver' insn) : receiver = receiver' := by
  cases h with
  | call _ parsed arguments receives =>
    cases h' with
    | call _ parsed' arguments' receives' =>
      obtain rfl := Except.ok.inj (parsed.symm.trans parsed')
      rw [arguments] at arguments'
      cases arguments'
      rw [receives] at receives'
      cases receives'
      rfl

/-- The object that a constructor is called on was there before the call. -/
theorem Constructs.holds (hf : WellFormed Q f) (h : Constructs f receiver insn)
    (hraw : Raw receiver) : f.Holds receiver := by
  have ht := tolerant_raw f.Holds
  cases h with
  | call _ _ arguments receives =>
    obtain ⟨hcalled, -⟩ := keeps_popArguments ht _ _ () _ (hf.imp fun _ h _ => h) arguments
    exact (keeps_popReference ht _ _ _ hcalled receives).2.1 hraw

theorem raw_of_constructed {context : Context} {code : Array (Instruction Label)}
    {object : SlotType} (h : constructed context code receiver = .ok object) : Raw receiver := by
  unfold constructed at h
  split at h
  · exact .inl rfl
  · exact .inr ⟨_, rfl⟩
  · cases h

theorem not_holds_construct {name : String} (hr : Raw receiver) :
    ¬ (f.construct receiver (.object name)).Holds receiver := by
  have hsettled :
      ∀ old, (if old = receiver then (.object name : SlotType) else old) ≠ receiver := by
    intro old
    split
    · rintro rfl
      exact not_raw_object _ hr
    · assumption
  rintro (hm | hm)
  all_goals
    obtain ⟨old, -, he⟩ := List.mem_map.mp hm
    exact hsettled old he

/-- A call of a constructor takes an object under construction, and constructs it: no value is of
its type any more. -/
theorem constructs_of_execute {context : Context} {code : Array (Instruction Label)}
    (hf : WellFormed Q f) (hi : Method.isConstruction insn = true)
    (hrun : (execute context code i insn).run f = .ok ((), g)) :
    ∃ receiver, Constructs f receiver insn ∧ Raw receiver ∧ ¬ g.Holds receiver := by
  obtain ⟨member, onInterface, rfl, hname⟩ := isConstruction_iff.mp hi
  obtain ⟨type, f₀, hlift, hcall⟩ := run_bind_eq_ok.mp hrun
  obtain ⟨hparse, rfl⟩ := run_lift_eq_ok.mp hlift
  obtain ⟨_, called, harguments, hbody⟩ := run_bind_eq_ok.mp hcall
  rw [if_pos (by decide)] at hbody
  obtain ⟨receiver, popped, hreceives, hbuild⟩ := run_bind_eq_ok.mp hbody
  rw [if_pos ⟨rfl, hname⟩] at hbuild
  obtain ⟨object, f₁, hlift', hset⟩ := run_bind_eq_ok.mp hbuild
  obtain ⟨hobject, rfl⟩ := run_lift_eq_ok.mp hlift'
  obtain ⟨name, rfl⟩ := constructed_eq_ok hobject
  obtain ⟨_, settled, hmodify, hresult⟩ := run_bind_eq_ok.mp hset
  cases hmodify
  have hraw := raw_of_constructed hobject
  refine ⟨receiver, .call hname hparse harguments hreceives, hraw, fun hg => ?_⟩
  have ht := tolerant_raw fun _ => True
  obtain ⟨hcalled, -⟩ := keeps_popArguments ht type _ () _ (hf.imp fun _ _ _ => trivial) harguments
  obtain ⟨hpopped, -, href⟩ := keeps_popReference ht _ _ _ hcalled hreceives
  have hsettled : WellFormed _ (f₁.construct receiver (.object name)) :=
    hpopped.construct (fun _ => trivial) href
  -- what is pushed at the end is not under construction
  have hkept := keeps_pushResult (P := fun other => Raw other → other ≠ receiver)
    (fun result _ hr => absurd hr (not_raw_ofFieldType result)) _ () _
    (hsettled.imp fun other h _ he => not_holds_construct hraw (he ▸ h)) hresult
  exact hkept.1.allowed (tolerant_raw (· ≠ receiver)) hg hraw rfl

namespace Program

/-- A constructor is called at an index, when code is run one element after the other. -/
def Calls (program : Program) (i : Nat) (receiver : SlotType) : Prop :=
  ∃ f insn, program.Runs i f ∧ program.code[i]? = some insn ∧ Constructs f receiver insn

theorem Calls.unique {receiver' : SlotType} (h : program.Calls i receiver)
    (h' : program.Calls i receiver') : receiver = receiver' := by
  obtain ⟨f, insn, hf, hat, hc⟩ := h
  obtain ⟨f', insn', hf', hat', hc'⟩ := h'
  obtain rfl := hf.unique hf'
  obtain rfl := Option.some.inj (hat.symm.trans hat')
  exact hc.unique hc'

namespace Runs

theorem wellFormed (h : program.Runs i f) : WellFormed program.Creates f := by
  induction h with
  | start => exact wellFormed_initial program
  | next _ at_ runs ih => exact (invariant_wellFormed .library program).execute at_ ih runs

/-- Objects under construction were created before, but for the one that a constructor works on. -/
theorem created (h : program.Runs i f) (hj : f.Holds (.uninitialized j)) :
    j < i ∧ ∃ name, program.code[j]? = some (.type .new name) := by
  induction h with
  | start =>
    have ht : Tolerant fun type : SlotType => type.creation? = none :=
      ⟨fun h _ _ => h, fun _ _ => rfl⟩
    have hnone := (wellFormed_of_entryLocals ht fun _ => creation?_entryLocals).allowed ht hj
    cases hnone
  | @next i f g insn here at_ runs ih =>
    rcases holds_of_execute here.wellFormed runs (.inr ⟨j, rfl⟩) hj with hf | ⟨he, name, rfl⟩
    · obtain ⟨hlt, hnew⟩ := ih hf
      exact ⟨Nat.lt_succ_of_lt hlt, hnew⟩
    · obtain rfl := VerificationType.uninitialized.inj he
      exact ⟨Nat.lt_succ_self j, name, at_⟩

/-- At each construction that has been run, the constructor of an object was called. -/
theorem calls (h : program.Runs i f) (hj : j < i) (hat : program.code[j]? = some insn)
    (hinsn : Method.isConstruction insn = true) :
    ∃ receiver, program.Calls j receiver ∧ Raw receiver := by
  obtain ⟨before, insn', after, hbefore, hat', hrun, -⟩ := h.step_before hj
  obtain rfl := Option.some.inj (hat.symm.trans hat')
  obtain ⟨receiver, hc, hraw, -⟩ := constructs_of_execute hbefore.wellFormed hinsn hrun
  exact ⟨receiver, ⟨before, insn, hbefore, hat, hc⟩, hraw⟩

theorem raw_of_calls (h : program.Runs i f) (hj : j < i) (hc : program.Calls j receiver) :
    Raw receiver := by
  obtain ⟨before, insn, -, hat, hconstructs⟩ := id hc
  obtain ⟨receiver', hc', hraw⟩ := h.calls hj hat hconstructs.isConstruction
  exact hc.unique hc' ▸ hraw

/-- What has been constructed is never under construction again. -/
theorem not_holds_of_calls (h : program.Runs i f) (hj : j < i) (hc : program.Calls j receiver) :
    ¬ f.Holds receiver := by
  induction h with
  | start => exact absurd hj (Nat.not_lt_zero _)
  | @next i f g insn here at_ runs ih =>
    have hraw := (here.next at_ runs).raw_of_calls hj hc
    obtain ⟨before, called, hbefore, hcalled, hconstructs⟩ := hc
    rcases Nat.lt_succ_iff_lt_or_eq.mp hj with hlt | rfl
    · intro hg
      rcases holds_of_execute here.wellFormed runs hraw hg with hheld | ⟨rfl, -⟩
      · exact ih hlt hheld
      · have := (hbefore.created (hconstructs.holds hbefore.wellFormed hraw)).1
        omega
    · obtain rfl := here.unique hbefore
      obtain rfl := Option.some.inj (at_.symm.trans hcalled)
      obtain ⟨receiver', hconstructs', -, hgone⟩ :=
        constructs_of_execute here.wellFormed hconstructs.isConstruction runs
      exact hconstructs.unique hconstructs' ▸ hgone

theorem not_calls_before (h : program.Runs i f) (hc : Constructs f receiver insn) (hj : j < i) :
    ¬ program.Calls j receiver := by
  intro hcalls
  have hraw := h.raw_of_calls hj hcalls
  exact h.not_holds_of_calls hj hcalls (hc.holds h.wellFormed hraw)

end Runs

/-- No constructor is called on an object twice. -/
theorem Calls.index_unique (hi : program.Calls i receiver) (hj : program.Calls j receiver) :
    i = j := by
  obtain ⟨f, insn, hf, -, hc⟩ := id hi
  obtain ⟨g, insn', hg, -, hc'⟩ := id hj
  rcases Nat.lt_trichotomy i j with hlt | he | hlt
  · exact absurd hi (hg.not_calls_before hc' hlt)
  · exact he
  · exact absurd hj (hf.not_calls_before hc hlt)

/-- Indices before a bound at which there are elements of a kind. -/
def places (program : Program) (kind : Instruction Label → Bool) (bound : Nat) : Finset Nat :=
  (Finset.range bound).filter fun i => program.code[i]?.any kind = true

theorem mem_places {kind : Instruction Label → Bool} : j ∈ program.places kind i ↔
    j < i ∧ ∃ insn, program.code[j]? = some insn ∧ kind insn = true := by
  simp [places, Option.any_eq_true]

theorem card_places (program : Program) (kind : Instruction Label → Bool) (bound : Nat) :
    (program.places kind bound).card = (program.code.toList.take bound).countP kind := by
  induction bound with
  | zero => rfl
  | succ bound ih =>
    rw [List.take_add_one, List.countP_append, ← ih, Array.getElem?_toList, places,
      Finset.range_add_one, Finset.filter_insert]
    cases program.code[bound]? with
    | none => rfl
    | some insn =>
      cases hkind : kind insn with
      | false => simp [places, hkind]
      | true => simp [places, hkind]

variable (h : program.Runs i f) (hc : Constructs f .uninitializedThis insn)
include h hc

/-- Up to the call of another constructor, each construction uses up a creation of its own. -/
theorem Runs.constructions_le (hj : j ≤ i) :
    (program.places Method.isConstruction j).card ≤ (program.places Method.isCreation j).card := by
  have hcreated : ∀ k ∈ program.places Method.isConstruction j,
      ∃ creation ∈ program.places Method.isCreation j,
        program.Calls k (.uninitialized creation) := by
    intro k hk
    obtain ⟨hkj, built, hat, hbuilt⟩ := mem_places.mp hk
    have hki : k < i := Nat.lt_of_lt_of_le hkj hj
    obtain ⟨receiver, hcalls, rfl | ⟨creation, rfl⟩⟩ := h.calls hki hat hbuilt
    · exact absurd hcalls (h.not_calls_before hc hki)
    obtain ⟨before, _, hbefore, -, hconstructs⟩ := id hcalls
    obtain ⟨hlt, name, hnew⟩ :=
      hbefore.created (hconstructs.holds hbefore.wellFormed (.inr ⟨creation, rfl⟩))
    exact ⟨creation, mem_places.mpr ⟨by omega, _, hnew, rfl⟩, hcalls⟩
  choose! creation hmem hcalls using hcreated
  refine Finset.card_le_card_of_injOn creation hmem fun a ha b hb hab => ?_
  exact (hcalls a ha).index_unique (hab ▸ hcalls b hb)

/-- If all objects have been constructed by then, there are as many of either. -/
theorem Runs.constructions_eq (hbuilt : ∀ j < i, ∀ name,
    program.code[j]? = some (.type .new name) → ∃ k < i, program.Calls k (.uninitialized j)) :
    (program.places Method.isConstruction i).card = (program.places Method.isCreation i).card := by
  refine Nat.le_antisymm (h.constructions_le hc (Nat.le_refl i)) ?_
  have hconstructed : ∀ j ∈ program.places Method.isCreation i,
      ∃ k ∈ program.places Method.isConstruction i, program.Calls k (.uninitialized j) := by
    intro j hj
    obtain ⟨hji, created, hat, hnew⟩ := mem_places.mp hj
    obtain ⟨name, rfl⟩ := isCreation_iff.mp hnew
    obtain ⟨k, hk, hcalls⟩ := hbuilt j hji name hat
    obtain ⟨_, built, -, hbuilt, hconstructs⟩ := id hcalls
    exact ⟨k, mem_places.mpr ⟨hk, built, hbuilt, hconstructs.isConstruction⟩, hcalls⟩
  choose! place hmem hcalls using hconstructed
  refine Finset.card_le_card_of_injOn place hmem fun a ha b hb hab => ?_
  exact VerificationType.uninitialized.inj ((hab ▸ hcalls a ha).unique (hcalls b hb))

end Program

/-- The search finds the first construction that uses up no creation before it. -/
theorem chainedCallFrom_eq {code : List (Instruction Label)} {k : Nat} (hat : code[k]? = some insn)
    (hinsn : Method.isConstruction insn = true) (index : Nat) {pending : Nat}
    (hle : ∀ i ≤ k, (code.take i).countP Method.isConstruction ≤
      pending + (code.take i).countP Method.isCreation)
    (heq : (code.take k).countP Method.isConstruction =
      pending + (code.take k).countP Method.isCreation) :
    Method.chainedCallFrom index pending code = some (index + k) := by
  induction code generalizing index pending k with
  | nil => cases hat
  | cons first rest ih =>
    cases k with
    | zero =>
      obtain rfl := Option.some.inj hat
      obtain rfl : pending = 0 := by simpa using heq.symm
      simp [Method.chainedCallFrom, not_isCreation_of_isConstruction hinsn, hinsn]
    | succ k =>
      have hrest : ∀ pending', pending' + (if Method.isConstruction first then 1 else 0) =
          pending + (if Method.isCreation first then 1 else 0) →
          Method.chainedCallFrom (index + 1) pending' rest = some (index + (k + 1)) := by
        intro pending' hpending
        refine (ih hat (index + 1) (fun i hi => ?_) ?_).trans (congrArg some (by omega))
        · have hnext := hle (i + 1) (Nat.succ_le_succ hi)
          simp only [List.take_succ_cons, List.countP_cons] at hnext
          omega
        · simp only [List.take_succ_cons, List.countP_cons] at heq
          omega
      have hfirst := hle 1 (Nat.succ_le_succ (Nat.zero_le k))
      cases hcreates : Method.isCreation first with
      | true =>
        have hbuilds : Method.isConstruction first = false := by
          by_contra hb
          rw [not_isCreation_of_isConstruction (by simpa using hb)] at hcreates
          cases hcreates
        simp only [Method.chainedCallFrom, hcreates, if_true]
        exact hrest _ (by simp [hcreates, hbuilds])
      | false =>
        cases hbuilds : Method.isConstruction first with
        | false =>
          simp only [Method.chainedCallFrom, hcreates, hbuilds]
          exact hrest _ (by simp [hcreates, hbuilds])
        | true =>
          cases pending with
          | zero => simp [hcreates, hbuilds] at hfirst
          | succ pending =>
            simp only [Method.chainedCallFrom, hcreates, hbuilds]
            exact hrest _ (by simp [hcreates, hbuilds])

/-- Where the own body of a constructor starts. If its code goes straight on, and control gets to
the call of a constructor on the object that is being constructed, after all others that are created
have been, then the body starts right after that call. (Nothing but a constructor has such an
object.) -/
theorem ownBody?_eq_next {hierarchy : Hierarchy} {method : Method} {owner : String}
    {type : MethodType} {flow : TypeFlow} {k : Nat}
    (hjumps : ∀ insn ∈ method.body.code, insn.jumpTargets = []) (hhandlers : method.handlers = [])
    (h : computeTypes hierarchy (Code.programOf (.ofMethod owner method type) method.body.code
      method.handlers) = .ok flow)
    (hf : flow.At k f) (hat : method.body.code[k]? = some insn)
    (hc : Constructs f .uninitializedThis insn)
    (hbuilt : ∀ j < k, ∀ name, method.body.code[j]? = some (.type .new name) →
      ∃ i < k, ∃ g built, flow.At i g ∧ method.body.code[i]? = some built ∧
        Constructs g (.uninitialized j) built) :
    method.ownBody? = some (k + 1) := by
  generalize hprogram : Code.programOf (.ofMethod owner method type) method.body.code
    method.handlers = program at h
  have hcode : program.code = method.body.code.toArray := hprogram ▸ rfl
  have hget : ∀ i, program.code[i]? = method.body.code[i]? :=
    fun i => by rw [hcode, List.getElem?_toArray]
  have hs : program.Straight := by
    refine ⟨fun insn hm => hjumps insn ?_, ?_⟩
    · rw [hcode] at hm
      simpa using hm
    · rw [← hprogram, hhandlers]
      rfl
  have hruns := hs.runs h hf
  have hconstructs := hc.isConstruction
  have hcounts : ∀ kind bound, (program.places kind bound).card =
      (method.body.code.take bound).countP kind := by
    intro kind bound
    rw [Program.card_places, hcode]
  have hsearch : Method.chainedCallFrom 0 0 method.body.code = some k := by
    refine (chainedCallFrom_eq hat hconstructs 0 (fun i hi => ?_) ?_).trans (by rw [Nat.zero_add])
    · rw [Nat.zero_add, ← hcounts, ← hcounts]
      exact hruns.constructions_le hc hi
    · rw [Nat.zero_add, ← hcounts, ← hcounts]
      refine hruns.constructions_eq hc fun j hj name hnew => ?_
      obtain ⟨i, hi, g, built, hg, hbuilt, hcalls⟩ := hbuilt j hj name (hget j ▸ hnew)
      exact ⟨i, hi, g, built, hs.runs h hg, (hget i).trans hbuilt, hcalls⟩
  have hfalls : fallsThrough insn = true := by
    obtain ⟨member, onInterface, rfl, -⟩ := isConstruction_iff.mp hconstructs
    rfl
  have hnext := hs.continues h hf ((hget k).trans hat) hfalls
  rw [hcode, List.size_toArray] at hnext
  rw [Method.ownBody?, hsearch, Option.bind_some, Body.next?, if_pos hnext]

namespace Chaining

/-- Constructor that creates another object before it calls the constructor of its superclass. -/
def chaining : Method :=
  { Method.declared (.ofBits .ofMethod 1) "<init>" "()V" with
    body := ⟨[.var .aload 0, .type .new "Part", .plain .dup,
      .invoke .invokespecial ⟨"Part", "<init>", "()V"⟩ false, .plain .pop,
      .invoke .invokespecial ⟨"Whole", "<init>", "()V"⟩ false, .plain .returnVoid], 0⟩ }

def analysed : Program :=
  Code.programOf (.ofMethod "Chaining" chaining ⟨[], none⟩) chaining.body.code chaining.handlers

/-- The frames before the elements, in turn. -/
def frames : List SlotFrame :=
  [⟨[.uninitializedThis], []⟩, ⟨[.uninitializedThis], [.uninitializedThis]⟩,
   ⟨[.uninitializedThis], [.uninitialized 1, .uninitializedThis]⟩,
   ⟨[.uninitializedThis], [.uninitialized 1, .uninitialized 1, .uninitializedThis]⟩,
   ⟨[.uninitializedThis], [.object "Part", .uninitializedThis]⟩,
   ⟨[.uninitializedThis], [.uninitializedThis]⟩, ⟨[.object "Chaining"], []⟩]

/-- The state in which given places wait, and the first frames are known. -/
def state (known maxStack : Nat) (work : Worklist) : TypeState :=
  ⟨⟨((frames.take known).map some ++ List.replicate (7 - known) none).toArray, maxStack, 1⟩, work⟩

theorem parse_none : parseMethod "()V" = .ok ⟨[], none⟩ :=
  mapError_eq_ok.mpr (MethodType.scan_inverts.complete_eq_ok.mpr rfl)

theorem execute_call (context : Context) (code : Array (Instruction Label)) (i : Nat)
    (owner : String) :
    execute context code i (.invoke .invokespecial ⟨owner, "<init>", "()V"⟩ false) = (do
      let receiver ← popReference
      let object ← constructed context code receiver
      modify fun frame => frame.construct receiver object) := by
  change ((liftM (parseMethod "()V") : Transition MethodType) >>= _) = _
  rw [parse_none]
  rfl

theorem visit_part (hierarchy : Hierarchy) : TypeState.visit analysed hierarchy ∅
    (state 4 3 (.empty 7)) 3 = .ok (state 5 3 ((Worklist.empty 7).push 4)) := by
  change (((execute analysed.context analysed.code 3
    (.invoke .invokespecial ⟨"Part", "<init>", "()V"⟩ false)).run _).mapError _ >>= _) = _
  rw [execute_call]
  rfl

theorem visit_whole (hierarchy : Hierarchy) : TypeState.visit analysed hierarchy ∅
    (state 6 3 (.empty 7)) 5 = .ok (state 7 3 ((Worklist.empty 7).push 6)) := by
  change (((execute analysed.context analysed.code 5
    (.invoke .invokespecial ⟨"Whole", "<init>", "()V"⟩ false)).run _).mapError _ >>= _) = _
  rw [execute_call]
  rfl

theorem computeTypes_chaining (hierarchy : Hierarchy) :
    computeTypes hierarchy analysed = .ok (state 7 3 (.empty 7)).flow := by
  have hpop : analysed.start.pop = (some 0, state 1 0 (.empty 7)) := rfl
  have h₀ : TypeState.visit analysed hierarchy ∅ (state 1 0 (.empty 7)) 0 =
      .ok (state 2 1 ((Worklist.empty 7).push 1)) := rfl
  have h₁ : TypeState.visit analysed hierarchy ∅ (state 2 1 (.empty 7)) 1 =
      .ok (state 3 2 ((Worklist.empty 7).push 2)) := rfl
  have h₂ : TypeState.visit analysed hierarchy ∅ (state 3 2 (.empty 7)) 2 =
      .ok (state 4 3 ((Worklist.empty 7).push 3)) := rfl
  have h₄ : TypeState.visit analysed hierarchy ∅ (state 5 3 (.empty 7)) 4 =
      .ok (state 6 3 ((Worklist.empty 7).push 5)) := rfl
  have h₆ : TypeState.visit analysed hierarchy ∅ (state 7 3 (.empty 7)) 6 =
      .ok (state 7 3 (.empty 7)) := rfl
  refine computeTypes_of_drains rfl (by decide : [0, 1, 2, 3, 4, 5, 6].length ≤ 7 + 1) ?_
  refine .visit hpop h₀ (.visit rfl h₁ (.visit rfl h₂ (.visit rfl (visit_part hierarchy) ?_)))
  exact .visit rfl h₄ (.visit rfl (visit_whole hierarchy) (.visit rfl h₆ (.done rfl)))

/-- The part is constructed before the constructor of the superclass is called. -/
theorem chaining_ownBody : chaining.ownBody? = some 6 := by
  have hat : chaining.body.code[5]? =
      some (.invoke .invokespecial ⟨"Whole", "<init>", "()V"⟩ false) := rfl
  refine ownBody?_eq_next (by decide) rfl (computeTypes_chaining .library) (f := frames[5]) rfl hat
    (.call rfl parse_none rfl rfl) ?_
  intro j hj name hnew
  obtain rfl : j = 1 := by
    interval_cases j <;> first | rfl | cases hnew
  exact ⟨3, by decide, frames[3], _, rfl, rfl, .call rfl parse_none rfl rfl⟩

end Chaining

end ClassTree.Flow
