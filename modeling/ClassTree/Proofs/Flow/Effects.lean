import ClassTree.Flow.Depth
import ClassTree.Proofs.Code.Operands
import ClassTree.Proofs.Flow.WellFormed

namespace ClassTree.Flow

open ClassTree.Frame Transition

variable {α β : Type} {P : SlotType → Prop} {f g : SlotFrame} {type : SlotType}

/-- On well-formed frames the stack gets higher by a number of slots, and as many locals are left;
what comes of it is well-formed, and the result is as stated. -/
def Shifts (P : SlotType → Prop) (x : Transition α) (δ : Int) (Q : α → Prop) : Prop :=
  ∀ f a g, WellFormed P f → x.run f = .ok (a, g) →
    WellFormed P g ∧ Q a ∧ (g.stack.length : Int) = f.stack.length + δ ∧
      g.locals.length = f.locals.length

abbrev ShiftsBy (P : SlotType → Prop) (x : Transition Unit) (δ : Int) : Prop :=
  Shifts P x δ fun _ => True

/-- Where a transition succeeds on a well-formed frame, so does computing its change in depth, and
that is how the height changes. -/
def Agrees (P : SlotType → Prop) (x : Transition Unit) (delta : Except FlowFault Int) : Prop :=
  ∀ f g, WellFormed P f → x.run f = .ok ((), g) →
    ∃ δ, delta = .ok δ ∧ (g.stack.length : Int) = f.stack.length + δ ∧
      g.locals.length = f.locals.length

section Combinators

variable {x : Transition α} {next : α → Transition β} {Q : α → Prop} {R : β → Prop} {δ δ' : Int}

theorem shifts_pure {a : α} (h : Q a) : Shifts P (pure a) 0 Q := by
  intro f b g hf hr
  cases hr
  exact ⟨hf, h, (Int.add_zero _).symm, rfl⟩

theorem shifts_fail (fault : FlowFault) : Shifts P (fail fault) δ Q := by
  intro f a g _ hr
  cases hr

theorem Shifts.bind (h : Shifts P x δ Q) (h' : ∀ a, Q a → Shifts P (next a) δ' R) :
    Shifts P (x >>= next) (δ + δ') R := by
  intro f b g' hf hr
  obtain ⟨a, g, hx, hn⟩ := run_bind_eq_ok.mp hr
  obtain ⟨hg, ha, hs, hl⟩ := h f a g hf hx
  obtain ⟨hg', hb, hs', hl'⟩ := h' a ha g b g' hg hn
  exact ⟨hg', hb, by omega, hl'.trans hl⟩

theorem shifts_lift {y : Except FlowFault α} (h : ∀ a, y = .ok a → Q a) :
    Shifts P (liftM y : Transition α) 0 Q := by
  intro f a g hf hr
  cases hy : y with
  | error fault =>
    rw [hy] at hr
    cases hr
  | ok b =>
    rw [hy] at hr
    cases hr
    exact ⟨hf, h _ hy, (Int.add_zero _).symm, rfl⟩

theorem shifts_ite {c : Prop} [Decidable c] {y : Transition α} (hx : c → Shifts P x δ Q)
    (hy : ¬ c → Shifts P y δ Q) : Shifts P (if c then x else y) δ Q := by
  split
  · exact hx ‹_›
  · exact hy ‹_›

theorem shifts_forM {l : List β} {each : β → Transition Unit} {change : β → Int}
    (h : ∀ y ∈ l, ShiftsBy P (each y) (change y)) :
    ShiftsBy P (l.forM each) (l.map change).sum := by
  induction l with
  | nil => exact shifts_pure trivial
  | cons y l ih =>
    rw [List.map_cons, List.sum_cons]
    exact (h y (by simp)).bind fun _ _ => ih fun z hz => h z (by simp [hz])

theorem Shifts.of_eq (h : Shifts P x δ Q) (he : δ = δ') : Shifts P x δ' Q :=
  he ▸ h

theorem Shifts.agrees {x : Transition Unit} {Q : Unit → Prop} {delta : Except FlowFault Int}
    (h : Shifts P x δ Q) (hd : delta = .ok δ) : Agrees P x delta := by
  intro f g hf hr
  obtain ⟨-, -, hs, hl⟩ := h f () g hf hr
  exact ⟨δ, hd, hs, hl⟩

theorem agrees_fail (fault : FlowFault) (delta : Except FlowFault Int) :
    Agrees P (fail fault) delta := by
  intro f g _ hr
  cases hr

/-- One group of operations of several. -/
theorem agrees_if {c : Prop} [Decidable c] {x y : Transition Unit} {Q : Unit → Prop}
    {delta : Except FlowFault Int} (hx : Shifts P x δ Q) (hd : c → delta = .ok δ)
    (hy : Agrees P y delta) : Agrees P (if c then x else y) delta := by
  split
  · exact hx.agrees (hd ‹_›)
  · exact hy

theorem agrees_ite {c : Prop} [Decidable c] {x y : Transition Unit}
    {delta : Except FlowFault Int} (hx : c → Agrees P x delta) (hy : ¬ c → Agrees P y delta) :
    Agrees P (if c then x else y) delta := by
  split
  · exact hx ‹_›
  · exact hy ‹_›

/-- Computing the change in depth may begin as the transition does. -/
theorem agrees_lift_bind {y : Except FlowFault α} {next : α → Transition Unit} {δ : α → Int}
    (h : ∀ a, y = .ok a → Agrees P (next a) (.ok (δ a))) :
    Agrees P ((liftM y : Transition α) >>= next) (do return δ (← y)) := by
  intro f g hf hr
  obtain ⟨a, f', hy, hn⟩ := run_bind_eq_ok.mp hr
  cases hya : y with
  | error fault =>
    rw [hya] at hy
    cases hy
  | ok b =>
    rw [hya] at hy
    cases hy
    exact h _ hya f g hf hn

end Combinators

theorem shifts_push (ht : type ≠ .top) (h : P type) : ShiftsBy P (push type) type.width := by
  rintro ⟨locals, stack⟩ _ g hf hr
  refine ⟨(keeps_push ht h _ _ _ hf hr).1, trivial, ?_⟩
  cases hr
  refine ⟨?_, rfl⟩
  dsimp only
  cases type <;> simp [VerificationType.width] <;> rfl

theorem pop_shifts (hf : WellFormed P f) (hr : pop.run f = .ok (type, g)) :
    (f.stack.length : Int) = g.stack.length + type.width ∧ g.locals.length = f.locals.length := by
  obtain ⟨locals, stack⟩ := f
  have hs : Stacked P stack := hf.stack
  cases hs with
  | nil => cases hr
  | @narrow found rest usable width allowed below =>
    rw [pop_narrow _ _ usable] at hr
    cases hr
    have hone : type.width = 1 := by
      cases type <;> first | rfl | exact absurd rfl width
    simp [hone]
  | @wide found rest width below =>
    rw [pop_wide _ _ width] at hr
    cases hr
    simp [width]
    omega

/-- Slots that are copied are there. -/
theorem shifts_dup {count depth : Nat} (hc : 0 < count) : ShiftsBy P (dup count depth) count := by
  intro f _ g hf hr
  refine ⟨(keeps_dup hc f _ g hf hr).1, trivial, ?_⟩
  obtain ⟨stack, f₀, hg, h₀⟩ := run_bind_eq_ok.mp hr
  cases hg
  dsimp only at h₀
  split at h₀
  · cases h₀
  rename_i hlen
  obtain ⟨_, f₁, h₁, hn⟩ := run_bind_eq_ok.mp h₀
  obtain ⟨_, f₂, h₂, hset⟩ := run_bind_eq_ok.mp hn
  obtain ⟨rfl, -⟩ := checkTop_eq_ok h₁
  obtain ⟨rfl, -⟩ := checkTop_eq_ok h₂
  cases hset
  refine ⟨?_, rfl⟩
  simp only [List.length_append, List.length_take, List.length_drop]
  omega

theorem shifts_popSlots {count : Nat} (hc : 0 < count) : ShiftsBy P (popSlots count) (-count) := by
  intro f _ g hf hr
  refine ⟨(keeps_popSlots hc f _ g hf hr).1, trivial, ?_⟩
  obtain ⟨_, f₁, h₁, hset⟩ := run_bind_eq_ok.mp hr
  obtain ⟨rfl, type, hat, -⟩ := checkTop_eq_ok h₁
  obtain ⟨hlt, -⟩ := List.getElem?_eq_some_iff.mp hat
  cases hset
  refine ⟨?_, rfl⟩
  simp only [List.length_drop]
  omega

theorem shifts_swap : ShiftsBy P swap 0 := by
  rintro ⟨locals, stack⟩ _ g hf hr
  refine ⟨(keeps_swap _ _ _ hf hr).1, trivial, ?_⟩
  obtain ⟨_, f₀, hg, h₀⟩ := run_bind_eq_ok.mp hr
  cases hg
  dsimp only at h₀
  split at h₀
  · obtain ⟨_, f₁, h₁, hn⟩ := run_bind_eq_ok.mp h₀
    obtain ⟨_, f₂, h₂, hset⟩ := run_bind_eq_ok.mp hn
    obtain ⟨rfl, -⟩ := checkTop_eq_ok h₁
    obtain ⟨rfl, -⟩ := checkTop_eq_ok h₂
    cases hset
    simp
  · cases h₀

theorem ordinary_integer : Ordinary .integer :=
  ⟨nofun, rfl⟩

/-- Slots that a value of a field type takes. -/
theorem width_ofFieldType (type : FieldType) :
    (VerificationType.ofFieldType type : SlotType).width = type.width := by
  rcases type with ⟨_ | _⟩ | _ <;> rfl

theorem width_loadedElement {op : Opcode} {array : SlotType}
    (h : loadedElement op array = .ok type) :
    type.width = if op = .laload ∨ op = .daload then 2 else 1 := by
  unfold loadedElement at h
  split at h
  · cases h
    rfl
  · cases h
    rfl
  · cases h
    rfl
  · split at h
    · cases h
      rfl
    · split at h
      · cases h
        rfl
      · cases h
    · cases h
  · rename_i hl _ hd _
    cases h
    rw [if_neg (not_or.mpr ⟨hl, hd⟩)]
    rfl

section Instructions

variable (hl : Lenient P)
include hl

theorem shifts_pushOrdinary (type : SlotType) (h : Ordinary type) :
    ShiftsBy P (push type) type.width :=
  shifts_push h.1 (hl type h.2)

theorem shifts_popExpecting (expected : SlotType) :
    ShiftsBy P (popExpecting expected) (-expected.width) := by
  intro f _ g hf hr
  refine ⟨(keeps_popExpecting hl.tolerant expected f _ g hf hr).1, trivial, ?_⟩
  obtain ⟨found, f', hp, hn⟩ := run_bind_eq_ok.mp hr
  obtain ⟨hs, hlocals⟩ := pop_shifts hf hp
  split at hn
  · cases hn
  · rename_i he
    obtain rfl := Decidable.not_not.mp he
    cases hn
    exact ⟨by omega, hlocals⟩

theorem shifts_popReference :
    Shifts P popReference (-1) fun type => P type ∧ type.isReference = true := by
  intro f type g hf hr
  obtain ⟨hg, hq⟩ := keeps_popReference hl.tolerant f type g hf hr
  refine ⟨hg, hq, ?_⟩
  obtain ⟨found, f', hp, hn⟩ := run_bind_eq_ok.mp hr
  obtain ⟨hs, hlocals⟩ := pop_shifts hf hp
  split at hn
  · rename_i href
    cases hn
    rw [width_of_isReference href] at hs
    exact ⟨by omega, hlocals⟩
  · cases hn

theorem shifts_discard : ShiftsBy P (do let _ ← popReference) (-1) :=
  (shifts_popReference hl).bind fun _ _ => shifts_pure trivial

theorem shifts_popField (type : FieldType) : ShiftsBy P (popField type) (-type.width) := by
  cases type with
  | ref _ => exact shifts_discard hl
  | base type =>
    have h := shifts_popExpecting hl (.ofFieldType (.base type))
    rwa [width_ofFieldType] at h

theorem shifts_popArguments (type : MethodType) :
    ShiftsBy P (popArguments type) (-type.parameterSlots false) := by
  refine (shifts_forM fun parameter _ => shifts_popField hl parameter).of_eq ?_
  unfold MethodType.parameterSlots
  induction type.parameters with
  | nil => rfl
  | cons parameter parameters ih =>
    rw [List.reverse_cons, List.map_append, List.sum_append, ih, List.map_singleton,
      List.sum_singleton, List.foldr_cons]
    simp only [Bool.false_eq_true, if_false]
    omega

theorem shifts_pushResult (type : MethodType) :
    ShiftsBy P (pushResult type) type.resultWidth := by
  unfold pushResult MethodType.resultWidth
  cases type.result with
  | none => exact shifts_pure trivial
  | some result =>
    have h := shifts_pushOrdinary hl _ (ordinary_ofFieldType result)
    rwa [width_ofFieldType] at h

theorem shifts_popElement (op : Opcode) : ShiftsBy P (popElement op)
    (if op = .lastore ∨ op = .dastore then -2 else -1) := by
  unfold popElement
  split
  · exact shifts_popExpecting hl _
  · exact shifts_popExpecting hl _
  · exact shifts_popExpecting hl _
  · exact shifts_discard hl
  · rename_i hlong _ hdouble _
    rw [if_neg (not_or.mpr ⟨hlong, hdouble⟩)]
    exact shifts_popExpecting hl _

theorem shifts_binary {result : SlotType} (h : Ordinary result) :
    ShiftsBy P (binary type result) (result.width - 2 * type.width) :=
  ((shifts_popExpecting hl _).bind fun _ _ => (shifts_popExpecting hl _).bind fun _ _ =>
    shifts_pushOrdinary hl _ h).of_eq (by omega)

theorem shifts_unary {result : SlotType} (h : Ordinary result) :
    ShiftsBy P (unary type result) (result.width - type.width) :=
  ((shifts_popExpecting hl _).bind fun _ _ => shifts_pushOrdinary hl _ h).of_eq (by omega)

end Instructions

variable (hl : Lenient P)
include hl

theorem agrees_executePlain (op : Opcode) : Agrees P (executePlain op) (plainDelta op) := by
  unfold executePlain
  refine
    agrees_if (shifts_pure (Q := fun _ => True) trivial) ?_ <|
    -- constants
    agrees_if (shifts_pushOrdinary hl .null ⟨nofun, rfl⟩) ?_ <|
    agrees_if (shifts_pushOrdinary hl .integer ordinary_integer) ?_ <|
    agrees_if (shifts_pushOrdinary hl .long ⟨nofun, rfl⟩) ?_ <|
    agrees_if (shifts_pushOrdinary hl .float ⟨nofun, rfl⟩) ?_ <|
    agrees_if (shifts_pushOrdinary hl .double ⟨nofun, rfl⟩) ?_ <|
    -- arrays
    agrees_if ((shifts_popExpecting hl _).bind fun _ _ =>
      (shifts_popReference hl).bind fun _ _ => (shifts_lift fun _ h =>
        And.intro (ordinary_loadedElement h) (width_loadedElement h)).bind fun _ h =>
          (shifts_pushOrdinary hl _ h.1).of_eq (congrArg Nat.cast h.2)) ?_ <|
    agrees_if ((shifts_popElement hl op).bind fun _ _ =>
      (shifts_popExpecting hl _).bind fun _ _ => shifts_discard hl) ?_ <|
    -- slots of the stack
    agrees_if (shifts_popSlots Nat.one_pos) ?_ <|
    agrees_if (shifts_popSlots Nat.two_pos) ?_ <|
    agrees_if (shifts_dup Nat.one_pos) ?_ <|
    agrees_if (shifts_dup Nat.one_pos) ?_ <|
    agrees_if (shifts_dup Nat.one_pos) ?_ <|
    agrees_if (shifts_dup Nat.two_pos) ?_ <|
    agrees_if (shifts_dup Nat.two_pos) ?_ <|
    agrees_if (shifts_dup Nat.two_pos) ?_ <|
    agrees_if shifts_swap ?_ <|
    -- arithmetic
    agrees_if (shifts_binary hl (ordinary_numeric _)) ?_ <|
    agrees_if (shifts_unary hl (ordinary_numeric _)) ?_ <|
    agrees_if ((shifts_popExpecting hl _).bind fun _ _ =>
      shifts_unary hl (ordinary_numeric _)) ?_ <|
    agrees_if (shifts_binary hl (ordinary_numeric _)) ?_ <|
    agrees_if (shifts_unary hl (ordinary_numeric _)) ?_ <|
    agrees_if (shifts_unary hl ordinary_integer) ?_ <|
    agrees_if (shifts_binary hl ordinary_integer) ?_ <|
    -- results
    agrees_if (shifts_popExpecting hl _) ?_ <|
    agrees_if (shifts_popExpecting hl _) ?_ <|
    agrees_if (shifts_popExpecting hl _) ?_ <|
    agrees_if (shifts_popExpecting hl _) ?_ <|
    agrees_if (shifts_discard hl) ?_ <|
    agrees_if ((shifts_popReference hl).bind fun _ _ =>
      shifts_pushOrdinary hl .integer ordinary_integer) ?_ (agrees_fail _ _)
  -- what is left is the change in depth by each group of operations
  all_goals
    revert op
    exact Code.forall_opcode (by decide +kernel)

theorem agrees_executeType {index : Nat} {op : Opcode} (name : String)
    (hnew : op = .new → P (.uninitialized index)) :
    Agrees P (executeType index op name) (.ok (if op = .new then 1 else 0)) := by
  unfold executeType
  refine agrees_ite (fun ho => (@shifts_push P (.uninitialized index) nofun (hnew ho)).agrees
    (by rw [if_pos ho]; rfl)) fun hn => ?_
  rw [if_neg hn]
  refine agrees_ite (fun _ => ((shifts_popExpecting hl _).bind fun _ _ =>
    shifts_pushOrdinary hl (.object _) ⟨nofun, rfl⟩).agrees rfl) fun _ => ?_
  refine agrees_ite (fun _ => ((shifts_popReference hl).bind fun _ _ =>
    shifts_pushOrdinary hl (.object name) ⟨nofun, rfl⟩).agrees rfl) fun _ => ?_
  exact agrees_ite (fun _ => ((shifts_popReference hl).bind fun _ _ =>
    shifts_pushOrdinary hl .integer ordinary_integer).agrees rfl) fun _ => agrees_fail _ _

theorem agrees_executeField (op : Opcode) (member : Member) :
    Agrees P (executeField op member)
      (do return fieldDelta op (← parseField member.descriptor).width) := by
  refine agrees_lift_bind fun type _ => ?_
  have hpush := shifts_pushOrdinary hl _ (ordinary_ofFieldType type)
  rw [width_ofFieldType] at hpush
  by_cases hgetstatic : op = .getstatic
  · subst hgetstatic
    exact hpush.agrees rfl
  by_cases hputstatic : op = .putstatic
  · subst hputstatic
    exact (shifts_popField hl type).agrees rfl
  by_cases hgetfield : op = .getfield
  · subst hgetfield
    exact (((shifts_popReference hl).bind fun _ _ => hpush).of_eq
      (show _ = (type.width - 1 : Int) by omega)).agrees rfl
  · rw [if_neg hgetstatic, if_neg hputstatic, if_neg hgetfield]
    refine (((shifts_popField hl type).bind fun _ _ => shifts_discard hl).of_eq
      (Int.sub_eq_add_neg).symm).agrees (congrArg _ ?_)
    unfold fieldDelta
    split
    · exact absurd rfl hgetstatic
    · exact absurd rfl hputstatic
    · exact absurd rfl hgetfield
    · rfl

theorem agrees_executeJump (op : Opcode) : Agrees P (executeJump op) (.ok (jumpDelta op)) := by
  unfold executeJump
  refine
    agrees_if (shifts_popExpecting hl _) ?_ <|
    agrees_if ((shifts_popExpecting hl _).bind fun _ _ => shifts_popExpecting hl _) ?_ <|
    agrees_if ((shifts_popReference hl).bind fun _ _ => shifts_discard hl) ?_ <|
    agrees_if (shifts_discard hl) ?_ <|
    agrees_if (shifts_pure (Q := fun _ => True) trivial) ?_ (agrees_fail _ _)
  all_goals
    revert op
    exact Code.forall_opcode (by decide +kernel)

theorem shifts_construct {receiver : SlotType} {name : String}
    (h : receiver.isReference = true) :
    ShiftsBy P (modify fun frame => frame.construct receiver (.object name)) 0 := by
  intro f _ g hf hr
  cases hr
  refine ⟨hf.construct (hl _ rfl) h, trivial, ?_⟩
  simp [SlotFrame.construct]

theorem agrees_executeInvoke (context : Context) (code : Array (Instruction Label)) (op : Opcode)
    (member : Member) : Agrees P (executeInvoke context code op member)
      (do return callDelta (← parseMethod member.descriptor) (op ≠ .invokestatic)) := by
  refine agrees_lift_bind fun type _ => ?_
  have hresult := shifts_pushResult hl type
  have hreceiver : ShiftsBy P (do
      let receiver ← popReference
      if op = .invokespecial ∧ member.name = Name.initializer then
        let object ← constructed context code receiver
        modify fun frame => frame.construct receiver object
      pushResult type) (-1 + type.resultWidth) := by
    refine (shifts_popReference hl).bind fun receiver hr => ?_
    refine shifts_ite (fun _ => ?_) fun _ => hresult
    refine ((shifts_lift fun _ => constructed_eq_ok).bind ?_).of_eq (Int.zero_add _)
    rintro _ ⟨name, rfl⟩
    exact ((shifts_construct hl hr.2).bind fun _ _ => hresult).of_eq (Int.zero_add _)
  by_cases hop : op = .invokestatic
  · subst hop
    refine (((shifts_popArguments hl type).bind fun _ _ => hresult).of_eq ?_).agrees rfl
    simp [callDelta]
    omega
  · have hshift := ((shifts_popArguments hl type).bind fun _ _ => hreceiver)
    simp only [if_pos hop, decide_eq_true hop]
    refine (hshift.of_eq ?_).agrees rfl
    simp [callDelta, MethodType.parameterSlots]
    omega

omit hl

def varWidth (op : Opcode) : Nat :=
  if op = .lload ∨ op = .dload ∨ op = .lstore ∨ op = .dstore then 2 else 1

/-- What executing an instruction does to the height of the stack and the number of locals. -/
structure Effect (insn : Instruction Label) (f g : SlotFrame) : Prop where
  noCall : isCall insn = false
  delta : ∃ δ, stackDelta insn = .ok δ ∧ (g.stack.length : Int) = f.stack.length + δ
  used : localsUsed insn ≤ g.locals.length
  bounded : g.locals.length ≤ max f.locals.length (localsUsed insn)

theorem Agrees.effect {x : Transition Unit} {insn : Instruction Label}
    (h : Agrees P x (stackDelta insn)) (hcall : isCall insn = false) (hused : localsUsed insn = 0)
    (hf : WellFormed P f) (hr : x.run f = .ok ((), g)) : Effect insn f g := by
  obtain ⟨δ, hd, hs, hlocals⟩ := h f g hf hr
  exact ⟨hcall, ⟨δ, hd, hs⟩, by omega, by omega⟩

theorem length_store (f : SlotFrame) (slot : Nat) (type : SlotType) :
    (f.store slot type).locals.length = max f.locals.length (slot + type.width) := by
  unfold SlotFrame.store
  dsimp only
  split <;> split <;> simp <;> omega

theorem width_of_loads {op : Opcode} (h : loads op type = true) :
    type.width = if op = .lload ∨ op = .dload then 2 else 1 := by
  unfold loads at h
  split at h
  · obtain rfl := beq_iff_eq.mp h
    rfl
  · obtain rfl := beq_iff_eq.mp h
    rfl
  · obtain rfl := beq_iff_eq.mp h
    rfl
  · obtain rfl := beq_iff_eq.mp h
    rfl
  · rename_i hlong _ hdouble
    rw [width_of_isReference h, if_neg (not_or.mpr ⟨hlong, hdouble⟩)]

theorem varDelta_load : ∀ op : Opcode, op.between .iload .aload = true →
    varDelta op = ((if op = .lload ∨ op = .dload then 2 else 1 : Nat) : Int) ∧
      varWidth op = if op = .lload ∨ op = .dload then 2 else 1 := by
  intro op h
  obtain ⟨k, hk, rfl⟩ := Code.exists_of_between h
  change k ≤ 4 at hk
  interval_cases k <;> decide

theorem varDelta_store : ∀ op : Opcode, op.between .istore .dstore = true →
    varDelta op = -((numeric (op.since .istore)).width : Int) ∧
      (numeric (op.since .istore)).width = varWidth op := by
  intro op h
  obtain ⟨k, hk, rfl⟩ := Code.exists_of_between h
  change k ≤ 3 at hk
  interval_cases k <;> decide

/-- A value that is loaded is there as a whole. -/
theorem effect_load {op : Opcode} (hop : op.between .iload .aload = true) (slot : UInt16)
    (hf : WellFormed P f) (hr : (load op slot).run f = .ok ((), g)) :
    Effect (.var op slot) f g := by
  obtain ⟨_, f₀, hg, h₀⟩ := run_bind_eq_ok.mp hr
  cases hg
  split at h₀
  · cases h₀
  rename_i type hat
  split at h₀
  · rename_i hloads
    have ht : type ≠ .top := by
      rintro rfl
      revert hloads
      unfold loads
      split <;> decide
    obtain ⟨-, -, hs, hlocals⟩ :=
      shifts_push ht (hf.localTypes type (List.mem_of_getElem? hat)) f _ g hf h₀
    have hwidth : varDelta op = type.width ∧ varWidth op = type.width := by
      rw [width_of_loads hloads]
      exact varDelta_load op hop
    have hlast : slot.toNat + type.width ≤ f.locals.length := by
      obtain ⟨hlt, -⟩ := List.getElem?_eq_some_iff.mp hat
      by_cases hw : type.width = 2
      · obtain ⟨hnext, -⟩ := List.getElem?_eq_some_iff.mp (paired_iff.mp hf.locals _ type hat hw)
        omega
      · have : type.width = 1 := by cases type <;> first | rfl | exact absurd rfl hw
        omega
    have hused : localsUsed (.var op slot) = slot.toNat + type.width :=
      congrArg (slot.toNat + ·) hwidth.2
    exact ⟨rfl, ⟨_, congrArg _ hwidth.1, hs⟩, by omega, by omega⟩
  · cases h₀

theorem effect_store {op : Opcode} {slot : UInt16} {x : Transition α} {stored : α → SlotType}
    (hx : Shifts P x (varDelta op) fun a => (stored a).width = varWidth op)
    (hf : WellFormed P f) (hr : (x >>= fun a => store slot (stored a)).run f = .ok ((), g)) :
    Effect (.var op slot) f g := by
  obtain ⟨a, f₁, hx', hn⟩ := run_bind_eq_ok.mp hr
  obtain ⟨-, hw, hs, hlocals⟩ := hx f a f₁ hf hx'
  cases hn
  have hlen := length_store f₁ slot.toNat (stored a)
  have hused : localsUsed (.var op slot) = slot.toNat + (stored a).width :=
    congrArg (slot.toNat + ·) hw.symm
  refine ⟨rfl, ⟨_, rfl, hs⟩, ?_, ?_⟩
  all_goals
    dsimp only
    omega

theorem effect_executeVar (hl : Lenient P) (op : Opcode) (slot : UInt16) (hf : WellFormed P f)
    (hr : (executeVar op slot).run f = .ok ((), g)) : Effect (.var op slot) f g := by
  unfold executeVar at hr
  split at hr
  · exact effect_load ‹_› slot hf hr
  split at hr
  · rename_i hop
    obtain ⟨hd, hw⟩ := varDelta_store op hop
    have hpop := shifts_popExpecting hl (numeric (op.since .istore))
    refine effect_store (x := popExpecting (numeric (op.since .istore))) ?_ hf hr
    intro f a g hf hr
    obtain ⟨hg, -, hs, hlocals⟩ := hpop f a g hf hr
    exact ⟨hg, hw, hd ▸ hs, hlocals⟩
  split at hr
  · rename_i hop
    subst hop
    refine effect_store (x := popReference) ?_ hf hr
    intro f type g hf hr
    obtain ⟨hg, ⟨-, href⟩, hs⟩ := shifts_popReference hl f type g hf hr
    exact ⟨hg, width_of_isReference href, hs⟩
  · split at hr <;> cases hr

/-- Executing an instruction on a well-formed frame changes the height of the stack as computing
depths has it, and leaves the locals that the instruction uses. -/
theorem effect_execute (hl : Lenient P) {context : Context} {code : Array (Instruction Label)}
    {index : Nat} {insn : Instruction Label}
    (hnew : ∀ name, insn = .type .new name → P (.uninitialized index)) (hf : WellFormed P f)
    (hr : (execute context code index insn).run f = .ok ((), g)) : Effect insn f g := by
  have hpure : ShiftsBy P (pure ()) 0 := shifts_pure trivial
  cases insn with
  | label _ => exact (hpure.agrees rfl).effect rfl rfl hf hr
  | line _ _ => exact (hpure.agrees rfl).effect rfl rfl hf hr
  | frame _ _ => exact (hpure.agrees rfl).effect rfl rfl hf hr
  | plain op => exact (agrees_executePlain hl op).effect rfl rfl hf hr
  | int op operand =>
    refine Agrees.effect (agrees_ite (fun ho => (show ShiftsBy P _ (-1 + 1) from
      (shifts_popExpecting hl .integer).bind fun _ _ => ?_).agrees ?_) fun hn =>
      (shifts_pushOrdinary hl _ ordinary_integer).agrees ?_) rfl rfl hf hr
    · split
      · exact shifts_pushOrdinary hl (.object _) ⟨nofun, rfl⟩
      · exact shifts_fail _
    · exact congrArg Except.ok (if_pos ho)
    · exact congrArg Except.ok (if_neg hn)
  | var op slot => exact effect_executeVar hl op slot hf hr
  | type op name =>
    exact (agrees_executeType hl name fun ho => hnew name (by rw [ho])).effect rfl rfl hf hr
  | field op member => exact (agrees_executeField hl op member).effect rfl rfl hf hr
  | invoke op member _ =>
    exact (agrees_executeInvoke hl context code op member).effect rfl rfl hf hr
  | invokeDynamic _ descriptor _ _ =>
    refine Agrees.effect (agrees_lift_bind fun type _ => ?_) rfl rfl hf hr
    refine (((shifts_popArguments hl type).bind fun _ _ => shifts_pushResult hl type).of_eq
      ?_).agrees rfl
    unfold callDelta
    omega
  | jump op _ =>
    refine (agrees_executeJump hl op).effect ?_ rfl hf hr
    by_contra hcall
    rw [Bool.not_eq_false] at hcall
    rcases Bool.or_eq_true_iff.mp hcall with h | h
    · obtain rfl := beq_iff_eq.mp h
      cases hr
    · obtain rfl := beq_iff_eq.mp h
      cases hr
  | load value =>
    exact ((shifts_pushOrdinary hl _ (ordinary_literalType value)).agrees
      (congrArg Except.ok (by cases value <;> rfl))).effect rfl rfl hf hr
  | increment slot amount =>
    obtain ⟨_, f₀, hg, h₀⟩ := run_bind_eq_ok.mp hr
    cases hg
    split at h₀
    · cases h₀
    · rename_i hat
      cases h₀
      obtain ⟨hlt, -⟩ := List.getElem?_eq_some_iff.mp (Decidable.not_not.mp hat)
      exact ⟨rfl, ⟨0, rfl, (Int.add_zero _).symm⟩, hlt, Nat.le_max_left _ _⟩
  | tableSwitch _ _ _ _ => exact ((shifts_popExpecting hl _).agrees rfl).effect rfl rfl hf hr
  | lookupSwitch _ _ => exact ((shifts_popExpecting hl _).agrees rfl).effect rfl rfl hf hr
  | multiArray descriptor dimensions =>
    refine ((((shifts_forM fun _ _ => shifts_popExpecting hl _).bind fun _ _ =>
      shifts_pushOrdinary hl (.object descriptor) ⟨nofun, rfl⟩).of_eq ?_).agrees rfl).effect
      rfl rfl hf hr
    simp [VerificationType.width]
    omega

end ClassTree.Flow
