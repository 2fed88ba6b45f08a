import ClassTree.Code.Decoding
import ClassTree.Code.Encoding
import ClassTree.Code.Widening
import ClassTree.Proofs.Bytes.Reading
import ClassTree.Proofs.Pool.Lookup
import Mathlib.Tactic.IntervalCases

namespace ClassTree

/-- What the kinds of instructions are for, and operands that fit. -/
def Instruction.Canonical {ι : Type} : Instruction ι → Prop
  | .plain op => Code.isPlain op = true
  | .int op operand =>
    op = .bipush ∧ -128 ≤ operand.toInt ∧ operand.toInt ≤ 127 ∨
    op = .sipush ∧ -32768 ≤ operand.toInt ∧ operand.toInt ≤ 32767 ∨
    op = .newarray ∧ 0 ≤ operand.toInt ∧ operand.toInt ≤ 255
  | .var op _ => Code.isVar op = true
  | .type op _ => Code.isType op = true
  | .field op _ => op.between .getstatic .putfield = true
  | .invoke op _ _ => op.between .invokevirtual .invokestatic = true ∨ op = .invokeinterface
  | .invokeDynamic _ _ bootstrap arguments =>
    bootstrap.Canonical ∧ ∀ value ∈ arguments, value.Canonical
  | .jump op _ =>
    op.isConditional = true ∨ op = .goto ∨ op = .jsr ∨ op.isWideJump = true
  | .load value => value.Canonical
  | .tableSwitch low high _ targets =>
    1 ≤ targets.length ∧ (targets.length : Int) = high.toInt - low.toInt + 1
  | _ => True

/-- Whether the bootstrap table of a pool has what the instruction needs where the pool says. -/
def Instruction.Linked {ι : Type} (b : Pool.Builder) : Instruction ι → Prop
  | .invokeDynamic _ _ bootstrap arguments =>
    ∃ place, Pool.Build.Yields (Pool.Build.bootstrapMethod bootstrap arguments) b place b ∧
      b.table.bootstrapMethod place = .ok (bootstrap, arguments)
  | _ => True

namespace Code

open Pool BigEndian
open Reader hiding u8 u16 i8 i16 i32

def normal : Instruction Nat → Instruction Nat
  | .jump op target =>
    .jump (if op = .gotoWide then .goto else if op = .jsrWide then .jsr else op) target
  | .lookupSwitch default cases => .lookupSwitch default (sortCases cases)
  | other => other

theorem forall_opcode {P : Opcode → Prop} (h : ∀ n < 256, P ⟨UInt8.ofNat n⟩) (op : Opcode) :
    P op := by
  have := h op.byte.toNat op.byte.toNat_lt
  rwa [UInt8.ofNat_toNat] at this

variable {table : Table} {offset p : Nat} {op : Opcode}

/-- A code between two others is counted from the first of them. -/
theorem exists_of_between {first last : Opcode} (h : op.between first last = true) :
    ∃ k ≤ last.since first, op = ⟨first.byte + UInt8.ofNat k⟩ := by
  obtain ⟨byte⟩ := op
  rw [Opcode.between, Bool.and_eq_true, decide_eq_true_iff, decide_eq_true_iff] at h
  have hl : first.byte.toNat ≤ byte.toNat := UInt8.le_iff_toNat_le.mp h.1
  have hu : byte.toNat ≤ last.byte.toNat := UInt8.le_iff_toNat_le.mp h.2
  refine ⟨byte.toNat - first.byte.toNat, Nat.sub_le_sub_right hu _, ?_⟩
  congr 1
  apply UInt8.toNat_inj.mp
  have hlt := byte.toNat_lt
  rw [UInt8.toNat_add, UInt8.toNat_ofNat']
  omega

theorem exists_of_isConditional (h : op.isConditional = true) :
    (∃ k ≤ 13, op = ⟨Opcode.ifeq.byte + UInt8.ofNat k⟩) ∨ op = .ifnull ∨ op = .ifnonnull := by
  rw [Opcode.isConditional, Bool.or_eq_true, Bool.or_eq_true, or_assoc, beq_iff_eq,
    beq_iff_eq] at h
  exact h.imp_left exists_of_between

/-- An instruction is its first byte and its operands. -/
theorem reads_instruction {operands : Bytes} {insn : Instruction Nat}
    (h : Reads (readOperands table offset op) (p + 1) operands insn) :
    Reads (readInstruction table offset) p (u8 op.byte ++ operands) insn :=
  (reads_u8 op.byte p).bind h

theorem reads_plain (h : isPlain op = true) :
    Reads (readInstruction table offset) p (u8 op.byte) (.plain op) := by
  have := @reads_instruction table offset p op [] (.plain op) (by
    rw [readOperands, if_pos h]
    exact reads_pure _ _)
  simpa using this

theorem toInt32_toInt8 {n : Int32} (hl : -128 ≤ n.toInt) (hu : n.toInt ≤ 127) :
    n.toInt8.toInt32 = n := by
  apply Int32.toInt_inj.mp
  rw [Int8.toInt_toInt32, Int32.toInt_toInt8, Int.bmod_eq_of_le (by omega) (by omega)]

theorem toInt32_toInt16 {n : Int32} (hl : -32768 ≤ n.toInt) (hu : n.toInt ≤ 32767) :
    n.toInt16.toInt32 = n := by
  apply Int32.toInt_inj.mp
  rw [Int16.toInt_toInt32, Int32.toInt_toInt16, Int.bmod_eq_of_le (by omega) (by omega)]

theorem toInt16_toInt8 {n : Int16} (hl : -128 ≤ n.toInt) (hu : n.toInt ≤ 127) :
    n.toInt8.toInt16 = n := by
  apply Int16.toInt_inj.mp
  rw [Int8.toInt_toInt16, Int16.toInt_toInt8, Int.bmod_eq_of_le (by omega) (by omega)]

theorem toInt32_toUInt8 {n : Int32} (hl : 0 ≤ n.toInt) (hu : n.toInt ≤ 255) :
    n.toInt8.toUInt8.toUInt32.toInt32 = n := by
  obtain ⟨k, hk⟩ := Int.eq_ofNat_of_zero_le hl
  have hn : n = Int32.ofNat k := by
    apply Int32.toInt_inj.mp
    rw [hk, Int32.toInt_ofNat_of_lt (by omega)]
  have hlt : k < UInt8.size := by
    rw [hk] at hu
    exact Nat.lt_succ_of_le (Int.ofNat_le.mp hu)
  rw [hn, Int32.toInt8_ofNat', Int8.toUInt8_ofNat', UInt8.toUInt32_ofNat' hlt,
    UInt32.toInt32_ofNat']

theorem reads_int {operand : Int32} (h : (Instruction.int op operand : Instruction Nat).Canonical) :
    Reads (readInstruction table offset) p (encodeInt op operand) (.int op operand) := by
  rcases h with ⟨rfl, hl, hu⟩ | ⟨rfl, hl, hu⟩ | ⟨rfl, hl, hu⟩
  · refine reads_instruction ?_
    have hr := (reads_i8 operand.toInt8 (p + 1)).map
      fun x => (Instruction.int .bipush x.toInt32 : Instruction Nat)
    rwa [toInt32_toInt8 hl hu] at hr
  · refine reads_instruction ?_
    have hr := (reads_i16 operand.toInt16 (p + 1)).map
      fun x => (Instruction.int .sipush x.toInt32 : Instruction Nat)
    rwa [toInt32_toInt16 hl hu] at hr
  · refine reads_instruction ?_
    have hr := (reads_u8 operand.toInt8.toUInt8 (p + 1)).map
      fun x => (Instruction.int .newarray x.toUInt32.toInt32 : Instruction Nat)
    rwa [toInt32_toUInt8 hl hu] at hr

/-- Operations on locals and jumps fail the tests that come first when operands are read. -/
theorem not_plain_or_constant : ∀ op : Opcode, isVar op = true ∨
    op.between .iload0 .aload3 = true ∨ op.between .istore0 .astore3 = true ∨
    op.isConditional = true ∨ op = .goto ∨ op = .jsr →
    isPlain op = false ∧ op ≠ .bipush ∧ op ≠ .sipush ∧ op ≠ .newarray ∧ op ≠ .ldc ∧
      ¬ (op = .ldcWide ∨ op = .ldc2Wide) :=
  forall_opcode (by decide +kernel)

/-- The loads, stores and `RET` with a byte for the local. -/
theorem readOperands_var (h : isVar op = true) :
    readOperands table offset op = (do return .var op (← Reader.u8).toUInt16) := by
  obtain ⟨h₁, h₂, h₃, h₄, h₅, h₆⟩ := not_plain_or_constant op (.inl h)
  simp only [readOperands, h₁, h₂, h₃, h₄, h₅, h₆, h, if_true, if_false, Bool.false_eq_true]

def shortForm (op : Opcode) : Opcode × Nat :=
  if op.between .iload0 .aload3 then
    (⟨Opcode.iload.byte + UInt8.ofNat (op.since .iload0 / 4)⟩, op.since .iload0 % 4)
  else (⟨Opcode.istore.byte + UInt8.ofNat (op.since .istore0 / 4)⟩, op.since .istore0 % 4)

theorem readOperands_short
    (h : op.between .iload0 .aload3 = true ∨ op.between .istore0 .astore3 = true) :
    readOperands table offset op =
      pure (.var (shortForm op).1 (UInt16.ofNat (shortForm op).2)) := by
  obtain ⟨h₁, h₂, h₃, h₄, h₅, h₆⟩ := not_plain_or_constant op (.inr (h.imp_right .inl))
  have h₇ : isVar op = false := by
    rcases h with h | h <;> obtain ⟨k, hk, rfl⟩ := exists_of_between h
    all_goals
      change k ≤ 19 at hk
      interval_cases k <;> rfl
  simp only [readOperands, shortForm, h₁, h₂, h₃, h₄, h₅, h₆, h₇, if_false, Bool.false_eq_true]
  by_cases hl : op.between .iload0 .aload3 = true
  · simp only [hl, if_true]
  · simp only [h.resolve_left hl, if_true, hl, if_false, Bool.false_eq_true]

/-- The forms of one byte name the local with the operation. -/
theorem shortForm_shortVar (h : isVar op = true) {slot : UInt16}
    (hs : isShortVar op slot = true) :
    (Opcode.between ⟨shortVar op slot⟩ .iload0 .aload3 = true ∨
      Opcode.between ⟨shortVar op slot⟩ .istore0 .astore3 = true) ∧
      shortForm ⟨shortVar op slot⟩ = (op, slot.toNat) := by
  have hle : slot ≤ 3 := by
    rw [isShortVar, Bool.and_eq_true] at hs
    exact of_decide_eq_true hs.1
  have hlt : slot.toNat < 4 := Nat.lt_succ_of_le (UInt16.le_iff_toNat_le.mp hle)
  have hall : ∀ k : Fin 4, ∀ n < 256, isVar ⟨UInt8.ofNat n⟩ = true →
      isShortVar ⟨UInt8.ofNat n⟩ (UInt16.ofNat k) = true →
      (Opcode.between ⟨shortVar ⟨UInt8.ofNat n⟩ (UInt16.ofNat k)⟩ .iload0 .aload3 = true ∨
        Opcode.between ⟨shortVar ⟨UInt8.ofNat n⟩ (UInt16.ofNat k)⟩ .istore0 .astore3 = true) ∧
        shortForm ⟨shortVar ⟨UInt8.ofNat n⟩ (UInt16.ofNat k)⟩ = (⟨UInt8.ofNat n⟩, k.val) := by
    decide +kernel
  have hslot := hall ⟨slot.toNat, hlt⟩ op.byte.toNat op.byte.toNat_lt
  simp only [UInt8.ofNat_toNat, UInt16.ofNat_toNat] at hslot
  exact hslot h hs

theorem readOperands_shortVar (h : isVar op = true) {slot : UInt16}
    (hs : isShortVar op slot = true) :
    readOperands table offset ⟨shortVar op slot⟩ = pure (.var op slot) := by
  obtain ⟨hform, heq⟩ := shortForm_shortVar h hs
  rw [readOperands_short hform, heq, UInt16.ofNat_toNat]

theorem toUInt16_toUInt8 {n : UInt16} (h : n ≤ 255) : n.toUInt8.toUInt16 = n := by
  apply UInt16.toNat_inj.mp
  have hle : n.toNat ≤ 255 := UInt16.le_iff_toNat_le.mp h
  rw [UInt8.toNat_toUInt16, UInt16.toNat_toUInt8]
  omega

theorem reads_var (h : isVar op = true) (slot : UInt16) :
    Reads (readInstruction table offset) p (encodeVar op slot) (.var op slot) := by
  unfold encodeVar
  split
  · rename_i hs
    have hr := @reads_instruction table offset p ⟨shortVar op slot⟩ [] (.var op slot) (by
      rw [readOperands_shortVar h hs]
      exact reads_pure _ _)
    simpa using hr
  · split
    · rename_i hle
      refine reads_instruction ?_
      rw [readOperands_var h]
      have hr := (reads_u8 slot.toUInt8 (p + 1)).map
        fun x => (Instruction.var op x.toUInt16 : Instruction Nat)
      rwa [toUInt16_toUInt8 hle] at hr
    · rw [List.append_assoc]
      refine reads_instruction ?_
      have hwide : Reads (readWide offset) (p + 1) (u8 op.byte ++ u16 slot) (.var op slot) := by
        refine (reads_u8 op.byte (p + 1)).bind ?_
        rw [if_pos h]
        exact (reads_u16 slot _).map fun x => (Instruction.var op x : Instruction Nat)
      exact hwide

theorem reads_increment (slot : UInt16) (amount : Int16) :
    Reads (readInstruction table offset) p (encodeIncrement slot amount)
      (.increment slot amount) := by
  unfold encodeIncrement
  split
  · rename_i hs
    rw [isShortIncrement, Bool.and_eq_true, Bool.and_eq_true] at hs
    obtain ⟨⟨hle, hl⟩, hu⟩ := hs
    rw [List.append_assoc]
    refine reads_instruction ?_
    refine (reads_u8 slot.toUInt8 (p + 1)).bind ?_
    have hr := (reads_i8 amount.toInt8 (p + 1 + (u8 slot.toUInt8).length)).map fun x =>
      (Instruction.increment slot.toUInt8.toUInt16 x.toInt16 : Instruction Nat)
    rwa [toInt16_toInt8 (of_decide_eq_true hl) (of_decide_eq_true hu),
      show Instruction.increment slot.toUInt8.toUInt16 amount = Instruction.increment slot amount by
        rw [toUInt16_toUInt8 (of_decide_eq_true hle)]] at hr
  · rw [List.append_assoc, List.append_assoc]
    refine reads_instruction ?_
    have hwide : Reads (readWide offset) (p + 1)
        (u8 Opcode.iinc.byte ++ (u16 slot ++ i16 amount)) (.increment slot amount) := by
      refine (reads_u8 Opcode.iinc.byte (p + 1)).bind ((reads_u16 slot _).bind ?_)
      exact (reads_i16 amount _).map fun x => (Instruction.increment slot x : Instruction Nat)
    exact hwide

/-- A constant is read as its index, and then looked up. -/
theorem reads_lookup {α : Type} {look : Index → Except Error α} {index : Index} {a : α}
    (h : look index = .ok a) {next : α → Reader (Instruction Nat)} {more : Bytes}
    {insn : Instruction Nat} (hn : Reads (next a) (p + 2) more insn) :
    Reads (Reader.u16 >>= fun i => liftM (look i) >>= next) p (u16 index ++ more)
      insn := by
  have hn' : Reads (liftM (look index) >>= next) (p + 2) ([] ++ more) insn :=
    (reads_lift h _).bind hn
  refine (reads_u16 index p).bind ?_
  rwa [length_u16]

theorem reads_type (h : isType op = true) {index : Index} {name : String}
    (hn : table.className index = .ok name) :
    Reads (readInstruction table offset) p (u8 op.byte ++ u16 index) (.type op name) := by
  have hop : op = .new ∨ op = .anewarray ∨ op = .checkcast ∨ op = .instanceof := by
    simpa [isType, or_assoc] using h
  have hr : Reads (do return .type op (← table.className (← Reader.u16))) (p + 1)
      (u16 index ++ []) (.type op name : Instruction Nat) :=
    reads_lookup hn (reads_pure _ _)
  rw [List.append_nil] at hr
  refine reads_instruction ?_
  rcases hop with rfl | rfl | rfl | rfl <;> exact hr

theorem between_getstatic (h : op.between .getstatic .putfield = true) :
    op = .getstatic ∨ op = .putstatic ∨ op = .getfield ∨ op = .putfield := by
  obtain ⟨k, hk, rfl⟩ := exists_of_between h
  change k ≤ 3 at hk
  interval_cases k <;> decide

theorem between_invokevirtual (h : op.between .invokevirtual .invokestatic = true) :
    op = .invokevirtual ∨ op = .invokespecial ∨ op = .invokestatic := by
  obtain ⟨k, hk, rfl⟩ := exists_of_between h
  change k ≤ 2 at hk
  interval_cases k <;> decide

theorem reads_field (h : op.between .getstatic .putfield = true) {index : Index} {member : Member}
    {onInterface : Bool} (hm : table.member index = .ok (member, onInterface)) :
    Reads (readInstruction table offset) p (u8 op.byte ++ u16 index) (.field op member) := by
  have hr : Reads (do
      let found ← table.member (← Reader.u16)
      return .field op found.1) (p + 1) (u16 index ++ [])
      (.field op member : Instruction Nat) :=
    reads_lookup hm (reads_pure _ _)
  rw [List.append_nil] at hr
  refine reads_instruction ?_
  rcases between_getstatic h with rfl | rfl | rfl | rfl <;> exact hr

theorem reads_invoke (h : op.between .invokevirtual .invokestatic = true) {index : Index}
    {member : Member} {onInterface : Bool}
    (hm : table.member index = .ok (member, onInterface)) :
    Reads (readInstruction table offset) p (u8 op.byte ++ u16 index)
      (.invoke op member onInterface) := by
  have hr : Reads (do
      let found ← table.member (← Reader.u16)
      return .invoke op found.1 found.2) (p + 1) (u16 index ++ [])
      (.invoke op member onInterface : Instruction Nat) :=
    reads_lookup hm (reads_pure _ _)
  rw [List.append_nil] at hr
  refine reads_instruction ?_
  rcases between_invokevirtual h with rfl | rfl | rfl <;> exact hr

/-- The number of arguments follows, and is not needed. -/
theorem reads_invokeInterface {index : Index} {member : Member} {onInterface : Bool}
    (hm : table.member index = .ok (member, onInterface)) (count : UInt8) :
    Reads (readInstruction table offset) p
      (u8 Opcode.invokeinterface.byte ++ (u16 index ++ (u8 count ++ u8 0)))
      (.invoke .invokeinterface member onInterface) := by
  refine reads_instruction ?_
  have hc : Reads (do
      let _ ← Reader.u8
      let _ ← Reader.u8
      return .invoke .invokeinterface member onInterface) (p + 1 + 2)
      (u8 count ++ u8 0)
      (.invoke .invokeinterface member onInterface : Instruction Nat) :=
    (reads_u8 count _).bind ((reads_u8 0 _).map fun _ => _)
  exact reads_lookup hm hc

theorem callSite_eq {index place pair : Index} {name descriptor : String}
    (hi : table.get index = .ok (.invokeDynamic place pair))
    (hp : table.nameAndType pair = .ok (name, descriptor)) {method : Handle}
    {arguments : List Literal} :
    callSite table index = .ok (.invokeDynamic name descriptor method arguments) ↔
      table.bootstrapMethod place = .ok (method, arguments) := by
  cases hb : table.bootstrapMethod place with
  | error fault => simp [callSite, hi, hp, hb, bind, Except.bind]
  | ok found => simp [callSite, hi, hp, hb, bind, Except.bind, pure, Except.pure, Prod.ext_iff]

/-- A call site is looked up at the index that is read. -/
theorem run_invokeDynamic (table : Table) (index : Index) (rest : Bytes) (base : Nat) :
    (readInstruction table offset).run
      ⟨u8 Opcode.invokedynamic.byte ++ (u16 index ++ u16 0) ++ rest, p, base⟩ =
      (liftM (callSite table index) : Reader (Instruction Nat)).run ⟨rest, p + 5, base⟩ := by
  simp only [List.append_assoc]
  rw [readInstruction, (reads_u8 _ p).run_bind]
  change (Reader.u16 >>= fun index => Reader.u16 >>= fun _ =>
    liftM (callSite table index)).run _ = _
  rw [(reads_u16 index _).run_bind, (reads_u16 0 _).run_bind]
  simp [Nat.add_assoc]

theorem reads_invokeDynamic {index : Index} {insn : Instruction Nat}
    (h : callSite table index = .ok insn) :
    Reads (readInstruction table offset) p
      (u8 Opcode.invokedynamic.byte ++ (u16 index ++ u16 0)) insn := by
  intro rest base
  rw [run_invokeDynamic, h]
  simp

theorem reads_load {value : Literal} {index : Index} (h : table.literal index = .ok value) :
    Reads (readInstruction table offset) p (encodeLoad value index) (.load value) := by
  have hwide : Reads (do return .load (← table.literal (← Reader.u16))) (p + 1)
      (u16 index ++ []) (.load value : Instruction Nat) :=
    reads_lookup h (reads_pure _ _)
  rw [List.append_nil] at hwide
  unfold encodeLoad
  split
  · exact reads_instruction hwide
  · split
    · rename_i hle
      refine reads_instruction ?_
      rw [← toUInt16_toUInt8 hle] at h
      have hr : Reads (do return .load (← table.literal (← Reader.u8).toUInt16)) (p + 1)
          (u8 index.toUInt8 ++ []) (.load value : Instruction Nat) :=
        (reads_u8 index.toUInt8 (p + 1)).bind ((reads_lift h _).map Instruction.load)
      rwa [List.append_nil] at hr
    · exact reads_instruction hwide

theorem reads_multiArray {index : Index} {descriptor : String} (dimensions : UInt8)
    (h : table.className index = .ok descriptor) :
    Reads (readInstruction table offset) p
      (u8 Opcode.multianewarray.byte ++ (u16 index ++ u8 dimensions))
      (.multiArray descriptor dimensions) := by
  have hr : Reads (do return .multiArray (← table.className (← Reader.u16)) (← Reader.u8)) (p + 1)
      (u16 index ++ u8 dimensions)
      (.multiArray descriptor dimensions : Instruction Nat) :=
    reads_lookup h ((reads_u8 dimensions _).map (Instruction.multiArray descriptor))
  exact reads_instruction hr

theorem toInt_displacement {goal : Nat} (ho : offset ≤ maxLength) (hg : goal ≤ maxLength) :
    (displacement offset goal).toInt = (goal : Int) - offset := by
  have hsize : Int32.size = 4294967296 := rfl
  have hmax : maxLength = 65535 := rfl
  rw [displacement, Int32.toInt_ofInt, hsize, Int.bmod_eq_of_le (by omega) (by omega)]

theorem target_eq {goal : Nat} {distance : Int} (h : distance = (goal : Int) - offset) :
    target offset distance = pure goal := by
  have hsum : (offset : Int) + distance = goal := by omega
  rw [target, hsum]
  exact if_neg (Int.not_lt.mpr (Int.natCast_nonneg goal))

theorem reads_wideTarget {goal : Nat} (ho : offset ≤ maxLength) (hg : goal ≤ maxLength) (p : Nat) :
    Reads (wideTarget offset) p (i32 (displacement offset goal)) goal := by
  have hr := (reads_i32 (displacement offset goal) p).bind
    (f := fun distance => target offset distance.toInt) (c := goal) (by
      rw [target_eq (toInt_displacement ho hg)]
      exact reads_pure _ _)
  rwa [List.append_nil] at hr

theorem readOperands_jump (h : op.isConditional = true ∨ op = .goto ∨ op = .jsr) :
    readOperands table offset op = (do return .jump op (← target offset (← Reader.i16).toInt)) := by
  have hrest : isVar op = false ∧ op.between .iload0 .aload3 = false ∧
      op.between .istore0 .astore3 = false ∧ op ≠ .iinc ∧
      (op.between .ifeq .jsr = true ∨ op = .ifnull ∨ op = .ifnonnull) := by
    rcases h with h | rfl | rfl
    · obtain ⟨k, hk, rfl⟩ | rfl | rfl := exists_of_isConditional h
      · interval_cases k <;> decide
      · decide
      · decide
    · decide
    · decide
  obtain ⟨h₁, h₂, h₃, h₄, h₅, h₆⟩ := not_plain_or_constant op (.inr (.inr (.inr h)))
  obtain ⟨h₇, h₈, h₉, h₁₀, h₁₁⟩ := hrest
  simp only [readOperands, h₁, h₂, h₃, h₄, h₅, h₆, h₇, h₈, h₉, h₁₀, h₁₁, if_true, if_false,
    Bool.false_eq_true]

theorem reads_jump {goal : Nat} (h : op.isConditional = true ∨ op = .goto ∨ op = .jsr)
    (ho : offset ≤ maxLength) (hg : goal ≤ maxLength) (hl : -0x8000 ≤ (goal : Int) - offset)
    (hu : (goal : Int) - offset ≤ 0x7FFF) :
    Reads (readInstruction table offset) p
      (u8 op.byte ++ i16 (displacement offset goal).toInt16) (.jump op goal) := by
  have hd : (displacement offset goal).toInt16.toInt = (goal : Int) - offset := by
    rw [Int32.toInt_toInt16, toInt_displacement ho hg, Int.bmod_eq_of_le (by omega) (by omega)]
  refine reads_instruction ?_
  rw [readOperands_jump h]
  have hr : Reads (do return .jump op (← target offset (← Reader.i16).toInt)) (p + 1)
      (i16 (displacement offset goal).toInt16 ++ []) (.jump op goal : Instruction Nat) :=
    (reads_i16 _ (p + 1)).bind (by
      rw [target_eq hd]
      exact reads_pure _ _)
  rwa [List.append_nil] at hr

theorem reads_wideJump {goal : Nat} (h : op.isWideJump = true) (ho : offset ≤ maxLength)
    (hg : goal ≤ maxLength) :
    Reads (readInstruction table offset) p (u8 op.byte ++ i32 (displacement offset goal))
      (normal (.jump op goal)) := by
  have hop : op = .gotoWide ∨ op = .jsrWide := by simpa [Opcode.isWideJump] using h
  refine reads_instruction ?_
  rcases hop with rfl | rfl
  · exact (reads_wideTarget ho hg _).map (Instruction.jump .goto)
  · exact (reads_wideTarget ho hg _).map (Instruction.jump .jsr)

theorem reads_padding (offset : Nat) :
    Reads align4 (offset + 1) (List.replicate (padding offset) 0) () :=
  reads_align4 (offset + 1)

theorem reads_tableSwitch {low high : Int32} {default : Nat} {targets : List Nat}
    (hlow : 1 ≤ targets.length) (hcount : (targets.length : Int) = high.toInt - low.toInt + 1)
    (ho : offset ≤ maxLength) (hd : default ≤ maxLength) (ht : ∀ goal ∈ targets, goal ≤ maxLength) :
    Reads (readInstruction table offset) offset
      (u8 Opcode.tableswitch.byte ++ (List.replicate (padding offset) 0 ++
        (i32 (displacement offset default) ++ (i32 low ++ (i32 high ++
          targets.flatMap fun goal => i32 (displacement offset goal))))))
      (.tableSwitch low high default targets) := by
  refine reads_instruction ((reads_padding offset).bind
    ((reads_wideTarget ho hd _).bind ((reads_i32 low _).bind ((reads_i32 high _).bind ?_))))
  have hle : ¬ high < low := by
    rw [Int32.lt_iff_toInt_lt]
    omega
  have hnumber : (high.toInt - low.toInt + 1).toNat = targets.length := by omega
  rw [if_neg hle, hnumber]
  have hr := reads_times (g := id) fun goal hgoal p => reads_wideTarget ho (ht goal hgoal) p
  rw [List.map_id] at hr
  exact (hr _).map (Instruction.tableSwitch low high default)

theorem reads_case {key : Int32} {goal : Nat} (ho : offset ≤ maxLength) (hg : goal ≤ maxLength)
    (p : Nat) :
    Reads (do
      let key ← Reader.i32
      return (key, ← wideTarget offset)) p
      (i32 key ++ i32 (displacement offset goal)) (key, goal) :=
  (reads_i32 key p).bind ((reads_wideTarget ho hg _).map (Prod.mk key))

theorem reads_lookupSwitch {default : Nat} {cases : List (Int32 × Nat)}
    (hcount : cases.length ≤ maxLength) (ho : offset ≤ maxLength) (hd : default ≤ maxLength)
    (hc : ∀ entry ∈ cases, entry.2 ≤ maxLength) :
    Reads (readInstruction table offset) offset
      (u8 Opcode.lookupswitch.byte ++ (List.replicate (padding offset) 0 ++
        (i32 (displacement offset default) ++ (i32 (Int32.ofInt cases.length) ++
          cases.flatMap fun entry => i32 entry.1 ++ i32 (displacement offset entry.2)))))
      (.lookupSwitch default cases) := by
  refine reads_instruction ((reads_padding offset).bind
    ((reads_wideTarget ho hd _).bind ((reads_i32 _ _).bind ?_)))
  have hnumber : (Int32.ofInt cases.length).toInt = cases.length := by
    have hsize : Int32.size = 4294967296 := rfl
    have hmax : maxLength = 65535 := rfl
    rw [Int32.toInt_ofInt, hsize, Int.bmod_eq_of_le (by omega) (by omega)]
  have hle : ¬ Int32.ofInt cases.length < 0 := by
    rw [Int32.lt_iff_toInt_lt, hnumber]
    exact Int.not_lt.mpr (Int.natCast_nonneg _)
  rw [if_neg hle, hnumber, Int.toNat_natCast]
  have hr := reads_times (g := id) fun entry hentry p => reads_case ho (hc entry hentry) p
  rw [List.map_id] at hr
  exact (hr _).map (Instruction.lookupSwitch default)

open Build in
theorem reads_encodedInvoke {member : Member} {onInterface : Bool} {index : Index} {count : Bytes}
    {b b' : Builder} (h : (Instruction.invoke op member onInterface : Instruction Nat).Canonical)
    (hc : Yields (MonadExcept.ofExcept (encodeArgumentCount op member.descriptor)) b count b')
    (hm : table.member index = .ok (member, onInterface)) :
    Reads (readInstruction table offset) p (u8 op.byte ++ u16 index ++ count)
      (.invoke op member onInterface) := by
  rw [List.append_assoc]
  unfold encodeArgumentCount at hc
  split at hc
  · rename_i hop
    subst hop
    split at hc
    · rename_i type _
      obtain ⟨rfl, rfl⟩ := yields_pure.mp hc
      exact reads_invokeInterface hm _
    · exact absurd hc not_yields_throw
  · rename_i hop
    obtain ⟨rfl, rfl⟩ := yields_pure.mp hc
    rw [List.append_nil]
    exact reads_invoke (h.resolve_right hop) hm

theorem normal_jump {goal : Nat} (h : op.isWideJump = false) :
    normal (.jump op goal) = .jump op goal := by
  have hop : op ≠ .gotoWide ∧ op ≠ .jsrWide := by simpa [Opcode.isWideJump] using h
  simp [normal, hop.1, hop.2]

/-- Whether the positions that an instruction refers to can be expressed in it. -/
def Reaches (offset : Nat) : Instruction Nat → Prop
  | .jump op goal => goal ≤ maxLength ∧
    (op.isWideJump = false → -0x8000 ≤ (goal : Int) - offset ∧ (goal : Int) - offset ≤ 0x7FFF)
  | .tableSwitch _ _ default targets => default ≤ maxLength ∧ ∀ goal ∈ targets, goal ≤ maxLength
  | .lookupSwitch default cases =>
    default ≤ maxLength ∧ cases.length ≤ maxLength ∧ ∀ entry ∈ cases, entry.2 ≤ maxLength
  | _ => True

theorem mem_sortCases {cases : List (Int32 × Nat)} {entry : Int32 × Nat} :
    entry ∈ sortCases cases ↔ entry ∈ cases :=
  List.mem_mergeSort

theorem length_sortCases (cases : List (Int32 × Nat)) :
    (sortCases cases).length = cases.length :=
  List.length_mergeSort cases

open Build in
/-- An instruction is read back from its bytes with the table of the pool that has all its
constants. -/
theorem reads_encodeInstruction {insn : Instruction Nat} {b : Builder} {bytes : Bytes}
    (hreal : insn.isMarker = false) (hcan : insn.Canonical) (ho : offset ≤ maxLength)
    (hreach : Reaches offset insn) (hy : Yields (encodeInstruction offset insn) b bytes b)
    (hs : b.Sound) (hlinked : insn.Linked b) :
    Reads (readInstruction b.table offset) offset bytes (normal insn) := by
  cases insn with
  | plain op =>
    obtain ⟨rfl, -⟩ := yields_pure.mp hy
    exact reads_plain hcan
  | int op operand =>
    obtain ⟨rfl, -⟩ := yields_pure.mp hy
    exact reads_int hcan
  | var op slot =>
    obtain ⟨rfl, -⟩ := yields_pure.mp hy
    exact reads_var hcan slot
  | type op name =>
    obtain ⟨index, middle, hi, hp⟩ := yields_bind.mp hy
    obtain ⟨rfl, rfl⟩ := yields_pure.mp hp
    exact reads_type hcan (className_found hi (.refl _) hs)
  | field op member =>
    obtain ⟨index, middle, hi, hp⟩ := yields_bind.mp hy
    obtain ⟨rfl, rfl⟩ := yields_pure.mp hp
    exact reads_field hcan (field_found hi (.refl _) hs)
  | invoke op member onInterface =>
    obtain ⟨index, middle₁, hi, hy⟩ := yields_bind.mp hy
    obtain ⟨count, middle₂, hc, hp⟩ := yields_bind.mp hy
    obtain ⟨rfl, rfl⟩ := yields_pure.mp hp
    have hm := method_found hi ((lawful_ofExcept _).grows hc) hs
    exact reads_encodedInvoke hcan hc hm
  | invokeDynamic name descriptor method arguments =>
    obtain ⟨index, middle, hi, hp⟩ := yields_bind.mp hy
    obtain ⟨rfl, rfl⟩ := yields_pure.mp hp
    obtain ⟨place, pair, hget, hn, hb⟩ := invokeDynamic_found hi (.refl _) hs
    obtain ⟨place', hb', hfound⟩ := hlinked
    obtain rfl := hb.value_eq hb'
    rw [List.append_assoc]
    exact reads_invokeDynamic ((callSite_eq hget hn).mpr hfound)
  | jump op goal =>
    obtain ⟨rfl, -⟩ := yields_pure.mp hy
    obtain ⟨hg, hnarrow⟩ := hreach
    cases hwide : op.isWideJump with
    | true => exact reads_wideJump hwide ho hg
    | false =>
      obtain ⟨hl, hu⟩ := hnarrow hwide
      have hop : op.isConditional = true ∨ op = .goto ∨ op = .jsr := by
        simpa [Instruction.Canonical, hwide] using hcan
      rw [normal_jump hwide]
      exact reads_jump hop ho hg hl hu
  | load value =>
    obtain ⟨index, middle, hi, hp⟩ := yields_bind.mp hy
    obtain ⟨rfl, rfl⟩ := yields_pure.mp hp
    exact reads_load (literal_found hcan hi (.refl _) hs)
  | increment slot amount =>
    obtain ⟨rfl, -⟩ := yields_pure.mp hy
    exact reads_increment slot amount
  | tableSwitch low high default targets =>
    obtain ⟨rfl, -⟩ := yields_pure.mp hy
    simp only [List.append_assoc]
    exact reads_tableSwitch hcan.1 hcan.2 ho hreach.1 hreach.2
  | lookupSwitch default cases =>
    obtain ⟨rfl, -⟩ := yields_pure.mp hy
    obtain ⟨hd, hcount, hc⟩ := hreach
    rw [← length_sortCases] at hcount ⊢
    simp only [List.append_assoc]
    exact reads_lookupSwitch hcount ho hd fun entry he => hc entry (mem_sortCases.mp he)
  | multiArray descriptor dimensions =>
    obtain ⟨index, middle, hi, hp⟩ := yields_bind.mp hy
    obtain ⟨rfl, rfl⟩ := yields_pure.mp hp
    rw [List.append_assoc]
    exact reads_multiArray dimensions (className_found hi (.refl _) hs)
  | label | line | frame => cases hreal

open Build in
/-- An instruction that is read back has what it needs in the bootstrap table. -/
theorem linked_of_run {insn : Instruction Nat} {b : Builder} {bytes rest : Bytes} {base : Nat}
    {cursor : Cursor} (hy : Yields (encodeInstruction offset insn) b bytes b) (hs : b.Sound)
    (hr : (readInstruction b.table offset).run ⟨bytes ++ rest, offset, base⟩ =
      .ok (normal insn, cursor)) : insn.Linked b := by
  cases insn with
  | invokeDynamic name descriptor method arguments =>
    obtain ⟨index, middle, hi, hp⟩ := yields_bind.mp hy
    obtain ⟨rfl, rfl⟩ := yields_pure.mp hp
    obtain ⟨place, pair, hget, hn, hb⟩ := invokeDynamic_found hi (.refl _) hs
    refine ⟨place, hb, (callSite_eq hget hn).mp ?_⟩
    rw [List.append_assoc (u8 _), run_invokeDynamic] at hr
    cases hc : callSite middle.table index with
    | error fault => simp [hc] at hr
    | ok found =>
      have he : found = normal (.invokeDynamic name descriptor method arguments) := by
        rw [hc] at hr
        exact congrArg Prod.fst (Except.ok.inj hr)
      rw [he]
      rfl
  | _ => trivial

end Code
end ClassTree
