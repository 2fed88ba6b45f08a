import ClassTree.Code.Decoding
import ClassTree.Proofs.Bytes.Advancing

namespace ClassTree.Code

open Reader

theorem advances_target (offset : Nat) (displacement : Int) :
    Advances (target offset displacement) :=
  finds_ite (finds_fail _) (finds_pure trivial)

theorem advances_wideTarget (offset : Nat) : Advances (wideTarget offset) :=
  advances_i32.bind fun _ => advances_target _ _

abbrev FindsReal (reader : Reader (Instruction Nat)) : Prop :=
  Finds reader fun insn => insn.isMarker = false

theorem findsReal_readWide (offset : Nat) : FindsReal (readWide offset) :=
  advances_u8.bind fun _ => finds_ite (advances_u16.map fun _ => rfl)
    (finds_ite (advances_u16.bind fun _ => advances_i16.map fun _ => rfl) (finds_fail _))

theorem findsReal_readTableSwitch (offset : Nat) : FindsReal (readTableSwitch offset) := by
  have htargets (count : Nat) := advances_times (advances_wideTarget offset) count
  refine advances_align4.bind fun _ => (advances_wideTarget offset).bind fun _ =>
    advances_i32.bind fun low => advances_i32.bind fun high => ?_
  refine finds_ite ?_ ?_
  · exact Advances.bind (finds_fail _) fun _ => (htargets _).map fun _ => rfl
  · exact (htargets _).map fun _ => rfl

theorem findsReal_readLookupSwitch (offset : Nat) : FindsReal (readLookupSwitch offset) := by
  have hcase : Advances (do
      let key ← i32
      return (key, ← wideTarget offset)) :=
    advances_i32.bind fun _ => (advances_wideTarget offset).map fun _ => trivial
  have hcases (count : Nat) := advances_times hcase count
  refine advances_align4.bind fun _ => (advances_wideTarget offset).bind fun _ =>
    advances_i32.bind fun count => ?_
  refine finds_ite ?_ ?_
  · exact Advances.bind (finds_fail _) fun _ => (hcases _).map fun _ => rfl
  · exact (hcases _).map fun _ => rfl

theorem isMarker_callSite {table : Pool.Table} {index : Pool.Index} {insn : Instruction Nat}
    (h : callSite table index = .ok insn) : insn.isMarker = false := by
  obtain ⟨constant, -, h⟩ := bind_eq_ok.mp h
  split at h
  · obtain ⟨⟨name, descriptor⟩, -, h⟩ := bind_eq_ok.mp h
    obtain ⟨⟨handle, arguments⟩, -, h⟩ := bind_eq_ok.mp h
    obtain rfl := pure_eq_ok.mp h
    rfl
  · exact absurd h throw_ne_ok

theorem findsReal_readOperands (table : Pool.Table) (offset : Nat) (op : Opcode) :
    FindsReal (readOperands table offset op) := by
  unfold readOperands
  refine finds_ite (finds_pure rfl) ?_
  refine finds_ite (advances_i8.map fun _ => rfl) ?_
  refine finds_ite (advances_i16.map fun _ => rfl) ?_
  refine finds_ite (advances_u8.map fun _ => rfl) ?_
  refine finds_ite (advances_u8.bind fun _ => (advances_lift _).map fun _ => rfl) ?_
  refine finds_ite (advances_u16.bind fun _ => (advances_lift _).map fun _ => rfl) ?_
  refine finds_ite (advances_u8.map fun _ => rfl) ?_
  refine finds_ite (finds_pure rfl) ?_
  refine finds_ite (finds_pure rfl) ?_
  refine finds_ite (advances_u8.bind fun _ => advances_i8.map fun _ => rfl) ?_
  refine finds_ite (advances_i16.bind fun _ => (advances_target _ _).map fun _ => rfl) ?_
  refine finds_ite ((advances_wideTarget _).map fun _ => rfl) ?_
  refine finds_ite ((advances_wideTarget _).map fun _ => rfl) ?_
  refine finds_ite (findsReal_readTableSwitch _) ?_
  refine finds_ite (findsReal_readLookupSwitch _) ?_
  refine finds_ite (advances_u16.bind fun _ => (advances_lift _).map fun _ => rfl) ?_
  refine finds_ite (advances_u16.bind fun _ => (advances_lift _).map fun _ => rfl) ?_
  refine finds_ite (advances_u16.bind fun _ => (advances_lift _).bind fun _ =>
    advances_u8.bind fun _ => advances_u8.map fun _ => rfl) ?_
  refine finds_ite (advances_u16.bind fun _ => advances_u16.bind fun _ =>
    finds_lift fun _ => isMarker_callSite) ?_
  refine finds_ite (advances_u16.bind fun _ => (advances_lift _).map fun _ => rfl) ?_
  refine finds_ite (findsReal_readWide _) ?_
  exact finds_ite (advances_u16.bind fun _ => (advances_lift _).bind fun _ =>
    advances_u8.map fun _ => rfl) (finds_fail _)

variable {table : Pool.Table} {cursor cursor' : Cursor}

/-- An instruction takes a byte, or more. -/
theorem readInstruction_passes {insn : Instruction Nat} {offset : Nat}
    (h : (readInstruction table offset).run cursor = .ok (insn, cursor')) :
    Passes cursor cursor' ∧ cursor.position < cursor'.position ∧ insn.isMarker = false := by
  obtain ⟨byte, middle, hb, ho⟩ := run_bind_eq_ok.mp h
  have hfirst := (advances_u8.found hb).1
  obtain ⟨hrest, hreal⟩ := (findsReal_readOperands table offset ⟨byte⟩).found ho
  refine ⟨hfirst.trans hrest, ?_, hreal⟩
  have := position_u8 hb
  have := hrest.forward
  omega

structure Ascending (entries : List (Nat × Instruction Nat)) (length : Nat) : Prop where
  sorted : (entries.map Prod.fst).Pairwise (· < ·)
  before : ∀ start ∈ entries.map Prod.fst, start < length
  real : ∀ entry ∈ entries, entry.2.isMarker = false

theorem Ascending.append {entries : List (Nat × Instruction Nat)} {offset next : Nat}
    {insn : Instruction Nat} (h : Ascending entries offset) (hlt : offset < next)
    (hreal : insn.isMarker = false) : Ascending (entries ++ [(offset, insn)]) next := by
  refine ⟨?_, fun start hm => ?_, fun entry hm => ?_⟩
  · rw [List.map_append, List.pairwise_append]
    refine ⟨h.sorted, List.pairwise_singleton _ _, fun start hm later hl => ?_⟩
    obtain rfl : later = offset := by simpa using hl
    exact h.before start hm
  · rw [List.map_append, List.mem_append] at hm
    rcases hm with hm | hm
    · exact Nat.lt_trans (h.before start hm) hlt
    · obtain rfl : start = offset := by simpa using hm
      exact hlt
  · rcases List.mem_append.mp hm with hm | hm
    · exact h.real entry hm
    · obtain rfl := List.mem_singleton.mp hm
      exact hreal

theorem Ascending.mono {entries : List (Nat × Instruction Nat)} {offset length : Nat}
    (h : Ascending entries offset) (hle : offset ≤ length) : Ascending entries length :=
  ⟨h.sorted, fun start hm => Nat.lt_of_lt_of_le (h.before start hm) hle, h.real⟩

theorem ascending_readInstructions {found result : List (Nat × Instruction Nat)} {bound : Nat}
    (hf : Ascending found.reverse cursor.position)
    (h : (readInstructions table found bound).run cursor = .ok (result, cursor')) :
    Ascending result (cursor.position + cursor.rest.length) := by
  induction bound generalizing found cursor with
  | zero =>
    obtain ⟨rfl, -⟩ := Prod.mk.inj (Except.ok.inj h)
    exact hf.mono (Nat.le_add_right _ _)
  | succ bound ih =>
    obtain ⟨current, middle, hg, h⟩ := run_bind_eq_ok.mp h
    obtain ⟨rfl, rfl⟩ := Prod.mk.inj (Except.ok.inj hg)
    split at h
    · obtain ⟨rfl, -⟩ := Prod.mk.inj (Except.ok.inj h)
      exact hf.mono (Nat.le_add_right _ _)
    · obtain ⟨insn, next, hi, h⟩ := run_bind_eq_ok.mp h
      obtain ⟨hpasses, hlt, hreal⟩ := readInstruction_passes hi
      rw [← hpasses.total]
      refine ih ?_ h
      rw [List.reverse_cons]
      exact hf.append hlt hreal

/-- The instructions of a code array start in ascending order and before its end. -/
theorem ascending_decode {code : Cursor} {result : List (Nat × Instruction Nat)}
    (hstart : code.position = 0) (h : decode table code = .ok result) :
    Ascending result code.rest.length := by
  obtain ⟨cursor', hr⟩ := parse_eq_ok.mp h
  have hempty : Ascending (List.reverse []) code.position := ⟨.nil, nofun, nofun⟩
  have ha := ascending_readInstructions hempty hr
  rwa [hstart, Nat.zero_add] at ha

end ClassTree.Code
