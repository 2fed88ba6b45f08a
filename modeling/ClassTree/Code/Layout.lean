import ClassTree.Flow.Graph
import ClassTree.Pool.Builder

namespace ClassTree.Code

open Pool

def padding (offset : Nat) : Nat :=
  (4 - (offset + 1) % 4) % 4

def isShortVar (op : Opcode) (slot : UInt16) : Bool :=
  slot ≤ 3 && op != .ret

def isShortIncrement (slot : UInt16) (amount : Int16) : Bool :=
  slot ≤ 255 && -128 ≤ amount.toInt && amount.toInt ≤ 127

/-- Bytes that an instruction takes at an offset. Loading a constant puts it into the pool. -/
def size (offset : Nat) : Instruction Label → Build Nat
  | .plain _ => pure 1
  | .int op _ => pure (if op = .sipush then 3 else 2)
  | .var op slot => pure (if isShortVar op slot then 1 else if slot ≤ 255 then 2 else 4)
  | .type .. | .field .. => pure 3
  | .invoke op _ _ => pure (if op = .invokeinterface then 5 else 3)
  | .invokeDynamic .. => pure 5
  | .jump op _ => pure (if op.isWideJump then 5 else 3)
  | .load value => do
    let index ← Build.literal value
    return if !value.isWide && index ≤ 255 then 2 else 3
  | .increment slot amount => pure (if isShortIncrement slot amount then 3 else 6)
  | .tableSwitch _ _ _ targets => pure (1 + padding offset + 12 + 4 * targets.length)
  | .lookupSwitch _ cases => pure (1 + padding offset + 8 + 8 * cases.length)
  | .multiArray .. => pure 4
  | .label _ | .line .. | .frame .. => pure 0

abbrev Offsets := Array Nat

def Offsets.length (offsets : Offsets) : Nat :=
  offsets.back?.getD 0

def layout (code : List (Instruction Label)) : Build Offsets := do
  let (offsets, length) ← code.foldlM
    (fun (offsets, offset) insn => return (offsets.push offset, offset + (← size offset insn)))
    ((#[] : Array Nat), 0)
  return offsets.push length

abbrev LabelOffsets := Std.HashMap Label Nat

def LabelOffsets.ofCode (code : List (Instruction Label)) (offsets : Offsets) : LabelOffsets :=
  code.zipIdx.foldl (fun found (insn, index) =>
    match insn with
    | .label label => found.insert label (offsets.getD index 0)
    | _ => found) ∅

def LabelOffsets.at (offsets : LabelOffsets) (label : Label) : Nat :=
  offsets.getD label 0

end ClassTree.Code
