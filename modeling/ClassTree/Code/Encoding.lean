import ClassTree.Code.Layout
import ClassTree.Descriptor.Parser

namespace ClassTree.Code

open Pool BigEndian

def displacement (offset target : Nat) : Int32 :=
  Int32.ofInt ((target : Int) - offset)

def shortVar (op : Opcode) (slot : UInt16) : UInt8 :=
  let first :=
    if Opcode.istore.byte ≤ op.byte then
      Opcode.istore0.byte + (op.byte - Opcode.istore.byte) * 4
    else Opcode.iload0.byte + (op.byte - Opcode.iload.byte) * 4
  first + slot.toUInt8

def encodeVar (op : Opcode) (slot : UInt16) : Bytes :=
  if isShortVar op slot then u8 (shortVar op slot)
  else if slot ≤ 255 then u8 op.byte ++ u8 slot.toUInt8
  else u8 Opcode.wide.byte ++ u8 op.byte ++ u16 slot

def encodeInt (op : Opcode) (operand : Int32) : Bytes :=
  u8 op.byte ++
    (if op = .sipush then i16 operand.toInt16 else i8 operand.toInt8)

def encodeIncrement (slot : UInt16) (amount : Int16) : Bytes :=
  if isShortIncrement slot amount then
    u8 Opcode.iinc.byte ++ u8 slot.toUInt8 ++ i8 amount.toInt8
  else u8 Opcode.wide.byte ++ u8 Opcode.iinc.byte ++ u16 slot ++ i16 amount

def encodeLoad (value : Literal) (index : Index) : Bytes :=
  if value.isWide then u8 Opcode.ldc2Wide.byte ++ u16 index
  else if index ≤ 255 then u8 Opcode.ldc.byte ++ u8 index.toUInt8
  else u8 Opcode.ldcWide.byte ++ u16 index

/-- What follows the constant in an invocation: for an interface, the slots of its arguments. -/
def encodeArgumentCount (op : Opcode) (descriptor : String) : Except Error Bytes :=
  if op = .invokeinterface then
    match MethodType.parse descriptor with
    | .ok type => .ok (u8 (UInt8.ofNat (type.parameterSlots true)) ++ u8 0)
    | .error _ => .error (.inconsistent (.badDescriptor descriptor))
  else .ok []

/-- The cases of a lookup switch are written in ascending order of their keys. -/
def sortCases (cases : List (Int32 × Nat)) : List (Int32 × Nat) :=
  cases.mergeSort fun case₁ case₂ => case₁.1.toInt ≤ case₂.1.toInt

def encodeInstruction (offset : Nat) : Instruction Nat → Build Bytes
  | .plain op => pure (u8 op.byte)
  | .int op operand => pure (encodeInt op operand)
  | .var op slot => pure (encodeVar op slot)
  | .type op name => return u8 op.byte ++ u16 (← Build.classRef name)
  | .field op member => return u8 op.byte ++ u16 (← Build.field member)
  | .invoke op member onInterface => do
    let index ← Build.method member onInterface
    let count ← MonadExcept.ofExcept (encodeArgumentCount op member.descriptor)
    return u8 op.byte ++ u16 index ++ count
  | .invokeDynamic name descriptor bootstrap arguments => do
    let index ← Build.invokeDynamic name descriptor bootstrap arguments
    return u8 Opcode.invokedynamic.byte ++ u16 index ++ u16 0
  | .jump op target =>
    let distance := displacement offset target
    pure (u8 op.byte ++ (if op.isWideJump then i32 distance else i16 distance.toInt16))
  | .load value => return encodeLoad value (← Build.literal value)
  | .increment slot amount => pure (encodeIncrement slot amount)
  | .tableSwitch low high default targets =>
    pure (u8 Opcode.tableswitch.byte ++ List.replicate (padding offset) 0 ++
      i32 (displacement offset default) ++ i32 low ++ i32 high ++
      targets.flatMap fun target => i32 (displacement offset target))
  | .lookupSwitch default cases =>
    pure (u8 Opcode.lookupswitch.byte ++ List.replicate (padding offset) 0 ++
      i32 (displacement offset default) ++ i32 (Int32.ofInt cases.length) ++
      (sortCases cases).flatMap fun entry => i32 entry.1 ++ i32 (displacement offset entry.2))
  | .multiArray descriptor dimensions =>
    return u8 Opcode.multianewarray.byte ++ u16 (← Build.classRef descriptor) ++ u8 dimensions
  | .label _ | .line .. | .frame .. => pure []

def encode (code : List (Instruction Label)) (offsets : Offsets) (labels : LabelOffsets) :
    Build Bytes := do
  let parts ← code.zipIdx.mapM fun (insn, index) =>
    encodeInstruction (offsets.getD index 0) (insn.mapLabels labels.at)
  return parts.flatten

end ClassTree.Code
