import ClassTree.Instruction
import ClassTree.Pool.Table

namespace ClassTree.Code

open Reader Instruction

def isPlain (op : Opcode) : Bool :=
  op.between .nop .dconst1 || op.between .iaload .saload || op.between .iastore .lxor ||
    op.between .i2l .dcmpg || op.between .ireturn .returnVoid || op == .arraylength ||
    op == .athrow || op == .monitorenter || op == .monitorexit

def isVar (op : Opcode) : Bool :=
  op.between .iload .aload || op.between .istore .astore || op == .ret

def isType (op : Opcode) : Bool :=
  op == .new || op == .anewarray || op == .checkcast || op == .instanceof

/-- The offset at a displacement from the instruction. -/
def target (offset : Nat) (displacement : Int) : Reader Nat :=
  let goal := (offset : Int) + displacement
  if goal < 0 then fail (.badBytecodeOffset offset) else return goal.toNat

def wideTarget (offset : Nat) : Reader Nat := do
  target offset (← i32).toInt

def callSite (table : Pool.Table) (index : Pool.Index) : Except Error (Instruction Nat) := do
  match ← table.get index with
  | .invokeDynamic bootstrap nameAndType =>
    let (name, descriptor) ← table.nameAndType nameAndType
    let (handle, arguments) ← table.bootstrapMethod bootstrap
    return invokeDynamic name descriptor handle arguments
  | _ => throw (.malformed (.badConstantIndex index "InvokeDynamic"))

def readWide (offset : Nat) : Reader (Instruction Nat) := do
  let op : Opcode := ⟨← u8⟩
  if isVar op then return var op (← u16)
  else if op = .iinc then return increment (← u16) (← i16)
  else fail (.badOpcode op.byte offset)

def readTableSwitch (offset : Nat) : Reader (Instruction Nat) := do
  align4
  let default ← wideTarget offset
  let low ← i32
  let high ← i32
  if high < low then fail (.badOpcode Opcode.tableswitch.byte offset)
  let targets ← times (high.toInt - low.toInt + 1).toNat (wideTarget offset)
  return tableSwitch low high default targets

def readLookupSwitch (offset : Nat) : Reader (Instruction Nat) := do
  align4
  let default ← wideTarget offset
  let count ← i32
  if count < 0 then fail (.badOpcode Opcode.lookupswitch.byte offset)
  let cases ← times count.toInt.toNat do
    let key ← i32
    return (key, ← wideTarget offset)
  return lookupSwitch default cases

/-- The instruction at an offset whose first byte has been read, with offsets for the positions
that it refers to. -/
def readOperands (table : Pool.Table) (offset : Nat) (op : Opcode) : Reader (Instruction Nat) := do
  if isPlain op then return plain op
  else if op = .bipush then return int op (← i8).toInt32
  else if op = .sipush then return int op (← i16).toInt32
  else if op = .newarray then return int op (← u8).toUInt32.toInt32
  else if op = .ldc then return load (← table.literal (← u8).toUInt16)
  else if op = .ldcWide ∨ op = .ldc2Wide then return load (← table.literal (← u16))
  else if isVar op then return var op (← u8).toUInt16
  else if op.between .iload0 .aload3 then
    let form := op.since .iload0
    return var ⟨Opcode.iload.byte + UInt8.ofNat (form / 4)⟩ (UInt16.ofNat (form % 4))
  else if op.between .istore0 .astore3 then
    let form := op.since .istore0
    return var ⟨Opcode.istore.byte + UInt8.ofNat (form / 4)⟩ (UInt16.ofNat (form % 4))
  else if op = .iinc then return increment (← u8).toUInt16 (← i8).toInt16
  else if op.between .ifeq .jsr ∨ op = .ifnull ∨ op = .ifnonnull then
    return jump op (← target offset (← i16).toInt)
  else if op = .gotoWide then return jump .goto (← wideTarget offset)
  else if op = .jsrWide then return jump .jsr (← wideTarget offset)
  else if op = .tableswitch then readTableSwitch offset
  else if op = .lookupswitch then readLookupSwitch offset
  else if op.between .getstatic .putfield then
    let (member, _) ← table.member (← u16)
    return field op member
  else if op.between .invokevirtual .invokestatic then
    let (member, onInterface) ← table.member (← u16)
    return invoke op member onInterface
  else if op = .invokeinterface then
    let (member, onInterface) ← table.member (← u16)
    let _ ← u8
    let _ ← u8
    return invoke op member onInterface
  else if op = .invokedynamic then
    let index ← u16
    let _ ← u16
    callSite table index
  else if isType op then return type op (← table.className (← u16))
  else if op = .wide then readWide offset
  else if op = .multianewarray then return multiArray (← table.className (← u16)) (← u8)
  else fail (.badOpcode op.byte offset)

def readInstruction (table : Pool.Table) (offset : Nat) : Reader (Instruction Nat) := do
  readOperands table offset ⟨← u8⟩

/-- All instructions up to the end, with their offsets, after those already found (in reverse).
Every instruction takes at least one byte, so the number of bytes bounds their number. -/
def readInstructions (table : Pool.Table) (found : List (Nat × Instruction Nat)) :
    Nat → Reader (List (Nat × Instruction Nat))
  | 0 => return found.reverse
  | bound + 1 => do
    let cursor ← get
    if cursor.rest.isEmpty then return found.reverse
    let insn ← readInstruction table cursor.position
    readInstructions table ((cursor.position, insn) :: found) bound

def decode (table : Pool.Table) (code : Cursor) : Except Error (List (Nat × Instruction Nat)) :=
  code.parse (readInstructions table [] code.rest.length)

end ClassTree.Code
