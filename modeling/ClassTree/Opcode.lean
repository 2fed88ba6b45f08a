namespace ClassTree

structure Opcode where
  byte : UInt8
deriving DecidableEq

namespace Opcode

@[match_pattern] abbrev nop : Opcode := ⟨0x00⟩

@[match_pattern] abbrev aconstNull : Opcode := ⟨0x01⟩

@[match_pattern] abbrev iconstM1 : Opcode := ⟨0x02⟩

@[match_pattern] abbrev iconst0 : Opcode := ⟨0x03⟩

@[match_pattern] abbrev iconst1 : Opcode := ⟨0x04⟩

@[match_pattern] abbrev iconst2 : Opcode := ⟨0x05⟩

@[match_pattern] abbrev iconst3 : Opcode := ⟨0x06⟩

@[match_pattern] abbrev iconst4 : Opcode := ⟨0x07⟩

@[match_pattern] abbrev iconst5 : Opcode := ⟨0x08⟩

@[match_pattern] abbrev lconst0 : Opcode := ⟨0x09⟩

@[match_pattern] abbrev lconst1 : Opcode := ⟨0x0a⟩

@[match_pattern] abbrev fconst0 : Opcode := ⟨0x0b⟩

@[match_pattern] abbrev fconst1 : Opcode := ⟨0x0c⟩

@[match_pattern] abbrev fconst2 : Opcode := ⟨0x0d⟩

@[match_pattern] abbrev dconst0 : Opcode := ⟨0x0e⟩

@[match_pattern] abbrev dconst1 : Opcode := ⟨0x0f⟩

@[match_pattern] abbrev bipush : Opcode := ⟨0x10⟩

@[match_pattern] abbrev sipush : Opcode := ⟨0x11⟩

@[match_pattern] abbrev ldc : Opcode := ⟨0x12⟩

@[match_pattern] abbrev ldcWide : Opcode := ⟨0x13⟩

@[match_pattern] abbrev ldc2Wide : Opcode := ⟨0x14⟩

@[match_pattern] abbrev iload : Opcode := ⟨0x15⟩

@[match_pattern] abbrev lload : Opcode := ⟨0x16⟩

@[match_pattern] abbrev fload : Opcode := ⟨0x17⟩

@[match_pattern] abbrev dload : Opcode := ⟨0x18⟩

@[match_pattern] abbrev aload : Opcode := ⟨0x19⟩

@[match_pattern] abbrev iload0 : Opcode := ⟨0x1a⟩

@[match_pattern] abbrev lload0 : Opcode := ⟨0x1e⟩

@[match_pattern] abbrev fload0 : Opcode := ⟨0x22⟩

@[match_pattern] abbrev dload0 : Opcode := ⟨0x26⟩

@[match_pattern] abbrev aload0 : Opcode := ⟨0x2a⟩

@[match_pattern] abbrev aload3 : Opcode := ⟨0x2d⟩

@[match_pattern] abbrev iaload : Opcode := ⟨0x2e⟩

@[match_pattern] abbrev laload : Opcode := ⟨0x2f⟩

@[match_pattern] abbrev faload : Opcode := ⟨0x30⟩

@[match_pattern] abbrev daload : Opcode := ⟨0x31⟩

@[match_pattern] abbrev aaload : Opcode := ⟨0x32⟩

@[match_pattern] abbrev baload : Opcode := ⟨0x33⟩

@[match_pattern] abbrev caload : Opcode := ⟨0x34⟩

@[match_pattern] abbrev saload : Opcode := ⟨0x35⟩

@[match_pattern] abbrev istore : Opcode := ⟨0x36⟩

@[match_pattern] abbrev lstore : Opcode := ⟨0x37⟩

@[match_pattern] abbrev fstore : Opcode := ⟨0x38⟩

@[match_pattern] abbrev dstore : Opcode := ⟨0x39⟩

@[match_pattern] abbrev astore : Opcode := ⟨0x3a⟩

@[match_pattern] abbrev istore0 : Opcode := ⟨0x3b⟩

@[match_pattern] abbrev lstore0 : Opcode := ⟨0x3f⟩

@[match_pattern] abbrev fstore0 : Opcode := ⟨0x43⟩

@[match_pattern] abbrev dstore0 : Opcode := ⟨0x47⟩

@[match_pattern] abbrev astore0 : Opcode := ⟨0x4b⟩

@[match_pattern] abbrev astore3 : Opcode := ⟨0x4e⟩

@[match_pattern] abbrev iastore : Opcode := ⟨0x4f⟩

@[match_pattern] abbrev lastore : Opcode := ⟨0x50⟩

@[match_pattern] abbrev fastore : Opcode := ⟨0x51⟩

@[match_pattern] abbrev dastore : Opcode := ⟨0x52⟩

@[match_pattern] abbrev aastore : Opcode := ⟨0x53⟩

@[match_pattern] abbrev bastore : Opcode := ⟨0x54⟩

@[match_pattern] abbrev castore : Opcode := ⟨0x55⟩

@[match_pattern] abbrev sastore : Opcode := ⟨0x56⟩

@[match_pattern] abbrev pop : Opcode := ⟨0x57⟩

@[match_pattern] abbrev pop2 : Opcode := ⟨0x58⟩

@[match_pattern] abbrev dup : Opcode := ⟨0x59⟩

@[match_pattern] abbrev dupX1 : Opcode := ⟨0x5a⟩

@[match_pattern] abbrev dupX2 : Opcode := ⟨0x5b⟩

@[match_pattern] abbrev dup2 : Opcode := ⟨0x5c⟩

@[match_pattern] abbrev dup2X1 : Opcode := ⟨0x5d⟩

@[match_pattern] abbrev dup2X2 : Opcode := ⟨0x5e⟩

@[match_pattern] abbrev swap : Opcode := ⟨0x5f⟩

@[match_pattern] abbrev iadd : Opcode := ⟨0x60⟩

@[match_pattern] abbrev ladd : Opcode := ⟨0x61⟩

@[match_pattern] abbrev fadd : Opcode := ⟨0x62⟩

@[match_pattern] abbrev dadd : Opcode := ⟨0x63⟩

@[match_pattern] abbrev isub : Opcode := ⟨0x64⟩

@[match_pattern] abbrev lsub : Opcode := ⟨0x65⟩

@[match_pattern] abbrev fsub : Opcode := ⟨0x66⟩

@[match_pattern] abbrev dsub : Opcode := ⟨0x67⟩

@[match_pattern] abbrev imul : Opcode := ⟨0x68⟩

@[match_pattern] abbrev lmul : Opcode := ⟨0x69⟩

@[match_pattern] abbrev fmul : Opcode := ⟨0x6a⟩

@[match_pattern] abbrev dmul : Opcode := ⟨0x6b⟩

@[match_pattern] abbrev idiv : Opcode := ⟨0x6c⟩

@[match_pattern] abbrev ldiv : Opcode := ⟨0x6d⟩

@[match_pattern] abbrev fdiv : Opcode := ⟨0x6e⟩

@[match_pattern] abbrev ddiv : Opcode := ⟨0x6f⟩

@[match_pattern] abbrev irem : Opcode := ⟨0x70⟩

@[match_pattern] abbrev lrem : Opcode := ⟨0x71⟩

@[match_pattern] abbrev frem : Opcode := ⟨0x72⟩

@[match_pattern] abbrev drem : Opcode := ⟨0x73⟩

@[match_pattern] abbrev ineg : Opcode := ⟨0x74⟩

@[match_pattern] abbrev lneg : Opcode := ⟨0x75⟩

@[match_pattern] abbrev fneg : Opcode := ⟨0x76⟩

@[match_pattern] abbrev dneg : Opcode := ⟨0x77⟩

@[match_pattern] abbrev ishl : Opcode := ⟨0x78⟩

@[match_pattern] abbrev lshl : Opcode := ⟨0x79⟩

@[match_pattern] abbrev ishr : Opcode := ⟨0x7a⟩

@[match_pattern] abbrev lshr : Opcode := ⟨0x7b⟩

@[match_pattern] abbrev iushr : Opcode := ⟨0x7c⟩

@[match_pattern] abbrev lushr : Opcode := ⟨0x7d⟩

@[match_pattern] abbrev iand : Opcode := ⟨0x7e⟩

@[match_pattern] abbrev land : Opcode := ⟨0x7f⟩

@[match_pattern] abbrev ior : Opcode := ⟨0x80⟩

@[match_pattern] abbrev lor : Opcode := ⟨0x81⟩

@[match_pattern] abbrev ixor : Opcode := ⟨0x82⟩

@[match_pattern] abbrev lxor : Opcode := ⟨0x83⟩

@[match_pattern] abbrev iinc : Opcode := ⟨0x84⟩

@[match_pattern] abbrev i2l : Opcode := ⟨0x85⟩

@[match_pattern] abbrev i2f : Opcode := ⟨0x86⟩

@[match_pattern] abbrev i2d : Opcode := ⟨0x87⟩

@[match_pattern] abbrev l2i : Opcode := ⟨0x88⟩

@[match_pattern] abbrev l2f : Opcode := ⟨0x89⟩

@[match_pattern] abbrev l2d : Opcode := ⟨0x8a⟩

@[match_pattern] abbrev f2i : Opcode := ⟨0x8b⟩

@[match_pattern] abbrev f2l : Opcode := ⟨0x8c⟩

@[match_pattern] abbrev f2d : Opcode := ⟨0x8d⟩

@[match_pattern] abbrev d2i : Opcode := ⟨0x8e⟩

@[match_pattern] abbrev d2l : Opcode := ⟨0x8f⟩

@[match_pattern] abbrev d2f : Opcode := ⟨0x90⟩

@[match_pattern] abbrev i2b : Opcode := ⟨0x91⟩

@[match_pattern] abbrev i2c : Opcode := ⟨0x92⟩

@[match_pattern] abbrev i2s : Opcode := ⟨0x93⟩

@[match_pattern] abbrev lcmp : Opcode := ⟨0x94⟩

@[match_pattern] abbrev fcmpl : Opcode := ⟨0x95⟩

@[match_pattern] abbrev fcmpg : Opcode := ⟨0x96⟩

@[match_pattern] abbrev dcmpl : Opcode := ⟨0x97⟩

@[match_pattern] abbrev dcmpg : Opcode := ⟨0x98⟩

@[match_pattern] abbrev ifeq : Opcode := ⟨0x99⟩

@[match_pattern] abbrev ifne : Opcode := ⟨0x9a⟩

@[match_pattern] abbrev iflt : Opcode := ⟨0x9b⟩

@[match_pattern] abbrev ifge : Opcode := ⟨0x9c⟩

@[match_pattern] abbrev ifgt : Opcode := ⟨0x9d⟩

@[match_pattern] abbrev ifle : Opcode := ⟨0x9e⟩

@[match_pattern] abbrev ifIcmpeq : Opcode := ⟨0x9f⟩

@[match_pattern] abbrev ifIcmpne : Opcode := ⟨0xa0⟩

@[match_pattern] abbrev ifIcmplt : Opcode := ⟨0xa1⟩

@[match_pattern] abbrev ifIcmpge : Opcode := ⟨0xa2⟩

@[match_pattern] abbrev ifIcmpgt : Opcode := ⟨0xa3⟩

@[match_pattern] abbrev ifIcmple : Opcode := ⟨0xa4⟩

@[match_pattern] abbrev ifAcmpeq : Opcode := ⟨0xa5⟩

@[match_pattern] abbrev ifAcmpne : Opcode := ⟨0xa6⟩

@[match_pattern] abbrev goto : Opcode := ⟨0xa7⟩

@[match_pattern] abbrev jsr : Opcode := ⟨0xa8⟩

@[match_pattern] abbrev ret : Opcode := ⟨0xa9⟩

@[match_pattern] abbrev tableswitch : Opcode := ⟨0xaa⟩

@[match_pattern] abbrev lookupswitch : Opcode := ⟨0xab⟩

@[match_pattern] abbrev ireturn : Opcode := ⟨0xac⟩

@[match_pattern] abbrev lreturn : Opcode := ⟨0xad⟩

@[match_pattern] abbrev freturn : Opcode := ⟨0xae⟩

@[match_pattern] abbrev dreturn : Opcode := ⟨0xaf⟩

@[match_pattern] abbrev areturn : Opcode := ⟨0xb0⟩

@[match_pattern] abbrev returnVoid : Opcode := ⟨0xb1⟩

@[match_pattern] abbrev getstatic : Opcode := ⟨0xb2⟩

@[match_pattern] abbrev putstatic : Opcode := ⟨0xb3⟩

@[match_pattern] abbrev getfield : Opcode := ⟨0xb4⟩

@[match_pattern] abbrev putfield : Opcode := ⟨0xb5⟩

@[match_pattern] abbrev invokevirtual : Opcode := ⟨0xb6⟩

@[match_pattern] abbrev invokespecial : Opcode := ⟨0xb7⟩

@[match_pattern] abbrev invokestatic : Opcode := ⟨0xb8⟩

@[match_pattern] abbrev invokeinterface : Opcode := ⟨0xb9⟩

@[match_pattern] abbrev invokedynamic : Opcode := ⟨0xba⟩

@[match_pattern] abbrev new : Opcode := ⟨0xbb⟩

@[match_pattern] abbrev newarray : Opcode := ⟨0xbc⟩

@[match_pattern] abbrev anewarray : Opcode := ⟨0xbd⟩

@[match_pattern] abbrev arraylength : Opcode := ⟨0xbe⟩

@[match_pattern] abbrev athrow : Opcode := ⟨0xbf⟩

@[match_pattern] abbrev checkcast : Opcode := ⟨0xc0⟩

@[match_pattern] abbrev instanceof : Opcode := ⟨0xc1⟩

@[match_pattern] abbrev monitorenter : Opcode := ⟨0xc2⟩

@[match_pattern] abbrev monitorexit : Opcode := ⟨0xc3⟩

@[match_pattern] abbrev wide : Opcode := ⟨0xc4⟩

@[match_pattern] abbrev multianewarray : Opcode := ⟨0xc5⟩

@[match_pattern] abbrev ifnull : Opcode := ⟨0xc6⟩

@[match_pattern] abbrev ifnonnull : Opcode := ⟨0xc7⟩

@[match_pattern] abbrev gotoWide : Opcode := ⟨0xc8⟩

@[match_pattern] abbrev jsrWide : Opcode := ⟨0xc9⟩

def mnemonics : Array String :=
  #["NOP", "ACONST_NULL", "ICONST_M1", "ICONST_0", "ICONST_1", "ICONST_2", "ICONST_3", "ICONST_4",
    "ICONST_5", "LCONST_0", "LCONST_1", "FCONST_0", "FCONST_1", "FCONST_2", "DCONST_0", "DCONST_1",
    "BIPUSH", "SIPUSH", "LDC", "LDC_W", "LDC2_W", "ILOAD", "LLOAD", "FLOAD", "DLOAD", "ALOAD",
    "ILOAD_0", "ILOAD_1", "ILOAD_2", "ILOAD_3", "LLOAD_0", "LLOAD_1", "LLOAD_2", "LLOAD_3",
    "FLOAD_0", "FLOAD_1", "FLOAD_2", "FLOAD_3", "DLOAD_0", "DLOAD_1", "DLOAD_2", "DLOAD_3",
    "ALOAD_0", "ALOAD_1", "ALOAD_2", "ALOAD_3", "IALOAD", "LALOAD", "FALOAD", "DALOAD", "AALOAD",
    "BALOAD", "CALOAD", "SALOAD", "ISTORE", "LSTORE", "FSTORE", "DSTORE", "ASTORE", "ISTORE_0",
    "ISTORE_1", "ISTORE_2", "ISTORE_3", "LSTORE_0", "LSTORE_1", "LSTORE_2", "LSTORE_3", "FSTORE_0",
    "FSTORE_1", "FSTORE_2", "FSTORE_3", "DSTORE_0", "DSTORE_1", "DSTORE_2", "DSTORE_3", "ASTORE_0",
    "ASTORE_1", "ASTORE_2", "ASTORE_3", "IASTORE", "LASTORE", "FASTORE", "DASTORE", "AASTORE",
    "BASTORE", "CASTORE", "SASTORE", "POP", "POP2", "DUP", "DUP_X1", "DUP_X2", "DUP2", "DUP2_X1",
    "DUP2_X2", "SWAP", "IADD", "LADD", "FADD", "DADD", "ISUB", "LSUB", "FSUB", "DSUB", "IMUL",
    "LMUL", "FMUL", "DMUL", "IDIV", "LDIV", "FDIV", "DDIV", "IREM", "LREM", "FREM", "DREM", "INEG",
    "LNEG", "FNEG", "DNEG", "ISHL", "LSHL", "ISHR", "LSHR", "IUSHR", "LUSHR", "IAND", "LAND", "IOR",
    "LOR", "IXOR", "LXOR", "IINC", "I2L", "I2F", "I2D", "L2I", "L2F", "L2D", "F2I", "F2L", "F2D",
    "D2I", "D2L", "D2F", "I2B", "I2C", "I2S", "LCMP", "FCMPL", "FCMPG", "DCMPL", "DCMPG", "IFEQ",
    "IFNE", "IFLT", "IFGE", "IFGT", "IFLE", "IF_ICMPEQ", "IF_ICMPNE", "IF_ICMPLT", "IF_ICMPGE",
    "IF_ICMPGT", "IF_ICMPLE", "IF_ACMPEQ", "IF_ACMPNE", "GOTO", "JSR", "RET", "TABLESWITCH",
    "LOOKUPSWITCH", "IRETURN", "LRETURN", "FRETURN", "DRETURN", "ARETURN", "RETURN", "GETSTATIC",
    "PUTSTATIC", "GETFIELD", "PUTFIELD", "INVOKEVIRTUAL", "INVOKESPECIAL", "INVOKESTATIC",
    "INVOKEINTERFACE", "INVOKEDYNAMIC", "NEW", "NEWARRAY", "ANEWARRAY", "ARRAYLENGTH", "ATHROW",
    "CHECKCAST", "INSTANCEOF", "MONITORENTER", "MONITOREXIT", "WIDE", "MULTIANEWARRAY", "IFNULL",
    "IFNONNULL", "GOTO_W", "JSR_W"]

def mnemonic? (op : Opcode) : Option String :=
  mnemonics[op.byte.toNat]?

def ofMnemonic? (name : String) : Option Opcode :=
  (mnemonics.findIdx? (· == name)).map fun code => ⟨UInt8.ofNat code⟩

def between (op first last : Opcode) : Bool :=
  first.byte ≤ op.byte && op.byte ≤ last.byte

def since (op first : Opcode) : Nat :=
  op.byte.toNat - first.byte.toNat

def isConditional (op : Opcode) : Bool :=
  op.between ifeq ifAcmpne || op == ifnull || op == ifnonnull

/-- The conditional jump that is taken exactly when this one is not. Conditions come in pairs,
the odd code before its negation, except for the two that test for null. -/
def negated (op : Opcode) : Opcode :=
  if op = ifnull then ifnonnull
  else if op = ifnonnull then ifnull
  else if op.between ifeq ifAcmpne then
    if op.byte % 2 = 1 then ⟨op.byte + 1⟩ else ⟨op.byte - 1⟩
  else op

def endsBlock (op : Opcode) : Bool :=
  op == goto || op == gotoWide || op == ret || op == tableswitch || op == lookupswitch ||
    op.between ireturn returnVoid || op == athrow

def isWideJump (op : Opcode) : Bool :=
  op == gotoWide || op == jsrWide

end Opcode
end ClassTree
