import ClassTree.Flow.SlotFrame

namespace ClassTree.Flow

open Transition

def numeric : Nat → SlotType
  | 0 => .integer
  | 1 => .long
  | 2 => .float
  | _ => .double

def parseField (descriptor : String) : Except FlowFault FieldType :=
  (FieldType.parse descriptor).mapError (.badDescriptor descriptor)

def parseMethod (descriptor : String) : Except FlowFault MethodType :=
  (MethodType.parse descriptor).mapError (.badDescriptor descriptor)

def loadedElement (op : Opcode) (array : SlotType) : Except FlowFault SlotType :=
  match op with
  | .laload => .ok .long
  | .faload => .ok .float
  | .daload => .ok .double
  | .aaload =>
    match array with
    | .null => .ok .null
    | .object reference =>
      match ClassReference.element? reference.toList with
      | some element => .ok (.object (String.ofList element))
      | none => .error (.loadFromNonArray reference)
    | other => .error (.loadFrom other)
  | _ => .ok .integer

def popElement (op : Opcode) : Transition Unit :=
  match op with
  | .lastore => popExpecting .long
  | .fastore => popExpecting .float
  | .dastore => popExpecting .double
  | .aastore => do let _ ← popReference
  | _ => popExpecting .integer

/-- Operands and results of a conversion, by its place in the group of all of them: for each type
the three conversions to the others. -/
def conversion (place : Nat) : Nat × Nat :=
  let source := place / 3
  let goal := place % 3
  (source, if source ≤ goal then goal + 1 else goal)

def compared (op : Opcode) : SlotType :=
  if op = .lcmp then .long
  else if op = .fcmpl ∨ op = .fcmpg then .float
  else .double

def binary (type result : SlotType) : Transition Unit := do
  popExpecting type
  popExpecting type
  push result

def unary (type result : SlotType) : Transition Unit := do
  popExpecting type
  push result

def executePlain (op : Opcode) : Transition Unit := do
  if op = .nop ∨ op = .returnVoid then pure ()
  else if op = .aconstNull then push .null
  else if op.between .iconstM1 .iconst5 then push .integer
  else if op.between .lconst0 .lconst1 then push .long
  else if op.between .fconst0 .fconst2 then push .float
  else if op.between .dconst0 .dconst1 then push .double
  else if op.between .iaload .saload then
    popExpecting .integer
    let array ← popReference
    push (← loadedElement op array)
  else if op.between .iastore .sastore then
    popElement op
    popExpecting .integer
    let _ ← popReference
  else if op = .pop then popSlots 1
  else if op = .pop2 then popSlots 2
  else if op = .dup then dup 1 0
  else if op = .dupX1 then dup 1 1
  else if op = .dupX2 then dup 1 2
  else if op = .dup2 then dup 2 0
  else if op = .dup2X1 then dup 2 1
  else if op = .dup2X2 then dup 2 2
  else if op = .swap then swap
  else if op.between .iadd .drem then
    let type := numeric (op.since .iadd % 4)
    binary type type
  else if op.between .ineg .dneg then
    let type := numeric (op.since .ineg)
    unary type type
  else if op.between .ishl .lushr then
    popExpecting .integer
    let type := numeric (op.since .ishl % 2)
    unary type type
  else if op.between .iand .lxor then
    let type := numeric (op.since .iand % 2)
    binary type type
  else if op.between .i2l .d2f then
    let (source, goal) := conversion (op.since .i2l)
    unary (numeric source) (numeric goal)
  else if op.between .i2b .i2s then unary .integer .integer
  else if op.between .lcmp .dcmpg then binary (compared op) .integer
  else if op = .ireturn then popExpecting .integer
  else if op = .lreturn then popExpecting .long
  else if op = .freturn then popExpecting .float
  else if op = .dreturn then popExpecting .double
  else if op = .areturn ∨ op = .athrow ∨ op = .monitorenter ∨ op = .monitorexit then
    let _ ← popReference
  else if op = .arraylength then
    let _ ← popReference
    push .integer
  else fail (.badOpcode op)

def executeVar (op : Opcode) (slot : UInt16) : Transition Unit := do
  if op.between .iload .aload then load op slot
  else if op.between .istore .dstore then
    let type := numeric (op.since .istore)
    popExpecting type
    store slot type
  else if op = .astore then
    let type ← popReference
    store slot type
  else if op = .ret then fail .unsupportedRet
  else fail (.badVarOpcode op)

def executeType (index : Nat) (op : Opcode) (name : String) : Transition Unit := do
  if op = .new then push (.uninitialized index)
  else if op = .anewarray then
    popExpecting .integer
    push (.object (String.ofList (ClassReference.arrayOf name.toList)))
  else if op = .checkcast then
    let _ ← popReference
    push (.object name)
  else if op = .instanceof then
    let _ ← popReference
    push .integer
  else fail (.badTypeOpcode op)

def executeField (op : Opcode) (member : Member) : Transition Unit := do
  let type ← parseField member.descriptor
  if op = .getstatic then push (.ofFieldType type)
  else if op = .putstatic then popField type
  else if op = .getfield then
    let _ ← popReference
    push (.ofFieldType type)
  else
    popField type
    let _ ← popReference

def constructed (context : Context) (code : Array (Instruction Label)) :
    SlotType → Except FlowFault SlotType
  | .uninitializedThis => .ok (.object context.owner)
  | .uninitialized index =>
    match code[index]? with
    | some (.type _ name) => .ok (.object name)
    | _ => .error .missingNew
  | other => .error (.alreadyInitialized other)

def executeInvoke (context : Context) (code : Array (Instruction Label)) (op : Opcode)
    (member : Member) : Transition Unit := do
  let type ← parseMethod member.descriptor
  popArguments type
  if op ≠ .invokestatic then
    let receiver ← popReference
    if op = .invokespecial ∧ member.name = Name.initializer then
      let object ← constructed context code receiver
      modify fun frame => frame.construct receiver object
  pushResult type

def executeJump (op : Opcode) : Transition Unit := do
  if op.between .ifeq .ifle then popExpecting .integer
  else if op.between .ifIcmpeq .ifIcmple then
    popExpecting .integer
    popExpecting .integer
  else if op.between .ifAcmpeq .ifAcmpne then
    let _ ← popReference
    let _ ← popReference
  else if op = .ifnull ∨ op = .ifnonnull then
    let _ ← popReference
  else if op = .goto ∨ op = .gotoWide then pure ()
  else fail .unsupportedJsr

def literalType : Literal → SlotType
  | .int _ => .integer
  | .float _ => .float
  | .long _ => .long
  | .double _ => .double
  | .string _ => .object Name.string
  | .classRef _ => .object Name.classObject
  | .methodType _ => .object Name.methodType
  | .handle _ => .object Name.methodHandle

def arrayElement? (code : Int32) : Option BaseType :=
  if 0 ≤ code.toInt ∧ code.toInt < 256 then BaseType.ofArrayCode? (UInt8.ofNat code.toInt.toNat)
  else none

/-- The effect of the instruction at an index. -/
def execute (context : Context) (code : Array (Instruction Label)) (index : Nat)
    (insn : Instruction Label) : Transition Unit := do
  match insn with
  | .label _ | .line .. | .frame .. => pure ()
  | .plain op => executePlain op
  | .int op operand =>
    if op = .newarray then
      popExpecting .integer
      match arrayElement? operand with
      | some element => push (.object (RefType.arrayOf (.base element)).descriptor)
      | none => fail (.badArrayCode operand)
    else push .integer
  | .var op slot => executeVar op slot
  | .type op name => executeType index op name
  | .field op member => executeField op member
  | .invoke op member _ => executeInvoke context code op member
  | .invokeDynamic _ descriptor _ _ =>
    let type ← parseMethod descriptor
    popArguments type
    pushResult type
  | .jump op _ => executeJump op
  | .load value => push (literalType value)
  | .increment slot _ =>
    if (← get).locals[slot.toNat]? ≠ some .integer then fail (.incrementedNonInt slot)
  | .tableSwitch .. | .lookupSwitch .. => popExpecting .integer
  | .multiArray descriptor dimensions =>
    (List.replicate dimensions.toNat ()).forM fun _ => popExpecting .integer
    push (.object descriptor)

end ClassTree.Flow
