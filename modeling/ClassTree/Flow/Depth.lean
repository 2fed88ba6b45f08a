import ClassTree.Flow.Types

namespace ClassTree.Flow

def plainDelta (op : Opcode) : Except FlowFault Int :=
  if op = .nop ∨ op = .swap ∨ op.between .ineg .dneg ∨ op = .i2f ∨ op = .l2d ∨ op = .f2i ∨
      op = .d2l ∨ op.between .i2b .i2s ∨ op = .arraylength ∨ op = .returnVoid ∨ op = .laload ∨
      op = .daload then .ok 0
  else if op.between .lconst0 .lconst1 ∨ op.between .dconst0 .dconst1 then .ok 2
  else if op.between .aconstNull .fconst2 then .ok 1
  else if op.between .iaload .saload then .ok (-1)
  else if op = .lastore ∨ op = .dastore then .ok (-4)
  else if op.between .iastore .sastore then .ok (-3)
  else if op = .pop then .ok (-1)
  else if op = .pop2 then .ok (-2)
  else if op.between .dup .dupX2 then .ok 1
  else if op.between .dup2 .dup2X2 then .ok 2
  else if op.between .iadd .drem then .ok (if op.since .iadd % 2 = 0 then -1 else -2)
  else if op.between .ishl .lushr then .ok (-1)
  else if op.between .iand .lxor then .ok (if op.since .iand % 2 = 0 then -1 else -2)
  else if op = .i2l ∨ op = .i2d ∨ op = .f2l ∨ op = .f2d then .ok 1
  else if op = .l2i ∨ op = .l2f ∨ op = .d2i ∨ op = .d2f then .ok (-1)
  else if op = .lcmp ∨ op = .dcmpl ∨ op = .dcmpg then .ok (-3)
  else if op = .fcmpl ∨ op = .fcmpg then .ok (-1)
  else if op = .ireturn ∨ op = .freturn ∨ op = .areturn ∨ op = .athrow ∨ op = .monitorenter ∨
      op = .monitorexit then .ok (-1)
  else if op = .lreturn ∨ op = .dreturn then .ok (-2)
  else .error (.badOpcode op)

def varDelta (op : Opcode) : Int :=
  match op with
  | .lload | .dload => 2
  | .iload | .fload | .aload => 1
  | .lstore | .dstore => -2
  | .istore | .fstore | .astore => -1
  | _ => 0

def fieldDelta (op : Opcode) (width : Int) : Int :=
  match op with
  | .getstatic => width
  | .putstatic => -width
  | .getfield => width - 1
  | _ => -width - 1

def jumpDelta (op : Opcode) : Int :=
  if op.between .ifeq .ifle ∨ op = .ifnull ∨ op = .ifnonnull then -1
  else if op.between .ifIcmpeq .ifAcmpne then -2
  else if op = .jsr ∨ op = .jsrWide then 1
  else 0

def callDelta (type : MethodType) (receiver : Bool) : Int :=
  type.resultWidth - type.parameterSlots receiver

/-- Change in depth by an instruction; for a subroutine call, on entry to the subroutine. -/
def stackDelta : Instruction Label → Except FlowFault Int
  | .label _ | .line .. | .frame .. | .increment .. => .ok 0
  | .plain op => plainDelta op
  | .int op _ => .ok (if op = .newarray then 0 else 1)
  | .var op _ => .ok (varDelta op)
  | .type op _ => .ok (if op = .new then 1 else 0)
  | .field op member => return fieldDelta op (← parseField member.descriptor).width
  | .invoke op member _ => return callDelta (← parseMethod member.descriptor) (op ≠ .invokestatic)
  | .invokeDynamic _ descriptor _ _ => return callDelta (← parseMethod descriptor) false
  | .jump op _ => .ok (jumpDelta op)
  | .load value => .ok (if value.isWide then 2 else 1)
  | .tableSwitch .. | .lookupSwitch .. => .ok (-1)
  | .multiArray _ dimensions => .ok (1 - dimensions.toNat)

def localsUsed : Instruction Label → Nat
  | .var op slot =>
    slot.toNat + (if op = .lload ∨ op = .dload ∨ op = .lstore ∨ op = .dstore then 2 else 1)
  | .increment slot _ => slot.toNat + 1
  | _ => 0

def isCall : Instruction Label → Bool
  | .jump op _ => op == .jsr || op == .jsrWide
  | _ => false

structure DepthState where
  depths : Array (Option Int)
  maxStack : Int
  work : Worklist

namespace DepthState

/-- Lets a depth flow to an instruction, where every path must arrive with the same one. -/
def flowInto (target : Nat) (depth : Int) : DepthState → Except FlowFault DepthState
  | ⟨depths, maxStack, work⟩ =>
    match depths[target]? with
    | none => .error (.outsideCode target)
    | some none => .ok ⟨depths.setIfInBounds target (some depth), maxStack, work.push target⟩
    | some (some existing) =>
      if existing = depth then .ok ⟨depths, maxStack, work⟩
      else .error (.heightMismatch depth existing)

def raise (state : DepthState) (depth : Int) : DepthState :=
  { state with maxStack := max state.maxStack depth }

def pop : DepthState → Option Nat × DepthState
  | ⟨depths, maxStack, work⟩ =>
    let (next, work) := work.pop
    (next, ⟨depths, maxStack, work⟩)

def arrive (program : Program) (state : DepthState) (target : Nat) (depth : Int) :
    Except Error DepthState :=
  (flowInto target depth state).mapError (program.fault target)

def edges (program : Program) (index : Nat) (insn : Instruction Label) (before after : Int) :
    Except FlowFault (List (Nat × Int)) := do
  if isCall insn then
    let targets ← insn.jumpTargets.mapM program.positions.find
    return targets.map (·, after) ++
      (if index + 1 < program.code.size then [(index + 1, before)] else [])
  else
    return (← successors program.code program.positions index insn).map (·, after)

def visit (program : Program) (state : DepthState) (index : Nat) : Except Error DepthState := do
  match state.depths.getD index none, program.code[index]? with
  | some before, some insn =>
    let delta ← (stackDelta insn).mapError (program.fault index)
    let after := before + delta
    if after < 0 then throw (program.fault index .stackUnderflow)
    let state := state.raise after
    let covering := if insn.isMarker then [] else program.handlers.filter (·.covers index)
    let state ← covering.foldlM
      (fun state range => return (← arrive program state range.handler 1).raise 1) state
    let edges ← (edges program index insn before after).mapError (program.fault index)
    edges.foldlM (fun state (target, depth) => arrive program state target depth) state
  | _, _ => return state

end DepthState

/-- Depth of the stack and number of locals that a method needs. Every instruction is visited at
most once. -/
def computeMaxima (program : Program) : Except Error (Nat × Nat) := do
  let locals := program.code.toList.foldl (fun most insn => max most (localsUsed insn))
    (SlotFrame.initial program.context).locals.length
  let size := program.code.size
  if size = 0 then return (0, locals)
  let start : DepthState :=
    { depths := (Array.replicate size none).setIfInBounds 0 (some 0)
      maxStack := 0
      work := (Worklist.empty size).push 0 }
  let final ← drain DepthState.pop (DepthState.visit program)
    (.inconsistent (.unsettledTypes program.context.displayName)) size start
  return (final.maxStack.toNat, locals)

end ClassTree.Flow
