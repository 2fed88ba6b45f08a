import ClassTree.Context
import ClassTree.Error
import ClassTree.Flow.Merge
import ClassTree.StackMap.Frame

namespace ClassTree.Flow

/-- Types before an instruction. The stack is listed from the top down, so that a wide value is
preceded by the `top` entry of its second half. -/
structure SlotFrame where
  locals : List SlotType
  stack : List SlotType
deriving DecidableEq

abbrev Transition := StateT SlotFrame (Except FlowFault)

namespace SlotFrame

def initial (context : Context) : SlotFrame :=
  ⟨Frame.expand context.entryLocals, []⟩

def toFrame (frame : SlotFrame) : Frame String Nat :=
  .ofSlots frame.locals frame.stack.reverse

/-- The frame after a value is stored in a local. A wide value that is cut in half is gone. -/
def store (frame : SlotFrame) (slot : Nat) (type : SlotType) : SlotFrame :=
  let locals := frame.locals ++
    List.replicate (slot + type.width - frame.locals.length) .top
  let locals :=
    if 0 < slot ∧ (locals[slot - 1]?.map VerificationType.width) = some 2 then
      locals.set (slot - 1) .top
    else locals
  let locals := locals.set slot type
  { frame with locals := if type.width = 2 then locals.set (slot + 1) .top else locals }

def construct (frame : SlotFrame) (uninitialized initialized : SlotType) : SlotFrame :=
  let settle (type : SlotType) : SlotType := if type = uninitialized then initialized else type
  ⟨frame.locals.map settle, frame.stack.map settle⟩

end SlotFrame

namespace Transition

def fail (fault : FlowFault) : Transition α :=
  throw fault

def getStack : Transition (List SlotType) :=
  return (← get).stack

def setStack (stack : List SlotType) : Transition Unit :=
  modify fun frame => { frame with stack }

def push (type : SlotType) : Transition Unit := do
  let stack ← getStack
  setStack (if type.width = 2 then .top :: type :: stack else type :: stack)

def pop : Transition SlotType := do
  match ← getStack with
  | [] => fail .stackUnderflow
  | .top :: type :: rest =>
    if type.width = 2 then
      setStack rest
      return type
    else fail .halfValue
  | [.top] => fail .halfValue
  | type :: rest =>
    setStack rest
    return type

def popExpecting (expected : SlotType) : Transition Unit := do
  let found ← pop
  if found ≠ expected then fail (.unexpectedType expected found)

def popReference : Transition SlotType := do
  let found ← pop
  if found.isReference then return found else fail (.notAReference found)

/-- Pops a value of a field type. Of a reference, the class is not checked. -/
def popField : FieldType → Transition Unit
  | .ref _ => do let _ ← popReference
  | .base type => popExpecting (.ofFieldType (.base type))

def popArguments (type : MethodType) : Transition Unit :=
  type.parameters.reverse.forM popField

def pushResult (type : MethodType) : Transition Unit :=
  match type.result with
  | some result => push (.ofFieldType result)
  | none => pure ()

/-- Makes sure that the top `count` slots are there and that no wide value sticks out of them. -/
def checkTop (count : Nat) : Transition Unit := do
  match (← getStack)[count - 1]? with
  | none => fail .stackUnderflow
  | some .top => fail .splitValue
  | some _ => pure ()

def dup (count depth : Nat) : Transition Unit := do
  let stack ← getStack
  if stack.length < count + depth then fail .stackUnderflow
  checkTop count
  checkTop (count + depth)
  setStack (stack.take (count + depth) ++ stack.take count ++ stack.drop (count + depth))

def popSlots (count : Nat) : Transition Unit := do
  checkTop count
  setStack ((← getStack).drop count)

def swap : Transition Unit := do
  match ← getStack with
  | type₁ :: type₂ :: rest =>
    checkTop 1
    checkTop 2
    setStack (type₂ :: type₁ :: rest)
  | _ => fail .stackUnderflow

def loads (op : Opcode) (type : SlotType) : Bool :=
  match op with
  | .iload => type == .integer
  | .lload => type == .long
  | .fload => type == .float
  | .dload => type == .double
  | _ => type.isReference

def load (op : Opcode) (slot : UInt16) : Transition Unit := do
  match (← get).locals[slot.toNat]? with
  | none => fail (.undefinedLocal slot)
  | some type => if loads op type then push type else fail (.wrongLocal slot type)

def store (slot : UInt16) (type : SlotType) : Transition Unit :=
  modify fun frame => frame.store slot.toNat type

end Transition
end ClassTree.Flow
