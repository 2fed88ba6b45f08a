import ClassTree.Flow.Execution
import ClassTree.Flow.Graph

namespace ClassTree.Flow

structure Program where
  context : Context
  code : Array (Instruction Label)
  positions : Positions
  handlers : List HandlerRange

namespace Program

def fault (program : Program) (index : Nat) (fault : FlowFault) : Error :=
  .inconsistent (.verification program.context.displayName index fault)

end Program

/-- The types before every instruction; those never reached have none. -/
structure TypeFlow where
  frames : Array (Option SlotFrame)
  maxStack : Nat
  maxLocals : Nat

structure TypeState where
  flow : TypeFlow
  work : Worklist

/-- Type of the exception that each handler starts with. Ranges that share a handler have their
types merged. Only throwables are caught, so a merge that comes out as `java/lang/Object` means
`java/lang/Throwable`. -/
def entryTypes (hierarchy : Hierarchy) (handlers : List HandlerRange) : Std.HashMap Nat String :=
  handlers.foldl (fun types range =>
    let caught := range.catchType.getD Name.throwable
    let merged := match types[range.handler]? with
      | none => caught
      | some existing =>
        let common := hierarchy.commonSuperclass existing caught
        if common = Name.object then Name.throwable else common
    types.insert range.handler merged) ∅

/-- Merges two types at the same place of the stack, where something usable must be left. -/
def mergeOnStack (hierarchy : Hierarchy) (existing incoming : SlotType) :
    Except FlowFault SlotType :=
  let merged := mergeTypes hierarchy existing incoming
  if merged = .top ∧ existing ≠ .top then .error (.unmergeable existing incoming)
  else .ok merged

def mergeStacks (hierarchy : Hierarchy) (existing incoming : List SlotType) :
    Except FlowFault (List SlotType) :=
  (existing.reverse.zip incoming.reverse).foldlM
    (fun merged (type₁, type₂) => return (← mergeOnStack hierarchy type₁ type₂) :: merged) []

def mergeFrames (hierarchy : Hierarchy) (existing incoming : SlotFrame) :
    Except FlowFault SlotFrame := do
  if existing.stack.length ≠ incoming.stack.length then
    throw (.heightMismatch incoming.stack.length existing.stack.length)
  let stack ← mergeStacks hierarchy existing.stack incoming.stack
  return ⟨List.zipWith (mergeTypes hierarchy) existing.locals incoming.locals, stack⟩

namespace TypeState

def flowInto (hierarchy : Hierarchy) (target : Nat) (incoming : SlotFrame) :
    TypeState → Except FlowFault TypeState
  | ⟨⟨frames, maxStack, maxLocals⟩, work⟩ =>
    match frames[target]? with
    | none => .error (.outsideCode target)
    | some none =>
      .ok ⟨⟨frames.setIfInBounds target (some incoming), maxStack, maxLocals⟩, work.push target⟩
    | some (some existing) => do
      let merged ← mergeFrames hierarchy existing incoming
      if merged = existing then return ⟨⟨frames, maxStack, maxLocals⟩, work⟩
      return ⟨⟨frames.setIfInBounds target (some merged), maxStack, maxLocals⟩, work.push target⟩

def raise (stack locals : Nat) : TypeState → TypeState
  | ⟨⟨frames, maxStack, maxLocals⟩, work⟩ =>
    ⟨⟨frames, max maxStack stack, max maxLocals locals⟩, work⟩

def pop : TypeState → Option Nat × TypeState
  | ⟨flow, work⟩ =>
    let (next, work) := work.pop
    (next, ⟨flow, work⟩)

/-- Lets the locals before and after an instruction flow into a handler that covers it. -/
def enterHandler (program : Program) (hierarchy : Hierarchy) (types : Std.HashMap Nat String)
    (before after : SlotFrame) (state : TypeState) (range : HandlerRange) :
    Except Error TypeState := do
  let stack : List SlotType := [.object (types.getD range.handler Name.throwable)]
  let state ← [before.locals, after.locals].foldlM
    (fun state locals => (flowInto hierarchy range.handler ⟨locals, stack⟩ state).mapError
      (program.fault range.handler)) state
  return state.raise 1 0

/-- Executes the instruction at an index and follows control from there. -/
def visit (program : Program) (hierarchy : Hierarchy) (types : Std.HashMap Nat String)
    (state : TypeState) (index : Nat) : Except Error TypeState := do
  match state.flow.frames.getD index none, program.code[index]? with
  | some before, some insn =>
    let ((), after) ← ((execute program.context program.code index insn).run before).mapError
      (program.fault index)
    let state := state.raise after.stack.length after.locals.length
    let covering := if insn.isMarker then [] else program.handlers.filter (·.covers index)
    let state ← covering.foldlM (enterHandler program hierarchy types before after) state
    let targets ← (successors program.code program.positions index insn).mapError
      (program.fault index)
    targets.foldlM
      (fun state target => (flowInto hierarchy target after state).mapError (program.fault target))
      state
  | _, _ => return state

end TypeState

def spelling : Instruction Label → Nat
  | .type _ name => name.length
  | .field _ member | .invoke _ member _ => member.descriptor.length
  | .invokeDynamic _ descriptor _ _ | .multiArray descriptor _ => descriptor.length
  | _ => 0

def total (weigh : α → Nat) : List α → Nat
  | [] => 0
  | element :: rest => weigh element + total weigh rest

def Program.spelled (program : Program) : Nat :=
  program.context.displayName.length +
    total (fun range => (range.catchType.map String.length).getD 0) program.handlers +
    total spelling program.code.toList

def spread (hierarchy : Hierarchy) : Nat :=
  total String.length hierarchy.parents

/-- How deep arrays can be nested. Superclasses can be spelled like array types, and a merge
can come out as one of them; but each time a merge adds dimensions that way, the class below
them is further up. -/
def Program.nesting (program : Program) (hierarchy : Hierarchy) : Nat :=
  program.spelled + 1 + spread hierarchy * (hierarchy.parents.length + 1)

/-- No frame has more slots: every local has a number of 16 bits, and every instruction adds at
most two slots to the stack. -/
def Program.slots (program : Program) : Nat :=
  (SlotFrame.initial program.context).locals.length + 0x10001 + 2 * program.code.size

/-- There are no more visits. An instruction is visited again only after some type before it went
up; and a type goes up at most through the dimensions of an array, and through as many classes in
each as there are superclasses. -/
def Program.visits (program : Program) (hierarchy : Hierarchy) : Nat :=
  let heights := (program.nesting hierarchy + 1) * (hierarchy.parents.length + 4)
  program.code.size * (program.slots * (heights + 1) + 1) + 1

/-- Computes the types before every instruction. -/
def computeTypes (hierarchy : Hierarchy) (program : Program) : Except Error TypeFlow := do
  let initial := SlotFrame.initial program.context
  if program.code.isEmpty then throw (program.fault 0 .emptyBody)
  let size := program.code.size
  let start : TypeState :=
    { flow := ⟨(Array.replicate size none).setIfInBounds 0 (some initial), 0, initial.locals.length⟩
      work := (Worklist.empty size).push 0 }
  let types := entryTypes hierarchy program.handlers
  let final ← drain TypeState.pop (TypeState.visit program hierarchy types)
    (.inconsistent (.unsettledTypes program.context.displayName))
    (program.visits hierarchy) start
  return final.flow

end ClassTree.Flow
