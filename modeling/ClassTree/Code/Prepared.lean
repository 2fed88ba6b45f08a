import Std.Data.TreeMap
import ClassTree.Code.DeadCode
import ClassTree.Code.Labels
import ClassTree.Code.Widening
import ClassTree.Flow.Depth
import ClassTree.StackMap.Entry
import ClassTree.Version

namespace ClassTree.Code

open Pool

/-- What to compute while writing, in place of what the tree says. -/
structure Recompute where
  maxima : Bool
  /-- Frames are computed together with the maxima; old formats without frames only get those. -/
  frames : Bool
deriving DecidableEq

/-- What writing a method depends on besides the method. -/
structure Setting where
  /-- Class that declares the method. -/
  owner : String
  version : Version
  recompute : Recompute
  hierarchy : Hierarchy

namespace Setting

def computesFrames (setting : Setting) : Bool :=
  setting.recompute.frames && setting.version.usesFrames

def computesMaxima (setting : Setting) : Bool :=
  !setting.computesFrames && (setting.recompute.maxima || setting.recompute.frames)

def displayName (setting : Setting) (method : Method) : String :=
  setting.owner ++ "." ++ method.displayName

end Setting

abbrev FrameTable := Std.TreeMap Nat StackMap.EncodedFrame

structure Prepared where
  code : List (Instruction Label)
  offsets : Offsets
  handlers : List TryCatch
  frames : FrameTable
  maxStack : Nat
  maxLocals : Nat

namespace Prepared

def labelOffsets (prepared : Prepared) : LabelOffsets :=
  .ofCode prepared.code prepared.offsets

end Prepared

def contextOf (setting : Setting) (method : Method) : Build Context :=
  match method.type? with
  | .ok type => pure (.ofMethod setting.owner method type)
  | .error _ => throw (.inconsistent (.badDescriptor method.descriptor))

def handlerRanges (positions : Flow.Positions) (handlers : List TryCatch) :
    List Flow.HandlerRange :=
  handlers.map fun handler =>
    { start := positions.getD handler.start 0, stop := positions.getD handler.stop 0
      handler := positions.getD handler.handler 0, catchType := handler.catchType }

def programOf (context : Context) (code : List (Instruction Label)) (handlers : List TryCatch) :
    Flow.Program :=
  let positions := Flow.Positions.ofCode code
  { context, code := code.toArray, positions, handlers := handlerRanges positions handlers }

/-- A frame with its classes in the pool and offsets in place of indices. -/
def encodeFrame (offsets : Offsets) (frame : Flow.SlotFrame) : Build StackMap.EncodedFrame :=
  frame.toFrame.traverse Build.classRef fun index => UInt16.ofNat (offsets.getD index 0)

/-- Positions that control enters other than from the element before: where a frame is needed. -/
def framePoints (program : Flow.Program) : List Nat :=
  (program.code.toList.flatMap Instruction.jumpTargets).filterMap (program.positions[·]?) ++
    program.handlers.map Flow.HandlerRange.handler

def computedFrames (program : Flow.Program) (flow : Flow.TypeFlow) (offsets : Offsets) :
    Build FrameTable :=
  (framePoints program).foldlM (fun table point =>
    match flow.frames.getD point none with
    | none => pure table
    | some frame => return table.insert (offsets.getD point 0) (← encodeFrame offsets frame)) ∅

def deadFrame : Build StackMap.EncodedFrame :=
  return ⟨[], [.object (← Build.classRef Name.throwable)]⟩

/-- Whether the code calls or leaves subroutines, which frames cannot describe. -/
def usesSubroutines (code : List (Instruction Label)) : Bool :=
  code.any fun insn =>
    insn.opcode? == some .jsr || insn.opcode? == some .jsrWide || insn.opcode? == some .ret

def withoutDead (laidOut : LaidOut) (flow : Flow.TypeFlow) (handlers : List TryCatch)
    (frames : FrameTable) : Build Prepared := do
  let (code, _, runs) := replaceDead laidOut.code laidOut.labels flow.frames laidOut.offsets
  if runs.isEmpty then
    return { code, offsets := laidOut.offsets, handlers, frames,
             maxStack := flow.maxStack, maxLocals := flow.maxLocals }
  let dead ← deadFrame
  let offsets ← layout code
  return { code, offsets
           handlers := splitHandlers (.ofCode code offsets) runs handlers
           frames := runs.foldl (fun table run => table.insert run.startOffset dead) frames
           maxStack := max flow.maxStack 1
           maxLocals := flow.maxLocals }

def prepareWithFrames (setting : Setting) (method : Method) : Build Prepared := do
  let name := setting.displayName method
  if usesSubroutines method.body.code then
    throw (.unsupported
      s!"{name}: frames cannot be computed for subroutines (inline jsr/ret first)")
  let unframed := method.body.code.filter fun insn => !insn.isFrame
  let laidOut ← widen name false { method.body with code := unframed }
  let program := programOf (← contextOf setting method) laidOut.code method.handlers
  let flow ← MonadExcept.ofExcept (Flow.computeTypes setting.hierarchy program)
  let frames ← computedFrames program flow laidOut.offsets
  withoutDead laidOut flow method.handlers frames

/-- Frames placed by hand, except for those after the end of the code. -/
def placedFrames (laidOut : LaidOut) : Build FrameTable :=
  let labels := LabelOffsets.ofCode laidOut.code laidOut.offsets
  laidOut.code.zipIdx.foldlM (fun table (insn, index) =>
    let offset := laidOut.offsets.getD index 0
    match insn with
    | .frame locals stack =>
      if offset < laidOut.offsets.length then
        return table.insert offset (← (Frame.mk locals stack).traverse Build.classRef
          fun label => UInt16.ofNat (labels.at label))
      else pure table
    | _ => pure table) ∅

/-- Depth of the stack and number of locals of a method whose frames are not computed. -/
def maxima (setting : Setting) (method : Method) (code : List (Instruction Label)) :
    Build (Nat × Nat) := do
  if setting.computesMaxima then
    let context ← contextOf setting method
    MonadExcept.ofExcept (Flow.computeMaxima (programOf context code method.handlers))
  else return (method.maxStack.toNat, method.maxLocals.toNat)

def prepareAsIs (setting : Setting) (method : Method) : Build Prepared := do
  let hasFrames := method.body.code.any Instruction.isFrame
  let laidOut ← widen (setting.displayName method) hasFrames method.body
  let (maxStack, maxLocals) ← maxima setting method laidOut.code
  let frames ← if setting.version.usesFrames then placedFrames laidOut else pure ∅
  return { code := laidOut.code, offsets := laidOut.offsets, handlers := method.handlers,
           frames, maxStack, maxLocals }

def prepare (setting : Setting) (method : Method) : Build Prepared := do
  MonadExcept.ofExcept ((method.checkLabels (setting.displayName method)).mapError .inconsistent)
  if setting.computesFrames then prepareWithFrames setting method
  else prepareAsIs setting method

end ClassTree.Code
