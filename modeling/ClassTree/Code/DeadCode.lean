import ClassTree.Code.Layout
import ClassTree.Flow.Types
import ClassTree.Method

namespace ClassTree.Code

/-- A run of unreachable instructions, uninterrupted by reachable ones, and the labels before and
after it. -/
structure DeadRun where
  start : Label
  stop : Label
  startOffset : Nat

/-- An element of the code, whether it is unreachable, and if so whether its run ends with it. -/
structure Reached where
  insn : Instruction Label
  size : Nat
  offset : Nat
  isDead : Bool
  isLast : Bool

/-- Pairs each element with what is known of it, from the end of the code on. -/
def reach (code : List (Instruction Label)) (frames : Array (Option Flow.SlotFrame))
    (offsets : Offsets) : List Reached :=
  (code.zipIdx.reverse.foldl
    (fun (found, deadFollows) (insn, index) =>
      let isDead := !insn.isMarker && (frames.getD index none).isNone
      let offset := offsets.getD index 0
      let entry : Reached :=
        { insn, isDead, offset, size := offsets.getD (index + 1) 0 - offset,
          isLast := isDead && !deadFollows }
      (entry :: found, if insn.isMarker then deadFollows else isDead))
    ([], false)).1

/-- The code replaced so far (in reverse), and the run that is being replaced. -/
structure Replacement where
  code : List (Instruction Label)
  labels : Nat
  /-- Runs so far, in reverse. -/
  runs : List DeadRun
  current : Option (Label × Nat)

namespace Replacement

def enter (state : Replacement) (offset : Nat) : Replacement :=
  match state.current with
  | some _ => state
  | none =>
    let start : Label := ⟨state.labels⟩
    { state with
      code := .label start :: state.code
      labels := state.labels + 1
      current := some (start, offset) }

def leave (state : Replacement) : Replacement :=
  match state.current with
  | none => state
  | some (start, startOffset) =>
    let stop : Label := ⟨state.labels⟩
    { code := .label stop :: state.code
      labels := state.labels + 1
      runs := ⟨start, stop, startOffset⟩ :: state.runs
      current := none }

def step (state : Replacement) (entry : Reached) : Replacement :=
  if !entry.isDead then { state with code := entry.insn :: state.code }
  else
    let state := state.enter entry.offset
    if entry.isLast then
      leave { state with
        code := .plain .athrow :: List.replicate (entry.size - 1) (.plain .nop) ++ state.code }
    else { state with code := List.replicate entry.size (.plain .nop) ++ state.code }

end Replacement

/-- Replaces unreachable instructions by as many bytes. -/
def replaceDead (code : List (Instruction Label)) (labels : Nat)
    (frames : Array (Option Flow.SlotFrame)) (offsets : Offsets) :
    List (Instruction Label) × Nat × List DeadRun :=
  let final := (reach code frames offsets).foldl Replacement.step ⟨[], labels, [], none⟩
  (final.code.reverse, final.labels, final.runs.reverse)

/-- The parts of a handler's range cut so far (in reverse), and where the rest starts. -/
structure Cut where
  parts : List TryCatch
  start : Label
  startOffset : Nat

namespace Cut

def step (offsets : LabelOffsets) (handler : TryCatch) (stop : Nat) (cut : Cut) (run : DeadRun) :
    Cut :=
  let runStop := offsets.at run.stop
  if runStop ≤ cut.startOffset ∨ stop ≤ run.startOffset then cut
  else
    { parts :=
        if cut.startOffset < run.startOffset then
          { handler with start := cut.start, stop := run.start } :: cut.parts
        else cut.parts
      start := run.stop
      startOffset := runStop }

end Cut

def splitHandler (offsets : LabelOffsets) (runs : List DeadRun) (handler : TryCatch) :
    List TryCatch :=
  let stop := offsets.at handler.stop
  let cut := runs.foldl (Cut.step offsets handler stop)
    ⟨[], handler.start, offsets.at handler.start⟩
  cut.parts.reverse ++
    (if cut.startOffset < stop then [{ handler with start := cut.start }] else [])

def splitHandlers (offsets : LabelOffsets) (runs : List DeadRun) (handlers : List TryCatch) :
    List TryCatch :=
  handlers.flatMap (splitHandler offsets runs)

end ClassTree.Code
