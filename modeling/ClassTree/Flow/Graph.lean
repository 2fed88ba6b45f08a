import Std.Data.HashMap
import ClassTree.Error

namespace ClassTree.Flow

abbrev Positions := Std.HashMap Label Nat

def Positions.ofCode (code : List (Instruction Label)) : Positions :=
  code.zipIdx.foldl (fun positions (insn, index) =>
    match insn with
    | .label label => positions.insert label index
    | _ => positions) ∅

/-- Exception handler of the instructions from `start` up to, and without, `stop`. -/
structure HandlerRange where
  start : Nat
  stop : Nat
  handler : Nat
  catchType : Option String
deriving DecidableEq

def HandlerRange.covers (range : HandlerRange) (index : Nat) : Bool :=
  range.start ≤ index && index < range.stop

def Positions.find (positions : Positions) (label : Label) : Except FlowFault Nat :=
  match positions[label]? with
  | some index => .ok index
  | none => .error (.unplacedLabel label)

def fallsThrough : Instruction Label → Bool
  | .jump op _ => !(op == .goto || op == .gotoWide)
  | .tableSwitch .. | .lookupSwitch .. => false
  | .var op _ => op != .ret
  | .plain op => !op.endsBlock
  | _ => true

/-- Indices at which control can be after the element at an index, other than by an exception
or, for a subroutine call, by its return. -/
def successors (code : Array (Instruction Label)) (positions : Positions) (index : Nat)
    (insn : Instruction Label) : Except FlowFault (List Nat) := do
  let targets ← insn.jumpTargets.mapM positions.find
  if fallsThrough insn then
    if index + 1 = code.size then throw .fallsOffEnd
    return targets ++ [index + 1]
  else return targets

/-- Places waiting to be visited, the last one first and each at most once. -/
structure Worklist where
  pending : List Nat
  queued : Array Bool

namespace Worklist

def empty (size : Nat) : Worklist :=
  ⟨[], Array.replicate size false⟩

def push : Worklist → Nat → Worklist
  | ⟨pending, queued⟩, index =>
    if queued.getD index true then ⟨pending, queued⟩
    else ⟨index :: pending, queued.setIfInBounds index true⟩

def pop : Worklist → Option Nat × Worklist
  | ⟨[], queued⟩ => (none, ⟨[], queued⟩)
  | ⟨index :: pending, queued⟩ => (some index, ⟨pending, queued.setIfInBounds index false⟩)

end Worklist

def drain (pop : σ → Option Nat × σ) (visit : σ → Nat → Except ε σ) (unsettled : ε) :
    Nat → σ → Except ε σ
  | 0, state =>
    match pop state with
    | (none, state) => .ok state
    | (some _, _) => .error unsettled
  | bound + 1, state =>
    match pop state with
    | (none, state) => .ok state
    | (some index, state) => do
      let state ← visit state index
      drain pop visit unsettled bound state

end ClassTree.Flow
