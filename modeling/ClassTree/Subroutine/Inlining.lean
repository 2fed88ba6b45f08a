import ClassTree.Relabelling
import ClassTree.Subroutine.Basic

namespace ClassTree.Subroutine

structure Instance where
  subroutine : Subroutine
  /-- Label after the call. -/
  returnLabel : Option Label
  /-- What stands for each label of the method. -/
  labels : Std.HashMap Label Label

/-- An instance, and those that its call is nested in, from the inside out. -/
structure Nesting where
  inner : Instance
  outer : List Instance

namespace Nesting

/-- Whether this instance emits the element at an index. -/
def owns (nesting : Nesting) (index : Nat) : Bool :=
  nesting.inner.subroutine.claims index &&
    !nesting.outer.any (·.subroutine.claims index)

/-- The instance that emits an element which this one claims. -/
def owner? (nesting : Nesting) (index : Nat) : Option Instance :=
  if nesting.inner.subroutine.claims index then
    (nesting.inner :: nesting.outer).reverse.find? (·.subroutine.claims index)
  else none

def isWithin (nesting : Nesting) (entry : Option Label) : Bool :=
  (nesting.inner :: nesting.outer).any (·.subroutine.entry == entry)

end Nesting

/-- Standing for labels. Those with nothing emitted in between share one. -/
structure Cloning where
  /-- Labels handed out so far. -/
  supply : Nat
  current : Option Label
  labels : Std.HashMap Label Label

namespace Cloning

def step (owns : Nat → Bool) (state : Cloning) (entry : Instruction Label × Nat) : Cloning :=
  match entry.1.placed? with
  | some label =>
    match state.current with
    | some clone => { state with labels := state.labels.insert label clone }
    | none =>
      let clone : Label := ⟨state.supply⟩
      { supply := state.supply + 1, current := some clone
        labels := state.labels.insert label clone }
  | none => if owns entry.2 then { state with current := none } else state

end Cloning

structure Emission where
  /-- Labels handed out so far. -/
  supply : Nat
  /-- The label placed last. -/
  previous : Option Label
  /-- Code so far, in reverse. -/
  code : List (Instruction Label)
  /-- Instances for the calls so far, in reverse. -/
  calls : List Nesting

structure Job where
  outline : Outline
  subroutines : List Subroutine

namespace Job

/-- A new instance within others, which are the ones of a call. Nothing can be within itself. -/
def instantiate (job : Job) (supply : Nat) (subroutine : Subroutine) (caller : Option Nesting) :
    Except Inconsistency (Nesting × Nat) := do
  if caller.any (·.isWithin subroutine.entry) then
    throw (.recursiveSubroutine job.outline.method.displayName)
  let (returnLabel, supply) : Option Label × Nat :=
    if caller.isSome then (some ⟨supply⟩, supply + 1) else (none, supply)
  let outer := (caller.map fun nesting => nesting.inner :: nesting.outer).getD []
  let bare : Nesting := ⟨⟨subroutine, returnLabel, ∅⟩, outer⟩
  let cloned := job.outline.method.body.code.zipIdx.foldl (Cloning.step bare.owns)
    ⟨supply, none, ∅⟩
  return (⟨⟨subroutine, returnLabel, cloned.labels⟩, outer⟩, cloned.supply)

def rangeLabel (job : Job) (nesting : Nesting) (label : Label) : Except Inconsistency Label :=
  match nesting.inner.labels[label]? with
  | some clone => .ok clone
  | none => .error (job.outline.unresolved label)

/-- What stands for a label that is jumped to: it is in the instance that emits what is there. -/
def jumpLabel (job : Job) (nesting : Nesting) (label : Label) : Except Inconsistency Label := do
  let index ← job.outline.position label
  match (nesting.owner? index).bind fun owner => owner.labels[label]? with
  | some clone => return clone
  | none => throw (job.outline.unresolved label)

def resolve (job : Job) (nesting : Nesting) (insn : Instruction Label) :
    Except Inconsistency (Instruction Label) := do
  let resolved ← insn.references.mapM fun label => return (label, ← job.jumpLabel nesting label)
  let clones := Std.HashMap.ofList resolved
  return insn.mapLabels fun label => clones.getD label label

def emitCall (job : Job) (nesting : Nesting) (target : Label) (state : Emission) :
    Except Inconsistency Emission := do
  match job.subroutines.find? (·.entry == some target) with
  | none => throw (job.outline.unresolved target)
  | some subroutine =>
    let (called, supply) ← job.instantiate state.supply subroutine (some nesting)
    let entry ← job.jumpLabel called target
    let back := (called.inner.returnLabel.map Instruction.label).toList
    return { state with
      supply
      code := back ++ .jump .goto entry :: .plain .aconstNull :: state.code
      calls := called :: state.calls }

def emitOwned (job : Job) (nesting : Nesting) (insn : Instruction Label) (state : Emission) :
    Except Inconsistency Emission := do
  match insn with
  | .var .ret _ =>
    match nesting.inner.returnLabel with
    | some target => return { state with code := .jump .goto target :: state.code }
    | none => throw (.retOutsideSubroutine job.outline.method.displayName)
  | .jump .jsr target => job.emitCall nesting target state
  | .frame .. => return state
  | other => return { state with code := (← job.resolve nesting other) :: state.code }

/-- Emits an element, if it belongs to an instance. Labels belong to all of them. -/
def emitElement (job : Job) (nesting : Nesting) (state : Emission)
    (entry : Instruction Label × Nat) : Except Inconsistency Emission := do
  match entry.1.placed? with
  | some label =>
    let clone ← job.rangeLabel nesting label
    if state.previous = some clone then return state
    return { state with previous := some clone, code := .label clone :: state.code }
  | none =>
    if nesting.owns entry.2 then job.emitOwned nesting entry.1 state else return state

def emitHandler (job : Job) (nesting : Nesting) (handler : TryCatch) :
    Except Inconsistency (Option TryCatch) := do
  let start ← job.rangeLabel nesting handler.start
  let stop ← job.rangeLabel nesting handler.stop
  if start = stop then return none
  return some ⟨start, stop, ← job.jumpLabel nesting handler.handler, handler.catchType⟩

def emitVariable (job : Job) (nesting : Nesting) (entry : LocalVariable) :
    Except Inconsistency (Option LocalVariable) := do
  let start ← job.rangeLabel nesting entry.start
  let stop ← job.rangeLabel nesting entry.stop
  if start = stop then return none
  return some { entry with start, stop }

end Job

structure Inlined where
  supply : Nat
  code : List (Instruction Label)
  handlers : List TryCatch
  localVariables : List LocalVariable
  /-- Instances that remain to be emitted. -/
  calls : List Nesting

namespace Job

def emit (job : Job) (state : Inlined) (nesting : Nesting) : Except Inconsistency Inlined := do
  let method := job.outline.method
  let emission ← method.body.code.zipIdx.foldlM (job.emitElement nesting)
    ⟨state.supply, none, [], []⟩
  let handlers ← method.handlers.mapM (job.emitHandler nesting)
  let localVariables ← method.variableList.mapM (job.emitVariable nesting)
  return { supply := emission.supply
           code := emission.code ++ state.code
           handlers := (handlers.filterMap id).reverse ++ state.handlers
           localVariables := (localVariables.filterMap id).reverse ++ state.localVariables
           calls := emission.calls ++ state.calls }

/-- Emits the remaining instances, the ones that they call for, and so on. Instances within each
other are of different subroutines, so there are at most `depth` of them. -/
def emitAll (job : Job) : Nat → Inlined → Except Inconsistency Inlined
  | 0, state => .ok state
  | depth + 1, state => do
    let state ← state.calls.reverse.foldlM job.emit { state with calls := [] }
    job.emitAll depth state

end Job
end Subroutine

namespace Method

def callsSubroutines (method : Method) : Bool :=
  method.body.code.any fun insn => (Subroutine.callTarget? insn).isSome

/-- The method without subroutines. Frames are dropped, unless there is nothing to inline. -/
def inlineSubroutines (method : Method) : Except Inconsistency Method := do
  if !method.callsSubroutines then return method.relabelled
  method.checkPlacedOnce method.displayName
  let outline := Subroutine.Outline.ofMethod method
  let (body, subroutines) ← outline.subroutines
  let job : Subroutine.Job := ⟨outline, subroutines⟩
  let (start, supply) ← job.instantiate 0 body none
  let inlined ← job.emitAll (subroutines.length + 1) ⟨supply, [], [], [], [start]⟩
  return { method with
    body := ⟨inlined.code.reverse, inlined.supply⟩
    handlers := inlined.handlers.reverse
    localVariables := method.localVariables.map fun _ => inlined.localVariables.reverse }

end Method
end ClassTree
