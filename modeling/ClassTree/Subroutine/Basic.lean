import ClassTree.Code.Labels
import ClassTree.Flow.Graph

namespace ClassTree

/-- A subroutine, or the body of the method itself, which nothing calls. -/
structure Subroutine where
  /-- Label that calls jump to. -/
  entry : Option Label
  /-- Which elements of the code belong to it. -/
  members : Array Bool

structure Subroutine.Outline where
  method : Method
  code : Array (Instruction Label)
  positions : Flow.Positions

namespace Subroutine

def claims (subroutine : Subroutine) (index : Nat) : Bool :=
  subroutine.members.getD index false

def callTarget? : Instruction Label → Option Label
  | .jump .jsr target => some target
  | _ => none

/-- Labels that are called, in the order of their first calls. -/
def entries (code : List (Instruction Label)) : List Label :=
  (code.filterMap callTarget?).eraseDups

/-- Marks what can be reached from the pending indices and is not yet marked, the last found
being followed first. -/
def reach (next : Nat → Except ε (List Nat)) (marked : Array Bool) :
    List Nat → Except ε (Array Bool)
  | [] => .ok marked
  | index :: pending =>
    if h : ∃ hi : index < marked.size, marked[index] = false then
      match next index with
      | .error fault => .error fault
      | .ok found => reach next (marked.set index true h.1) (found ++ pending)
    else reach next marked pending
termination_by pending => (marked.count false, pending.length)
decreasing_by
  · obtain ⟨hi, hf⟩ := h
    have hpos : 0 < marked.count false := Array.count_pos_iff.mpr (hf ▸ Array.getElem_mem hi)
    apply Prod.Lex.left
    rw [Array.count_set]
    simp only [hf, beq_self_eq_true, ↓reduceIte]
    have : ((true : Bool) == false) = false := rfl
    rw [this]
    simp only [Bool.false_eq_true, ↓reduceIte]
    omega
  · apply Prod.Lex.right
    simp

namespace Outline

def ofMethod (method : Method) : Outline :=
  ⟨method, method.body.code.toArray, .ofCode method.body.code⟩

def unresolved (outline : Outline) (label : Label) : Inconsistency :=
  .unresolvedLabel outline.method.displayName label

def position (outline : Outline) (label : Label) : Except Inconsistency Nat :=
  match outline.positions[label]? with
  | some index => .ok index
  | none => .error (outline.unresolved label)

/-- Where control can go from an element, calls left aside: to the next element first, then to
the last target of a jump. -/
def following (outline : Outline) (index : Nat) : Except Inconsistency (List Nat) := do
  match outline.code[index]? with
  | none => return []
  | some insn =>
    let targets ← if (callTarget? insn).isSome then pure []
      else insn.jumpTargets.mapM outline.position
    let continues := insn.opcode?.all fun op => !op.endsBlock
    return (if continues && index + 1 < outline.code.size then [index + 1] else [])
      ++ targets.reverse

/-- Marks a handler and what follows it, if it protects something marked. -/
def reachHandler (outline : Outline) (marked : Array Bool) (handler : TryCatch) :
    Except Inconsistency (Array Bool) := do
  let entry ← outline.position handler.handler
  if marked.getD entry false then return marked
  let start ← outline.position handler.start
  let stop ← outline.position handler.stop
  if (marked.extract start stop).any id then reach outline.following marked [entry]
  else return marked

def reachHandlers (outline : Outline) (marked : Array Bool) :
    Except Inconsistency (Array Bool) :=
  match outline.method.handlers.foldlM outline.reachHandler marked with
  | .error cause => .error cause
  | .ok found =>
    if found.count false < marked.count false then reachHandlers outline found else .ok found
termination_by marked.count false

def membersFrom (outline : Outline) (start : Nat) : Except Inconsistency (Array Bool) := do
  let marked ← reach outline.following (Array.replicate outline.code.size false) [start]
  outline.reachHandlers marked

def subroutineAt (outline : Outline) (entry : Label) : Except Inconsistency Subroutine := do
  return ⟨some entry, ← outline.membersFrom (← outline.position entry)⟩

/-- The body of the method, and its subroutines in the order of their first calls. -/
def subroutines (outline : Outline) : Except Inconsistency (Subroutine × List Subroutine) := do
  let body ← outline.membersFrom 0
  let called ← (entries outline.method.body.code).mapM outline.subroutineAt
  return (⟨none, body⟩, called)

end Outline
end Subroutine
end ClassTree
