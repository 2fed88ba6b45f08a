import ClassTree.Literal
import ClassTree.Opcode
import ClassTree.VerificationType

namespace ClassTree

/-- Marker of a position in the code of one method. -/
structure Label where
  index : Nat
deriving DecidableEq, Hashable

namespace Label

def render (label : Label) : String :=
  s!"l{label.index}"

end Label

inductive Instruction (ι : Type) where
  /-- No operands. -/
  | plain (op : Opcode)
  /-- An immediate operand: `BIPUSH`, `SIPUSH`, or `NEWARRAY` with an array code. -/
  | int (op : Opcode) (operand : Int32)
  /-- Loads and stores of locals, and `RET`. -/
  | var (op : Opcode) (slot : UInt16)
  /-- `NEW`, `ANEWARRAY`, `CHECKCAST` and `INSTANCEOF`. -/
  | type (op : Opcode) (name : String)
  | field (op : Opcode) (member : Member)
  | invoke (op : Opcode) (member : Member) (onInterface : Bool)
  | invokeDynamic (name descriptor : String) (bootstrap : Handle) (arguments : List Literal)
  | jump (op : Opcode) (target : ι)
  | label (label : ι)
  | load (value : Literal)
  | increment (slot : UInt16) (amount : Int16)
  | tableSwitch (low high : Int32) (default : ι) (targets : List ι)
  | lookupSwitch (default : ι) (cases : List (Int32 × ι))
  | multiArray (descriptor : String) (dimensions : UInt8)
  | line (number : UInt16) (start : ι)
  | frame (locals stack : List (VerificationType String ι))
deriving DecidableEq

namespace Instruction

def opcode? : Instruction ι → Option Opcode
  | plain op | int op _ | var op _ | type op _ | field op _ | invoke op _ _ | jump op _ => some op
  | invokeDynamic .. => some .invokedynamic
  | load _ => some .ldc
  | increment .. => some .iinc
  | tableSwitch .. => some .tableswitch
  | lookupSwitch .. => some .lookupswitch
  | multiArray .. => some .multianewarray
  | label _ | line .. | frame .. => none

def isMarker (insn : Instruction ι) : Bool :=
  insn.opcode?.isNone

def isFrame : Instruction ι → Bool
  | frame .. => true
  | _ => false

def isLine : Instruction ι → Bool
  | line .. => true
  | _ => false

/-- The position that the element marks, for a label. -/
def placed? : Instruction ι → Option ι
  | label l => some l
  | _ => none

def references : Instruction ι → List ι
  | jump _ target => [target]
  | tableSwitch _ _ default targets => default :: targets
  | lookupSwitch default cases => default :: cases.map Prod.snd
  | line _ start => [start]
  | frame locals stack => (locals ++ stack).filterMap VerificationType.creation?
  | _ => []

/-- Positions that the element marks or refers to. -/
def mentions : Instruction ι → List ι
  | label l => [l]
  | other => other.references

def jumpTargets : Instruction ι → List ι
  | jump _ target => [target]
  | tableSwitch _ _ default targets => default :: targets
  | lookupSwitch default cases => default :: cases.map Prod.snd
  | _ => []

/-- The element with every position renamed. -/
def mapLabels (f : ι → ι') : Instruction ι → Instruction ι'
  | plain op => plain op
  | int op operand => int op operand
  | var op slot => var op slot
  | type op name => type op name
  | field op member => field op member
  | invoke op member onInterface => invoke op member onInterface
  | invokeDynamic name descriptor bootstrap arguments =>
    invokeDynamic name descriptor bootstrap arguments
  | jump op target => jump op (f target)
  | label l => label (f l)
  | load value => load value
  | increment slot amount => increment slot amount
  | tableSwitch low high default targets => tableSwitch low high (f default) (targets.map f)
  | lookupSwitch default cases =>
    lookupSwitch (f default) (cases.map fun entry => (entry.1, f entry.2))
  | multiArray descriptor dimensions => multiArray descriptor dimensions
  | line number start => line number (f start)
  | frame locals stack =>
    frame (locals.map (VerificationType.mapCreation f)) (stack.map (VerificationType.mapCreation f))

@[simp] theorem isMarker_mapLabels (f : ι → ι') (insn : Instruction ι) :
    (insn.mapLabels f).isMarker = insn.isMarker := by
  cases insn <;> rfl

theorem opcode?_mapLabels (f : ι → ι') (insn : Instruction ι) :
    (insn.mapLabels f).opcode? = insn.opcode? := by
  cases insn <;> rfl

theorem placed?_mapLabels (f : ι → ι') (insn : Instruction ι) :
    (insn.mapLabels f).placed? = insn.placed?.map f := by
  cases insn <;> rfl

theorem jumpTargets_mapLabels (f : ι → ι') (insn : Instruction ι) :
    (insn.mapLabels f).jumpTargets = insn.jumpTargets.map f := by
  cases insn <;> simp [mapLabels, jumpTargets]

def sameValue [DecidableEq ι] : Instruction ι → Instruction ι → Bool
  | load value₁, load value₂ => value₁.sameValue value₂
  | invokeDynamic name₁ descriptor₁ bootstrap₁ arguments₁,
    invokeDynamic name₂ descriptor₂ bootstrap₂ arguments₂ =>
    name₁ == name₂ && descriptor₁ == descriptor₂ && bootstrap₁ == bootstrap₂ &&
      arguments₁.length == arguments₂.length &&
      (arguments₁.zip arguments₂).all fun pair => pair.1.sameValue pair.2
  | other₁, other₂ => other₁ == other₂

end Instruction
end ClassTree
