import Std.Data.HashSet
import ClassTree.Error
import ClassTree.Method

namespace ClassTree

/-- The first label of a list that is already among those before it or in `seen`. -/
def Label.firstRepeated? (seen : Std.HashSet Label) : List Label → Option Label
  | [] => none
  | label :: rest =>
    if seen.contains label then some label else firstRepeated? (seen.insert label) rest

namespace Body

def placed (body : Body) : List Label :=
  body.code.filterMap Instruction.placed?

end Body

namespace Method

/-- Labels referred to by code, handlers and variables, in order. -/
def references (method : Method) : List Label :=
  method.body.code.flatMap Instruction.references ++ method.handlers.flatMap TryCatch.mentions ++
    method.variableList.flatMap LocalVariable.mentions

def checkPlacedOnce (name : String) (method : Method) : Except Inconsistency Unit :=
  match Label.firstRepeated? ∅ method.body.placed with
  | some label => .error (.duplicateLabel name label)
  | none => .ok ()

def checkResolved (name : String) (method : Method) : Except Inconsistency Unit :=
  let placed := Std.HashSet.ofList method.body.placed
  match method.references.find? fun label => !placed.contains label with
  | some label => .error (.unresolvedLabel name label)
  | none => .ok ()

def checkLabels (name : String) (method : Method) : Except Inconsistency Unit := do
  method.checkPlacedOnce name
  method.checkResolved name

end Method
end ClassTree
