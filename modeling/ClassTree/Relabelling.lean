import ClassTree.Method
import ClassTree.Numbering

namespace ClassTree.Method

/-- The method with every label renamed, and the number of labels set. -/
def mapLabels (rename : Label → Label) (labels : Nat) (method : Method) : Method :=
  { method with
    body := ⟨method.body.code.map (Instruction.mapLabels rename), labels⟩
    handlers := method.handlers.map (TryCatch.mapLabels rename)
    localVariables := method.localVariables.map (·.map (LocalVariable.mapLabels rename)) }

/-- The method with its labels numbered by first appearance. -/
def relabelled (method : Method) : Method :=
  let numbers := Numbering.ofList method.mentions
  method.mapLabels (fun label => ⟨numbers.getD label 0⟩) numbers.size

/-- The relabelled method without line numbers; labels that only those mention are gone. -/
def withoutLines (method : Method) : Method :=
  let code := method.body.code.filter fun insn => !insn.isLine
  relabelled { method with body := { method.body with code } }

end ClassTree.Method
