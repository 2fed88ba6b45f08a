import ClassTree.Method

namespace ClassTree

namespace Method

def variablesBySlot (localVariables : List LocalVariable) : List LocalVariable :=
  localVariables.mergeSort fun entry₁ entry₂ => entry₁.slot ≤ entry₂.slot

/-- Names of the first variables after the receiver, if there are enough of them. -/
def namesFromVariables? (isStatic : Bool) (count : Nat) (localVariables : List LocalVariable) :
    Option (List String) :=
  let skipped := if isStatic then 0 else 1
  if skipped + count ≤ localVariables.length then
    some ((((variablesBySlot localVariables).drop skipped).take count).map LocalVariable.name)
  else none

def typeName (type : FieldType) : String :=
  Name.afterLast '.' type.className

/-- Names of the parameters: those of the variables, or else those of their types. -/
def parameterNames (method : Method) : List String :=
  match method.type? with
  | .error _ => []
  | .ok type =>
    (method.localVariables.bind
      (namesFromVariables? method.isStatic type.parameters.length)).getD
      (type.parameters.map typeName)

end Method

namespace Name

def identifier (name : String) : String :=
  name.map fun c => if "[]<>;/.".contains c then '_' else c

/-- Name for a method that tells overloads apart: its class, its own name, and the types of its
parameters. -/
def unique (owner name descriptor : String) : String :=
  let parameters := match MethodType.parse descriptor with
    | .ok type => type.parameters
    | .error _ => []
  identifier owner ++ "_" ++ name ++
    String.join (parameters.map fun type => "_" ++ identifier type.className)

end Name
end ClassTree
