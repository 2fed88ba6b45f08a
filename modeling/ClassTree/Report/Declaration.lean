import ClassTree.Method

namespace ClassTree.Declaration

/-- Result type, name and parameter types. A constructor has the name of its class. What follows
the name is left as it is, if it is no descriptor. -/
def signature (owner name descriptor : String) : String :=
  let isConstructor := name == Name.initializer
  match MethodType.parse descriptor with
  | .error _ => (if isConstructor then Name.dotted owner else name) ++ descriptor
  | .ok type =>
    (if isConstructor then Name.dotted owner else type.resultClassName ++ " " ++ name) ++
      "(" ++ ", ".intercalate (type.parameters.map FieldType.className) ++ ")"

def throwsClause (exceptions : List String) : String :=
  if exceptions.isEmpty then ""
  else " throws" ++ ",".intercalate (exceptions.map fun name => " " ++ Name.dotted name)

def ofMethod (owner : String) (method : Method) : String :=
  String.join (method.access.modifiers.map (· ++ " ")) ++
    signature owner method.name method.descriptor ++ throwsClause method.exceptions

def isStaticCall (op : Opcode) : Bool :=
  op == .invokestatic

/-- Declaration of an invoked method, as far as the invocation tells. -/
def ofInvocation (op : Opcode) (member : Member) : String :=
  (if isStaticCall op then "static " else "") ++
    signature member.owner member.name member.descriptor

end ClassTree.Declaration
