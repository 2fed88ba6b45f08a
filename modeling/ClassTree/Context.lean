import ClassTree.Method

namespace ClassTree

structure Context where
  /-- Class that declares the method. -/
  owner : String
  name : String
  type : MethodType
  isStatic : Bool

namespace Context

def ofMethod (owner : String) (method : Method) (type : MethodType) : Context :=
  ⟨owner, method.name, type, method.isStatic⟩

/-- The receiver on entry: a constructor gets an object that no constructor has seen, unless the
object has no superclass whose constructor there would be to call. -/
def receiver (context : Context) : VerificationType String ν :=
  if context.name = Name.initializer ∧ context.owner ≠ Name.object then .uninitializedThis
  else .object context.owner

def entryLocals (context : Context) : List (VerificationType String ν) :=
  (if context.isStatic then [] else [context.receiver]) ++
    context.type.parameters.map VerificationType.ofFieldType

def displayName (context : Context) : String :=
  context.owner ++ "." ++ context.name ++ context.type.descriptor

end Context
end ClassTree
