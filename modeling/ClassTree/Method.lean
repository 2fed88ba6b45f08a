import ClassTree.AccessFlags
import ClassTree.Bytes.BigEndian
import ClassTree.Descriptor.Parser
import ClassTree.Instruction

namespace ClassTree

/-- Attribute that is carried along without being interpreted. Constants in it are those of the
class file that it was read from. -/
structure RawAttribute where
  name : String
  info : Bytes
deriving DecidableEq

/-- Code of a method, and how many labels have been handed out for it. -/
structure Body where
  code : List (Instruction Label)
  labels : Nat
deriving DecidableEq

namespace Body

def empty : Body := ⟨[], 0⟩

def freshLabel (body : Body) : Label × Body :=
  (⟨body.labels⟩, { body with labels := body.labels + 1 })

def realLength (body : Body) : Nat :=
  body.code.countP fun insn => !insn.isMarker

def insert? (body : Body) (index : Nat) (insn : Instruction Label) : Option Body :=
  if index ≤ body.code.length then some { body with code := body.code.insertIdx index insn }
  else none

def remove? (body : Body) (index : Nat) : Option (Instruction Label × Body) :=
  body.code[index]?.map fun insn => (insn, { body with code := body.code.eraseIdx index })

def next? (body : Body) (index : Nat) : Option Nat :=
  if index + 1 < body.code.length then some (index + 1) else none

def previous? (body : Body) (index : Nat) : Option Nat :=
  if 0 < index ∧ index ≤ body.code.length then some (index - 1) else none

def position? (body : Body) (label : Label) : Option Nat :=
  body.code.findIdx? fun insn => insn.placed? == some label

end Body

/-- Exception handler of a stretch of code, the end of which is not included. -/
structure TryCatch where
  start : Label
  stop : Label
  handler : Label
  /-- Class of the exceptions caught; everything if there is none. -/
  catchType : Option String
deriving DecidableEq

structure LocalVariable where
  name : String
  descriptor : String
  signature : Option String
  start : Label
  stop : Label
  slot : UInt16
deriving DecidableEq

structure Method where
  access : AccessFlags .ofMethod
  name : String
  descriptor : String
  signature : Option String
  exceptions : List String
  body : Body
  handlers : List TryCatch
  /-- Variable table; not having one differs from having an empty one. -/
  localVariables : Option (List LocalVariable)
  maxStack : UInt16
  maxLocals : UInt16
  attributes : List RawAttribute
deriving DecidableEq

namespace TryCatch

def mentions (handler : TryCatch) : List Label :=
  [handler.start, handler.stop, handler.handler]

def mapLabels (f : Label → Label) (handler : TryCatch) : TryCatch :=
  { start := f handler.start, stop := f handler.stop, handler := f handler.handler,
    catchType := handler.catchType }

end TryCatch

namespace LocalVariable

def mentions (entry : LocalVariable) : List Label :=
  [entry.start, entry.stop]

def mapLabels (f : Label → Label) (entry : LocalVariable) : LocalVariable :=
  { entry with start := f entry.start, stop := f entry.stop }

end LocalVariable

namespace Method

def declared (access : AccessFlags .ofMethod) (name descriptor : String) : Method :=
  { access, name, descriptor, signature := none, exceptions := [], body := .empty, handlers := [],
    localVariables := none, maxStack := 0, maxLocals := 0, attributes := [] }

def header (method : Method) : Method :=
  { declared method.access method.name method.descriptor with
    signature := method.signature, exceptions := method.exceptions }

def isStatic (method : Method) : Bool := method.access.isStatic

def isConstructor (method : Method) : Bool := method.name == Name.initializer

def isClassInitializer (method : Method) : Bool := method.name == Name.classInitializer

def hasCode (method : Method) : Bool :=
  !(method.access.isAbstract || method.access.isNative)

def type? (method : Method) : Except DescriptorFault MethodType :=
  MethodType.parse method.descriptor

def isNamed (method : Method) (name descriptor : String) : Bool :=
  method.name == name && method.descriptor == descriptor

def displayName (method : Method) : String :=
  method.name ++ method.descriptor

def variableList (method : Method) : List LocalVariable :=
  method.localVariables.getD []

/-- All labels of the method, in the order in which they appear. -/
def mentions (method : Method) : List Label :=
  method.body.code.flatMap Instruction.mentions ++ method.handlers.flatMap TryCatch.mentions ++
    method.variableList.flatMap LocalVariable.mentions

def sameValue (method₁ method₂ : Method) : Bool :=
  let blank (method : Method) := { method with body := .empty }
  blank method₁ == blank method₂ && method₁.body.code.length == method₂.body.code.length &&
    (method₁.body.code.zip method₂.body.code).all fun pair => pair.1.sameValue pair.2

end Method
end ClassTree
