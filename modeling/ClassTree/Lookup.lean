import ClassTree.Class

namespace ClassTree

namespace Class

def methodNamed? (tree : Class) (name : String) : Option Method :=
  tree.methods.find? fun method => method.name == name

def methodsNamed (tree : Class) (name : String) : List Method :=
  tree.methods.filter fun method => method.name == name

def method? (tree : Class) (name descriptor : String) : Option Method :=
  tree.methods.find? fun method => method.isNamed name descriptor

def fieldNamed? (tree : Class) (name : String) : Option Field :=
  tree.fields.find? fun field => field.name == name

/-- Puts a method in place of every one with its name and descriptor. -/
def replaceMethod (tree : Class) (method : Method) : Class :=
  { tree with methods := tree.methods.map fun existing =>
      if existing.isNamed method.name method.descriptor then method else existing }

end Class

namespace Method

def isCreation : Instruction Label → Bool
  | .type .new _ => true
  | _ => false

def isConstruction : Instruction Label → Bool
  | .invoke .invokespecial member _ => member.name == Name.initializer
  | _ => false

/-- Index of the first construction that none of the creations before it is left over for, of
which there are `pending` at the start. -/
def chainedCallFrom (index pending : Nat) : List (Instruction Label) → Option Nat
  | [] => none
  | insn :: rest =>
    if isCreation insn then chainedCallFrom (index + 1) (pending + 1) rest
    else if isConstruction insn then
      match pending with
      | 0 => some index
      | pending + 1 => chainedCallFrom (index + 1) pending rest
    else chainedCallFrom (index + 1) pending rest

/-- Where the own body of a constructor starts: after the call of another constructor on the same
object. Creations and constructions are matched by counting only. -/
def ownBody? (method : Method) : Option Nat :=
  (chainedCallFrom 0 0 method.body.code).bind method.body.next?

end Method
end ClassTree
