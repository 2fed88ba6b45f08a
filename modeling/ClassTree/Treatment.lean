import ClassTree.Subroutine.Inlining
import ClassTree.Writing

namespace ClassTree

structure Treatment where
  inlineSubroutines : Bool
  stripLines : Bool
deriving DecidableEq

def Treatment.apply (treatment : Treatment) (method : Method) : Except Inconsistency Method := do
  let method ← if treatment.inlineSubroutines then method.inlineSubroutines else pure method
  return if treatment.stripLines then method.withoutLines else method

namespace Class

def ofBytes (bytes : Bytes) : Except Error Class :=
  read ⟨false, true⟩ bytes

def toBytesWith (hierarchy : Hierarchy) (tree : Class) : Except Error Bytes :=
  tree.write ⟨true, true⟩ hierarchy

def toBytes (tree : Class) : Except Error Bytes :=
  tree.toBytesWith .library

def treat (treatment : Treatment) (tree : Class) : Except Inconsistency Class := do
  return { tree with methods := ← tree.methods.mapM treatment.apply }

end Class

def Treatment.applyToBytes (treatment : Treatment) (hierarchy : Hierarchy) (bytes : Bytes) :
    Except Error Bytes := do
  let tree ← Class.ofBytes bytes
  let treated ← (tree.treat treatment).mapError .inconsistent
  treated.toBytesWith hierarchy

end ClassTree
