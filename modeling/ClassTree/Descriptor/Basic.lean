import ClassTree.Name

namespace ClassTree

inductive BaseType where
  | byte | char | double | float | int | long | short | boolean
deriving DecidableEq, Repr

namespace BaseType

def width : BaseType → Nat
  | double | long => 2
  | _ => 1

def keyword : BaseType → String
  | byte => "byte"
  | char => "char"
  | double => "double"
  | float => "float"
  | int => "int"
  | long => "long"
  | short => "short"
  | boolean => "boolean"

def letter : BaseType → Char
  | byte => 'B'
  | char => 'C'
  | double => 'D'
  | float => 'F'
  | int => 'I'
  | long => 'J'
  | short => 'S'
  | boolean => 'Z'

def ofLetter? : Char → Option BaseType
  | 'B' => some byte
  | 'C' => some char
  | 'D' => some double
  | 'F' => some float
  | 'I' => some int
  | 'J' => some long
  | 'S' => some short
  | 'Z' => some boolean
  | _ => none

/-- Operand of the instruction that creates an array with elements of this type. -/
def arrayCode : BaseType → UInt8
  | boolean => 4
  | char => 5
  | float => 6
  | double => 7
  | byte => 8
  | short => 9
  | int => 10
  | long => 11

def ofArrayCode? : UInt8 → Option BaseType
  | 4 => some boolean
  | 5 => some char
  | 6 => some float
  | 7 => some double
  | 8 => some byte
  | 9 => some short
  | 10 => some int
  | 11 => some long
  | _ => none

end BaseType

inductive ElementType where
  | base (type : BaseType)
  | object (name : BinaryName)
deriving DecidableEq

namespace ElementType

def render : ElementType → List Char
  | base type => [type.letter]
  | object name => 'L' :: name.text.toList ++ [';']

def className : ElementType → String
  | base type => type.keyword
  | object name => name.className

end ElementType

/-- Class, interface or array type. An array has one dimension and `extra` additional ones. -/
inductive RefType where
  | object (name : BinaryName)
  | array (extra : Nat) (element : ElementType)
deriving DecidableEq

inductive FieldType where
  | base (type : BaseType)
  | ref (type : RefType)
deriving DecidableEq

namespace RefType

def render : RefType → List Char
  | object name => (ElementType.object name).render
  | array extra element => List.replicate (extra + 1) '[' ++ element.render

def descriptor (type : RefType) : String :=
  String.ofList type.render

def className : RefType → String
  | object name => name.className
  | array extra element =>
    element.className ++ String.join (List.replicate (extra + 1) "[]")

/-- How constants refer to the type: a class by its name, an array by its descriptor. -/
def classReference : RefType → String
  | object name => name.text
  | array extra element => (array extra element).descriptor

def arrayOf : FieldType → RefType
  | .base type => array 0 (.base type)
  | .ref (object name) => array 0 (.object name)
  | .ref (array extra element) => array (extra + 1) element

def elementType? : RefType → Option FieldType
  | object _ => none
  | array 0 (.base type) => some (.base type)
  | array 0 (.object name) => some (.ref (object name))
  | array (extra + 1) element => some (.ref (array extra element))

end RefType

namespace FieldType

def width : FieldType → Nat
  | base type => type.width
  | ref _ => 1

def render : FieldType → List Char
  | base type => [type.letter]
  | ref type => type.render

def descriptor (type : FieldType) : String :=
  String.ofList type.render

def className : FieldType → String
  | base type => type.keyword
  | ref type => type.className

end FieldType

/-- Parameters and result of a method; `none` stands for `void`. -/
structure MethodType where
  parameters : List FieldType
  result : Option FieldType
deriving DecidableEq

namespace MethodType

def render (type : MethodType) : List Char :=
  '(' :: type.parameters.flatMap FieldType.render ++
    ')' :: (type.result.map FieldType.render).getD ['V']

def descriptor (type : MethodType) : String :=
  String.ofList type.render

def parameterSlots (type : MethodType) (receiver : Bool) : Nat :=
  (if receiver then 1 else 0) + type.parameters.foldr (·.width + ·) 0

def resultWidth (type : MethodType) : Nat :=
  (type.result.map FieldType.width).getD 0

def resultClassName (type : MethodType) : String :=
  (type.result.map FieldType.className).getD "void"

end MethodType
end ClassTree
