namespace ClassTree

inductive NameFault where
  | illegalCharacter (name : String)
  | emptySegment (name : String)
  | emptyName (name : String)
  | angleBracket (name : String)
deriving DecidableEq

namespace NameFault

def message : NameFault → String
  | illegalCharacter name => s!"Unqualified name '{name}' contains an illegal character"
  | emptySegment name => s!"Unqualified name '{name}' is empty"
  | emptyName name => s!"Binary name '{name}' is empty"
  | angleBracket name => s!"Method name '{name}' contains an angle bracket"

end NameFault

namespace Name

def initializer : String := "<init>"

def classInitializer : String := "<clinit>"

def object : String := "java/lang/Object"

def string : String := "java/lang/String"

def classObject : String := "java/lang/Class"

def methodType : String := "java/lang/invoke/MethodType"

def methodHandle : String := "java/lang/invoke/MethodHandle"

def throwable : String := "java/lang/Throwable"

def isDelimiter (c : Char) : Bool :=
  c == '.' || c == ';' || c == '[' || c == '/'

/-- Name of a field, a method, or one segment of the name of a class. -/
def checkUnqualified (name : String) : Except NameFault Unit :=
  if name.toList.any isDelimiter then .error (.illegalCharacter name)
  else if name.isEmpty then .error (.emptySegment name)
  else .ok ()

/-- Angle brackets only occur in the names of the two kinds of initializers. -/
def checkMethod (name : String) : Except NameFault Unit :=
  if name = initializer ∨ name = classInitializer then .ok ()
  else if name.toList.any fun c => c == '<' || c == '>' then .error (.angleBracket name)
  else checkUnqualified name

def segments (chars : List Char) : List (List Char) :=
  chars.foldr
    (fun c found =>
      if c = '/' then [] :: found
      else match found with
        | [] => [[c]]
        | segment :: rest => (c :: segment) :: rest)
    [[]]

/-- Name of a class or interface: nonempty segments between slashes. The first bad segment is
the one reported. -/
def checkBinary (name : String) : Except NameFault Unit :=
  if name.isEmpty then .error (.emptyName name)
  else (segments name.toList).forM fun segment => checkUnqualified (String.ofList segment)

def replaceChar (old new : Char) (text : String) : String :=
  text.map fun c => if c = old then new else c

def dotted (name : String) : String :=
  replaceChar '/' '.' name

def slashed (name : String) : String :=
  replaceChar '.' '/' name

def resourcePath (name : String) : String :=
  slashed name ++ ".class"

/-- What follows the last occurrence of `separator`, or everything if there is none. -/
def afterLast (separator : Char) (name : String) : String :=
  String.ofList (name.toList.reverse.takeWhile (· ≠ separator)).reverse

end Name

/-- Valid name of a class or interface, with slashes. -/
structure BinaryName where
  text : String
  valid : Name.checkBinary text = .ok ()
deriving DecidableEq

namespace BinaryName

def ofString (text : String) : Except NameFault BinaryName :=
  match h : Name.checkBinary text with
  | .ok () => .ok ⟨text, h⟩
  | .error fault => .error fault

def ofClassName (name : String) : Except NameFault BinaryName :=
  ofString (Name.slashed name)

def className (name : BinaryName) : String :=
  Name.dotted name.text

def resourcePath (name : BinaryName) : String :=
  name.text ++ ".class"

def simpleName (name : BinaryName) : String :=
  Name.afterLast '/' name.text

end BinaryName
end ClassTree
