import ClassTree.Descriptor.Basic
import ClassTree.Text.Quoted

namespace ClassTree

inductive VerificationType (κ ν : Type) where
  /-- Nothing usable: an unset local, or the second half of a wide value. -/
  | top
  | integer
  | float
  | double
  | long
  | null
  /-- The receiver of a constructor that has not yet called another constructor. -/
  | uninitializedThis
  | object (type : κ)
  /-- An object whose constructor has not run, by where it was created. -/
  | uninitialized (creation : ν)
deriving DecidableEq

namespace VerificationType

def width : VerificationType κ ν → Nat
  | double | long => 2
  | _ => 1

def isReference : VerificationType κ ν → Bool
  | top | integer | float | double | long => false
  | null | uninitializedThis | object _ | uninitialized _ => true

def mapCreation (f : ν → ν') : VerificationType κ ν → VerificationType κ ν'
  | top => top
  | integer => integer
  | float => float
  | double => double
  | long => long
  | null => null
  | uninitializedThis => uninitializedThis
  | object type => object type
  | uninitialized creation => uninitialized (f creation)

def traverse [Monad m] (f : κ → m κ') (g : ν → ν') :
    VerificationType κ ν → m (VerificationType κ' ν')
  | top => pure top
  | integer => pure integer
  | float => pure float
  | double => pure double
  | long => pure long
  | null => pure null
  | uninitializedThis => pure uninitializedThis
  | object type => return object (← f type)
  | uninitialized creation => pure (uninitialized (g creation))

def creation? : VerificationType κ ν → Option ν
  | uninitialized creation => some creation
  | _ => none

/-- Type of the values of a field type. Small integers are not told apart. -/
def ofFieldType : FieldType → VerificationType String ν
  | .base .float => float
  | .base .long => long
  | .base .double => double
  | .base _ => integer
  | .ref type => object type.classReference

def kindName : VerificationType κ ν → String
  | top => "Top"
  | integer => "Integer"
  | float => "Float"
  | double => "Double"
  | long => "Long"
  | null => "Null"
  | uninitializedThis => "UninitializedThis"
  | object _ => "Object"
  | uninitialized _ => "Uninitialized"

def render (type : VerificationType String Nat) : String :=
  match type with
  | object name => s!"Object({Text.quoted name})"
  | uninitialized index => s!"Uninitialized({index})"
  | other => other.kindName

end VerificationType
end ClassTree
