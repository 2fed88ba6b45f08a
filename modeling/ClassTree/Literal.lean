import ClassTree.Decimal.Binary

namespace ClassTree

inductive HandleKind where
  | getField | getStatic | putField | putStatic
  | invokeVirtual | invokeStatic | invokeSpecial | newInvokeSpecial | invokeInterface
deriving DecidableEq, Hashable

namespace HandleKind

def code : HandleKind → UInt8
  | getField => 1
  | getStatic => 2
  | putField => 3
  | putStatic => 4
  | invokeVirtual => 5
  | invokeStatic => 6
  | invokeSpecial => 7
  | newInvokeSpecial => 8
  | invokeInterface => 9

def ofCode? : UInt8 → Option HandleKind
  | 1 => some getField
  | 2 => some getStatic
  | 3 => some putField
  | 4 => some putStatic
  | 5 => some invokeVirtual
  | 6 => some invokeStatic
  | 7 => some invokeSpecial
  | 8 => some newInvokeSpecial
  | 9 => some invokeInterface
  | _ => none

def isField : HandleKind → Bool
  | getField | getStatic | putField | putStatic => true
  | _ => false

def label : HandleKind → String
  | getField => "GetField"
  | getStatic => "GetStatic"
  | putField => "PutField"
  | putStatic => "PutStatic"
  | invokeVirtual => "InvokeVirtual"
  | invokeStatic => "InvokeStatic"
  | invokeSpecial => "InvokeSpecial"
  | newInvokeSpecial => "NewInvokeSpecial"
  | invokeInterface => "InvokeInterface"

end HandleKind

structure Member where
  owner : String
  name : String
  descriptor : String
deriving DecidableEq

structure Handle where
  kind : HandleKind
  member : Member
  /-- Whether the owner is an interface. -/
  onInterface : Bool
deriving DecidableEq

inductive Literal where
  | int (value : Int32)
  | float (bits : UInt32)
  | long (value : Int64)
  | double (bits : UInt64)
  | string (value : String)
  /-- Name of a class, or descriptor of an array type. -/
  | classRef (name : String)
  | methodType (descriptor : String)
  | handle (value : Handle)
deriving DecidableEq

namespace Literal

def isWide : Literal → Bool
  | long _ | double _ => true
  | _ => false

/-- Equality of values: floating-point numbers are compared as numbers. -/
def sameValue : Literal → Literal → Bool
  | float bits₁, float bits₂ => Decimal.BinaryFormat.single.sameNumber bits₁.toNat bits₂.toNat
  | double bits₁, double bits₂ => Decimal.BinaryFormat.double.sameNumber bits₁.toNat bits₂.toNat
  | other₁, other₂ => other₁ == other₂

end Literal
end ClassTree
