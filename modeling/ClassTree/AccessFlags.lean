import ClassTree.Bytes.BigEndian

namespace ClassTree

inductive Flagged where
  | ofClass | ofMethod | ofField | ofInnerClass
deriving DecidableEq

namespace Flagged

def flagNames : Flagged → List (UInt16 × String)
  | ofClass =>
    [(0x0001, "PUBLIC"), (0x0010, "FINAL"), (0x0020, "SUPER"), (0x0200, "INTERFACE"),
     (0x0400, "ABSTRACT"), (0x1000, "SYNTHETIC"), (0x2000, "ANNOTATION"), (0x4000, "ENUM"),
     (0x8000, "MODULE")]
  | ofMethod =>
    [(0x0001, "PUBLIC"), (0x0002, "PRIVATE"), (0x0004, "PROTECTED"), (0x0008, "STATIC"),
     (0x0010, "FINAL"), (0x0020, "SYNCHRONIZED"), (0x0040, "BRIDGE"), (0x0080, "VARARGS"),
     (0x0100, "NATIVE"), (0x0400, "ABSTRACT"), (0x0800, "STRICT"), (0x1000, "SYNTHETIC")]
  | ofField =>
    [(0x0001, "PUBLIC"), (0x0002, "PRIVATE"), (0x0004, "PROTECTED"), (0x0008, "STATIC"),
     (0x0010, "FINAL"), (0x0040, "VOLATILE"), (0x0080, "TRANSIENT"), (0x1000, "SYNTHETIC"),
     (0x4000, "ENUM")]
  | ofInnerClass =>
    [(0x0001, "PUBLIC"), (0x0002, "PRIVATE"), (0x0004, "PROTECTED"), (0x0008, "STATIC"),
     (0x0010, "FINAL"), (0x0200, "INTERFACE"), (0x0400, "ABSTRACT"), (0x1000, "SYNTHETIC"),
     (0x2000, "ANNOTATION"), (0x4000, "ENUM")]

def mask (target : Flagged) : UInt16 :=
  target.flagNames.foldl (fun bits flag => bits ||| flag.1) 0

end Flagged

structure AccessFlags (target : Flagged) where
  bits : UInt16
deriving DecidableEq

namespace AccessFlags

def ofBits (target : Flagged) (bits : UInt16) : AccessFlags target :=
  ⟨bits &&& target.mask⟩

def has (flags : AccessFlags target) (bit : UInt16) : Bool :=
  flags.bits &&& bit == bit

def names (flags : AccessFlags target) : List String :=
  (target.flagNames.filter fun flag => flags.has flag.1).map Prod.snd

def render (flags : AccessFlags target) : String :=
  if flags.bits = 0 then "(empty)" else " | ".intercalate flags.names

def isStatic (flags : AccessFlags .ofMethod) : Bool := flags.has 0x0008

def isNative (flags : AccessFlags .ofMethod) : Bool := flags.has 0x0100

def isAbstract (flags : AccessFlags .ofMethod) : Bool := flags.has 0x0400

def isInterface (flags : AccessFlags .ofClass) : Bool := flags.has 0x0200

/-- Keywords of a method declaration and the flags that they stand for. -/
def keywords : List (UInt16 × String) :=
  [(0x0001, "public"), (0x0002, "private"), (0x0004, "protected"), (0x0008, "static"),
   (0x0010, "final"), (0x0020, "synchronized"), (0x0100, "native"), (0x0400, "abstract")]

def modifiers (flags : AccessFlags .ofMethod) : List String :=
  (keywords.filter fun keyword => flags.has keyword.1).map Prod.snd

def encode (flags : AccessFlags target) : Bytes :=
  BigEndian.u16 flags.bits

end AccessFlags
end ClassTree
