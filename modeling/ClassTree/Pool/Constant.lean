import ClassTree.Bytes.Cursor
import ClassTree.Literal
import ClassTree.Pool.Slots
import ClassTree.Text.ModifiedUtf8

namespace ClassTree.Pool

abbrev Index := UInt16

inductive Constant where
  | utf8 (text : String)
  | integer (value : Int32)
  | float (bits : UInt32)
  | long (value : Int64)
  | double (bits : UInt64)
  | classRef (name : Index)
  | string (text : Index)
  | fieldRef (owner nameAndType : Index)
  | methodRef (owner nameAndType : Index) (onInterface : Bool)
  | nameAndType (name descriptor : Index)
  | methodHandle (kind : HandleKind) (member : Index)
  | methodType (descriptor : Index)
  | dynamic (bootstrap : UInt16) (nameAndType : Index)
  | invokeDynamic (bootstrap : UInt16) (nameAndType : Index)
  | module (name : Index)
  | package (name : Index)
deriving DecidableEq, Hashable

namespace Constant

/-- Numbers of 64 bits take two places in the pool. -/
def isWide : Constant → Bool
  | long _ | double _ => true
  | _ => false

def width (constant : Constant) : Nat :=
  if constant.isWide then 2 else 1

def kindName : Constant → String
  | utf8 _ => "Utf8"
  | integer _ => "Integer"
  | float _ => "Float"
  | long _ => "Long"
  | double _ => "Double"
  | classRef _ => "Class"
  | string _ => "String"
  | fieldRef .. => "Fieldref"
  | methodRef _ _ false => "Methodref"
  | methodRef _ _ true => "InterfaceMethodref"
  | nameAndType .. => "NameAndType"
  | methodHandle .. => "MethodHandle"
  | methodType _ => "MethodType"
  | dynamic .. => "Dynamic"
  | invokeDynamic .. => "InvokeDynamic"
  | module _ => "Module"
  | package _ => "Package"

open BigEndian in
def encode : Constant → Bytes
  | utf8 text =>
    let encoded := Text.ModifiedUtf8.encode text
    u8 1 ++ u16 (UInt16.ofNat encoded.length) ++ encoded
  | integer value => u8 3 ++ i32 value
  | float bits => u8 4 ++ u32 bits
  | long value => u8 5 ++ i64 value
  | double bits => u8 6 ++ u64 bits
  | classRef name => u8 7 ++ u16 name
  | string text => u8 8 ++ u16 text
  | fieldRef owner pair => u8 9 ++ u16 owner ++ u16 pair
  | methodRef owner pair false => u8 10 ++ u16 owner ++ u16 pair
  | methodRef owner pair true => u8 11 ++ u16 owner ++ u16 pair
  | nameAndType name descriptor => u8 12 ++ u16 name ++ u16 descriptor
  | methodHandle kind member => u8 15 ++ u8 kind.code ++ u16 member
  | methodType descriptor => u8 16 ++ u16 descriptor
  | dynamic bootstrap pair => u8 17 ++ u16 bootstrap ++ u16 pair
  | invokeDynamic bootstrap pair => u8 18 ++ u16 bootstrap ++ u16 pair
  | module name => u8 19 ++ u16 name
  | package name => u8 20 ++ u16 name

open Reader in
/-- Reads the constant that will get the given index. -/
def read (index : Index) : Reader Constant := do
  match ← u8 with
  | 1 =>
    let encoded ← bytes (← u16).toNat
    match Text.ModifiedUtf8.decode encoded with
    | some text => return utf8 text
    | none => fail (.badModifiedUtf8 index)
  | 3 => return integer (← i32)
  | 4 => return float (← u32)
  | 5 => return long (← i64)
  | 6 => return double (← u64)
  | 7 => return classRef (← u16)
  | 8 => return string (← u16)
  | 9 => return fieldRef (← u16) (← u16)
  | 10 => return methodRef (← u16) (← u16) false
  | 11 => return methodRef (← u16) (← u16) true
  | 12 => return nameAndType (← u16) (← u16)
  | 15 =>
    match HandleKind.ofCode? (← u8) with
    | some kind => return methodHandle kind (← u16)
    | none => fail (.badConstantIndex index "method handle kind")
  | 16 => return methodType (← u16)
  | 17 => return dynamic (← u16) (← u16)
  | 18 => return invokeDynamic (← u16) (← u16)
  | 19 => return module (← u16)
  | 20 => return package (← u16)
  | tag => fail (.badConstantTag index tag)

end Constant

/-- Constants of a class, numbered from one. -/
abbrev Constants := Slots Constant

namespace Constants

def empty : Constants :=
  Slots.empty 1

def add (constants : Constants) (constant : Constant) : Constants :=
  constants.push constant.isWide constant

/-- The number of the first free place, and the entries. -/
def encode (constants : Constants) : Bytes :=
  BigEndian.u16 (UInt16.ofNat constants.next) ++ constants.toList.flatMap Constant.encode

/-- Reads constants until all places below `count` are taken. -/
def readFrom (count : Nat) (constants : Constants) : Reader Constants := do
  if _ : constants.next < count then
    let constant ← Constant.read (UInt16.ofNat constants.next)
    readFrom count (constants.add constant)
  else return constants
termination_by count - constants.next
decreasing_by
  rw [add, Slots.next_push]
  split <;> omega

def read : Reader Constants := do
  readFrom (← Reader.u16).toNat empty

end Constants

structure BootstrapMethod where
  handle : Index
  arguments : List Index
deriving DecidableEq, Hashable

namespace BootstrapMethod

def encode (entry : BootstrapMethod) : Bytes :=
  BigEndian.u16 entry.handle ++ BigEndian.counted BigEndian.u16 entry.arguments

def read : Reader BootstrapMethod :=
  return ⟨← Reader.u16, ← Reader.counted Reader.u16⟩

end BootstrapMethod
end ClassTree.Pool
