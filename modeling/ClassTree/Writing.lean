import ClassTree.Class
import ClassTree.Code.Attribute
import ClassTree.Hierarchy.Library
import ClassTree.Reading

namespace ClassTree

open Pool BigEndian

structure EncodedMember where
  access : UInt16
  name : Index
  descriptor : Index
  attributes : List Bytes

def EncodedMember.encode (member : EncodedMember) : Bytes :=
  u16 member.access ++ u16 member.name ++ u16 member.descriptor ++ counted id member.attributes

def textAttribute (name : String) : Option String → Build (List Bytes)
  | none => pure []
  | some text => do
    let index ← Build.text text
    return [← Build.attributeBytes name (u16 index)]

def rawAttributes (attributes : List RawAttribute) : Build (List Bytes) :=
  attributes.mapM fun entry => Build.attributeBytes entry.name entry.info

def listAttribute (name : String) (item : α → Build Bytes) (items : List α) :
    Build (List Bytes) := do
  if items.isEmpty then return []
  let entries ← items.mapM item
  return [← Build.attributeBytes name (counted id entries)]

namespace Field

def valueAttribute : Option Literal → Build (List Bytes)
  | none => pure []
  | some value => do
    let index ← Build.literal value
    return [← Build.attributeBytes "ConstantValue" (u16 index)]

def encode (field : Field) : Build EncodedMember := do
  let name ← Build.text field.name
  let descriptor ← Build.text field.descriptor
  let value ← valueAttribute field.value
  let signature ← textAttribute "Signature" field.signature
  let raw ← rawAttributes field.attributes
  return ⟨field.access.bits, name, descriptor, value ++ signature ++ raw⟩

end Field

namespace Method

def codeAttribute (setting : Code.Setting) (method : Method) : Build (List Bytes) := do
  if method.hasCode && !method.body.code.isEmpty then
    let info ← Code.attributeInfo setting method
    return [← Build.attributeBytes "Code" info]
  else return []

def encode (setting : Code.Setting) (method : Method) : Build EncodedMember := do
  let name ← Build.text method.name
  let descriptor ← Build.text method.descriptor
  let code ← method.codeAttribute setting
  let exceptions ← listAttribute "Exceptions"
    (fun exception => return u16 (← Build.classRef exception)) method.exceptions
  let signature ← textAttribute "Signature" method.signature
  let raw ← rawAttributes method.attributes
  return ⟨method.access.bits, name, descriptor, code ++ exceptions ++ signature ++ raw⟩

end Method

namespace InnerClass

def encode (entry : InnerClass) : Build Bytes := do
  let inner ← Build.classRef entry.name
  let outer ← Build.classRef? entry.outerName
  let simple ← Build.text? entry.innerName
  return u16 inner ++ u16 outer ++ u16 simple ++ u16 entry.access.bits

end InnerClass

def Pool.Build.bootstrapTable : Build (List BootstrapMethod) :=
  return (← get).bootstrap.toList

namespace Class

def encodeAttributes (tree : Class) : Build (List Bytes) := do
  let sourceFile ← textAttribute "SourceFile" tree.sourceFile
  let signature ← textAttribute "Signature" tree.signature
  let innerClasses ← listAttribute "InnerClasses" InnerClass.encode tree.innerClasses
  let raw ← rawAttributes tree.attributes
  let bootstrap ← listAttribute "BootstrapMethods" (fun entry => pure entry.encode)
    (← Build.bootstrapTable)
  return sourceFile ++ signature ++ innerClasses ++ raw ++ bootstrap

def encodeBody (recompute : Code.Recompute) (hierarchy : Hierarchy) (tree : Class) :
    Build Bytes := do
  let name ← Build.classRef tree.name
  let superName ← Build.classRef? tree.superName
  let interfaces ← tree.interfaces.mapM Build.classRef
  let fields ← tree.fields.mapM Field.encode
  let setting : Code.Setting := ⟨tree.name, tree.version, recompute, hierarchy⟩
  let methods ← tree.methods.mapM (Method.encode setting)
  let attributes ← tree.encodeAttributes
  return u16 tree.access.bits ++ u16 name ++ u16 superName ++ counted u16 interfaces ++
    counted EncodedMember.encode fields ++ counted EncodedMember.encode methods ++
    counted id attributes

def startingPool (tree : Class) : Builder :=
  match tree.pool with
  | some table => .ofTable table
  | none => .empty

def write (recompute : Code.Recompute) (hierarchy : Hierarchy) (tree : Class) :
    Except Error Bytes :=
  match (tree.encodeBody recompute hierarchy).run tree.startingPool with
  | (.ok body, builder) =>
    .ok (u32 magic ++ tree.version.encode ++ builder.constants.encode ++ body)
  | (.error error, _) => .error error

end Class
end ClassTree
