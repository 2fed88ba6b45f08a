import Std.Data.HashMap
import ClassTree.Pool.Table

namespace ClassTree.Pool

structure Builder where
  constants : Constants
  bootstrap : Array BootstrapMethod
  /-- First index of each constant. -/
  indices : Std.HashMap Constant Index
  /-- First index of each entry of the bootstrap table. -/
  bootstrapIndices : Std.HashMap BootstrapMethod UInt16

abbrev Build := ExceptT Error (StateM Builder)

namespace Builder

def empty : Builder :=
  ⟨.empty, #[], ∅, ∅⟩

def ofTable (table : Table) : Builder :=
  { constants := table.constants
    bootstrap := table.bootstrap
    indices := table.constants.placed.foldl
      (fun indices (place, constant) => indices.insertIfNew constant (UInt16.ofNat place)) ∅
    bootstrapIndices := table.bootstrap.toList.zipIdx.foldl
      (fun indices (entry, index) => indices.insertIfNew entry (UInt16.ofNat index)) ∅ }

def hasRoom (builder : Builder) (constant : Constant) : Bool :=
  builder.constants.next + constant.width ≤ 0xFFFF

def add (builder : Builder) (constant : Constant) : Index × Builder :=
  let index := UInt16.ofNat builder.constants.next
  (index,
    { builder with
      constants := builder.constants.add constant
      indices := builder.indices.insert constant index })

def addBootstrap (builder : Builder) (entry : BootstrapMethod) : UInt16 × Builder :=
  let index := UInt16.ofNat builder.bootstrap.size
  (index,
    { builder with
      bootstrap := builder.bootstrap.push entry
      bootstrapIndices := builder.bootstrapIndices.insert entry index })

end Builder

namespace Build

/-- Index of a constant, which is added unless it is already there. -/
def constant (constant : Constant) : Build Index := fun builder =>
  match builder.indices[constant]? with
  | some index => (.ok index, builder)
  | none =>
    if builder.hasRoom constant then
      let (index, builder) := builder.add constant
      (.ok index, builder)
    else (.error (.inconsistent .constantPoolOverflow), builder)

def text (text : String) : Build Index :=
  constant (.utf8 text)

/-- Constant for a class, or for an array type given by its descriptor. -/
def classRef (name : String) : Build Index := do
  constant (.classRef (← text name))

def classRef? : Option String → Build Index
  | some name => classRef name
  | none => pure 0

def text? : Option String → Build Index
  | some value => text value
  | none => pure 0

def nameAndType (name descriptor : String) : Build Index := do
  let name ← text name
  let descriptor ← text descriptor
  constant (.nameAndType name descriptor)

def field (member : Member) : Build Index := do
  let owner ← classRef member.owner
  let nameAndType ← nameAndType member.name member.descriptor
  constant (.fieldRef owner nameAndType)

def method (member : Member) (onInterface : Bool) : Build Index := do
  let owner ← classRef member.owner
  let nameAndType ← nameAndType member.name member.descriptor
  constant (.methodRef owner nameAndType onInterface)

def handle (handle : Handle) : Build Index := do
  let member ← if handle.kind.isField then field handle.member
    else method handle.member handle.onInterface
  constant (.methodHandle handle.kind member)

def methodType (descriptor : String) : Build Index := do
  constant (.methodType (← text descriptor))

def string (value : String) : Build Index := do
  constant (.string (← text value))

def literal : Literal → Build Index
  | .int value => constant (.integer value)
  | .float bits => constant (.float bits)
  | .long value => constant (.long value)
  | .double bits => constant (.double bits)
  | .string value => string value
  | .classRef name => classRef name
  | .methodType descriptor => methodType descriptor
  | .handle value => handle value

/-- Index of an entry of the bootstrap table, which is added unless it is already there. -/
def bootstrapMethod (method : Handle) (arguments : List Literal) : Build UInt16 := do
  let entry : BootstrapMethod := ⟨← handle method, ← arguments.mapM literal⟩
  fun builder =>
    match builder.bootstrapIndices[entry]? with
    | some index => (.ok index, builder)
    | none =>
      let (index, builder) := builder.addBootstrap entry
      (.ok index, builder)

def invokeDynamic (name descriptor : String) (method : Handle) (arguments : List Literal) :
    Build Index := do
  let bootstrap ← bootstrapMethod method arguments
  let nameAndType ← nameAndType name descriptor
  constant (.invokeDynamic bootstrap nameAndType)

def attributeBytes (name : String) (info : Bytes) : Build Bytes := do
  let name ← text name
  return BigEndian.u16 name ++ BigEndian.u32 (UInt32.ofNat info.length) ++ info

end Build
end ClassTree.Pool
