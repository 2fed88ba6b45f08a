import ClassTree.Class
import ClassTree.Code.Listing

namespace ClassTree

structure Header where
  version : Version
  access : AccessFlags .ofClass
  name : String
  superName : Option String
  interfaces : List String

structure RawMember where
  access : UInt16
  name : String
  descriptor : String
  attributes : List (String × Cursor)

open Reader

def magic : UInt32 := 0xCAFEBABE

def readPrelude : Reader (Version × Pool.Table) := do
  let found ← u32
  if found ≠ magic then fail (.badMagic found)
  let minor ← u16
  let major ← u16
  let version : Version := ⟨major, minor⟩
  if !version.isSupported then throw (.unsupported s!"class file version {major}.{minor}")
  let constants ← Pool.Constants.read
  return (version, ⟨constants, #[]⟩)

def readHeader (version : Version) (table : Pool.Table) : Reader Header := do
  let access := AccessFlags.ofBits .ofClass (← u16)
  let name ← table.className (← u16)
  let superName ← table.className? (← u16)
  let interfaces ← counted do table.className (← u16)
  return ⟨version, access, name, superName, interfaces⟩

def readMembers (table : Pool.Table) : Reader (List RawMember) :=
  counted do
    let access ← u16
    let name ← table.text (← u16)
    let descriptor ← table.text (← u16)
    let attributes ← readAttributes table
    return ⟨access, name, descriptor, attributes⟩

def readText (table : Pool.Table) : Reader String := do
  table.text (← u16)

def readInnerClass (table : Pool.Table) : Reader InnerClass := do
  let inner ← u16
  let outer ← u16
  let simple ← u16
  let access := AccessFlags.ofBits .ofInnerClass (← u16)
  let name ← table.className inner
  let outerName ← table.className? outer
  let innerName ← table.text? simple
  return ⟨name, outerName, innerName, access⟩

namespace Class

def ofHeader (header : Header) (table : Pool.Table) : Class :=
  { version := header.version, access := header.access, name := header.name,
    superName := header.superName, interfaces := header.interfaces, signature := none,
    sourceFile := none, innerClasses := [], fields := [], methods := [], attributes := [],
    pool := some table }

/-- Interprets a class attribute. The bootstrap table, which may come in several parts, goes with
the constants. -/
def addAttribute (skip : Skip) (state : Class × Pool.Table) (name : String) (info : Cursor) :
    Except Error (Class × Pool.Table) := do
  let (tree, table) := state
  match name with
  | "SourceFile" =>
    if skip.debug then return state
    return ({ tree with sourceFile := some (← info.parse (readText table)) }, table)
  | "SourceDebugExtension" =>
    if skip.debug then return state
    return ({ tree with attributes := tree.attributes ++ [⟨name, info.rest⟩] }, table)
  | "Signature" =>
    return ({ tree with signature := some (← info.parse (readText table)) }, table)
  | "InnerClasses" =>
    let entries ← info.parse (counted (readInnerClass table))
    return ({ tree with innerClasses := tree.innerClasses ++ entries }, table)
  | "BootstrapMethods" =>
    let entries ← info.parse (counted Pool.BootstrapMethod.read)
    return (tree, { table with bootstrap := table.bootstrap ++ entries })
  | _ => return ({ tree with attributes := tree.attributes ++ [⟨name, info.rest⟩] }, table)

end Class

namespace Field

def addAttribute (table : Pool.Table) (field : Field) (name : String) (info : Cursor) :
    Except Error Field := do
  match name with
  | "ConstantValue" =>
    return { field with value := some (← info.parse do table.literal (← u16)) }
  | "Signature" => return { field with signature := some (← info.parse (readText table)) }
  | _ => return { field with attributes := field.attributes ++ [⟨name, info.rest⟩] }

def ofRaw (table : Pool.Table) (member : RawMember) : Except Error Field :=
  member.attributes.foldlM (fun field (name, info) => field.addAttribute table name info)
    { access := .ofBits .ofField member.access, name := member.name,
      descriptor := member.descriptor, signature := none, value := none, attributes := [] }

end Field

namespace Method

def addAttribute (owner : String) (table : Pool.Table) (skip : Skip) (method : Method)
    (name : String) (info : Cursor) : Except Error Method := do
  match name with
  | "Code" =>
    let listing ← info.parse (Code.readListing owner method table skip)
    listing.addTo method
  | "Exceptions" =>
    let exceptions ← info.parse (counted do table.className (← u16))
    return { method with exceptions := method.exceptions ++ exceptions }
  | "Signature" => return { method with signature := some (← info.parse (readText table)) }
  | "MethodParameters" =>
    if skip.debug then return method
    return { method with attributes := method.attributes ++ [⟨name, info.rest⟩] }
  | _ => return { method with attributes := method.attributes ++ [⟨name, info.rest⟩] }

def ofRaw (owner : String) (table : Pool.Table) (skip : Skip) (member : RawMember) :
    Except Error Method :=
  member.attributes.foldlM
    (fun method (name, info) => method.addAttribute owner table skip name info)
    (declared (.ofBits .ofMethod member.access) member.name member.descriptor)

end Method

/-- The parts of a class file, of which nothing may be left over. -/
def readParts : Reader (Header × Pool.Table × List RawMember × List RawMember ×
    List (String × Cursor)) := do
  let (version, table) ← readPrelude
  let header ← readHeader version table
  let fields ← readMembers table
  let methods ← readMembers table
  let attributes ← readAttributes table
  let cursor ← get
  if !cursor.rest.isEmpty then fail (.trailingBytes cursor.offset)
  return (header, table, fields, methods, attributes)

/-- Reads the start of a class file, whatever comes after it. -/
def Header.read (bytes : Bytes) : Except Error Header :=
  (Cursor.ofBytes bytes).parse do
    let (version, table) ← readPrelude
    readHeader version table

def Class.read (skip : Skip) (bytes : Bytes) : Except Error Class := do
  let (header, table, fields, methods, attributes) ← (Cursor.ofBytes bytes).parse readParts
  let (tree, table) ← attributes.foldlM
    (fun state (name, info) => Class.addAttribute skip state name info)
    (Class.ofHeader header table, table)
  let fields ← fields.mapM (Field.ofRaw table)
  let methods ← methods.mapM (Method.ofRaw header.name table skip)
  return { tree with fields, methods, pool := some table }

end ClassTree
