import ClassTree.Code.Encoding
import ClassTree.Code.Prepared

namespace ClassTree.Code

open Pool BigEndian

def offset16 (offset : Nat) : Bytes :=
  u16 (UInt16.ofNat offset)

def encodeHandler (labels : LabelOffsets) (handler : TryCatch) : Build (List Bytes) := do
  let start := labels.at handler.start
  let stop := labels.at handler.stop
  if stop ≤ start then return []
  let catchType ← Build.classRef? handler.catchType
  return [offset16 start ++ offset16 stop ++ offset16 (labels.at handler.handler) ++ u16 catchType]

def encodeHandlers (labels : LabelOffsets) (handlers : List TryCatch) : Build (List Bytes) :=
  return (← handlers.mapM (encodeHandler labels)).flatten

def lineEntries (labels : LabelOffsets) (code : List (Instruction Label)) : List Bytes :=
  code.filterMap fun
    | .line number start => some (offset16 (labels.at start) ++ u16 number)
    | _ => none

def tableAttribute (name : String) (entries : List Bytes) : Build Bytes :=
  Build.attributeBytes name (counted id entries)

def tableAttribute? (name : String) (entries : List Bytes) : Build (List Bytes) := do
  if entries.isEmpty then return [] else return [← tableAttribute name entries]

/-- Entries of a variable in the table of variables and in that of their signatures. -/
def encodeVariable (labels : LabelOffsets) (entry : LocalVariable) :
    Build (List Bytes × List Bytes) := do
  let start := labels.at entry.start
  let stop := labels.at entry.stop
  if stop < start then return ([], [])
  let name ← Build.text entry.name
  let withType (type : Index) : Bytes :=
    offset16 start ++ offset16 (stop - start) ++ u16 name ++ u16 type ++ u16 entry.slot
  let plain := withType (← Build.text entry.descriptor)
  match entry.signature with
  | none => return ([plain], [])
  | some signature => return ([plain], [withType (← Build.text signature)])

def variableAttributes (labels : LabelOffsets) : Option (List LocalVariable) →
    Build (List Bytes)
  | none => pure []
  | some localVariables => do
    let entries ← localVariables.mapM (encodeVariable labels)
    let table ← tableAttribute "LocalVariableTable" (entries.flatMap Prod.fst)
    return table :: (← tableAttribute? "LocalVariableTypeTable" (entries.flatMap Prod.snd))

/-- Attribute for the frames, which are given relative to each other and to the frame on entry. -/
def frameAttribute (setting : Setting) (method : Method) (offsets : Offsets)
    (frames : FrameTable) : Build (List Bytes) := do
  if frames.isEmpty then return []
  let context ← contextOf setting method
  let initial ← encodeFrame offsets (.initial context)
  return [← tableAttribute "StackMapTable"
    ((StackMap.entries initial frames.toList).map StackMap.Entry.encode)]

def size16 (size : Nat) : Bytes :=
  u16 (UInt16.ofNat (min size 0xFFFF))

/-- Contents of the attribute for a method with code. -/
def attributeInfo (setting : Setting) (method : Method) : Build Bytes := do
  let prepared ← prepare setting method
  let labels := prepared.labelOffsets
  let array ← encode prepared.code prepared.offsets labels
  let handlers ← encodeHandlers labels prepared.handlers
  let lines ← tableAttribute? "LineNumberTable" (lineEntries labels prepared.code)
  let localVariables ← variableAttributes labels method.localVariables
  let frames ← frameAttribute setting method prepared.offsets prepared.frames
  return size16 prepared.maxStack ++ size16 prepared.maxLocals ++
    u32 (UInt32.ofNat array.length) ++ array ++ counted id handlers ++
    counted id (lines ++ localVariables ++ frames)

end ClassTree.Code
