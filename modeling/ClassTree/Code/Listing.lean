import ClassTree.Code.Decoding
import ClassTree.Context
import ClassTree.Numbering
import ClassTree.StackMap.Reading

namespace ClassTree

structure Skip where
  /-- Line numbers, variables, source files and names of parameters. -/
  debug : Bool
  frames : Bool

def readAttributes (table : Pool.Table) : Reader (List (String × Cursor)) :=
  Reader.counted do
    let name ← table.text (← Reader.u16)
    let info ← Reader.part (← Reader.u32).toNat
    return (name, info)

namespace Code

/-- Entry of a variable table, or of the table of the signatures of variables. -/
structure VariableEntry where
  start : Nat
  stop : Nat
  name : String
  /-- Descriptor or signature. -/
  type : String
  slot : UInt16

structure OffsetHandler where
  start : Nat
  stop : Nat
  handler : Nat
  catchType : Option String

inductive CodeTable where
  | lines (entries : List (Nat × UInt16))
  | localVariables (entries : List VariableEntry)
  | signatures (entries : List VariableEntry)
  | frames (entries : List (Nat × StackMap.OffsetFrame))

structure Listing where
  maxStack : UInt16
  maxLocals : UInt16
  /-- Length of the code array. -/
  length : Nat
  instructions : List (Nat × Instruction Nat)
  handlers : List OffsetHandler
  tables : List CodeTable

open Reader

def readHandler (table : Pool.Table) : Reader OffsetHandler := do
  let start ← u16
  let stop ← u16
  let handler ← u16
  let catchType ← table.className? (← u16)
  return ⟨start.toNat, stop.toNat, handler.toNat, catchType⟩

def readLine : Reader (Nat × UInt16) := do
  let start ← u16
  return (start.toNat, ← u16)

def readVariable (table : Pool.Table) : Reader VariableEntry := do
  let start := (← u16).toNat
  let length := (← u16).toNat
  let name ← table.text (← u16)
  let type ← table.text (← u16)
  return ⟨start, start + length, name, type, ← u16⟩

def entryLocals (owner : String) (method : Method) :
    Except Error (List (VerificationType String Nat)) :=
  match method.type? with
  | .ok type => .ok (Context.ofMethod owner method type).entryLocals
  | .error _ => .error (.malformed (.badDescriptor method.descriptor))

/-- Interprets an attribute of a code array; unknown ones are dropped. -/
def readTable (owner : String) (method : Method) (table : Pool.Table) (skip : Skip)
    (name : String) (info : Cursor) : Except Error (Option CodeTable) := do
  match name with
  | "LineNumberTable" =>
    if skip.debug then return none
    return some (.lines (← info.parse (counted readLine)))
  | "LocalVariableTable" =>
    if skip.debug then return none
    return some (.localVariables (← info.parse (counted (readVariable table))))
  | "LocalVariableTypeTable" =>
    if skip.debug then return none
    return some (.signatures (← info.parse (counted (readVariable table))))
  | "StackMapTable" =>
    if skip.frames then return none
    let locals ← entryLocals owner method
    return some (.frames (← info.parse (StackMap.read table locals)))
  | _ => return none

def readListing (owner : String) (method : Method) (table : Pool.Table) (skip : Skip) :
    Reader Listing := do
  let maxStack ← u16
  let maxLocals ← u16
  let length := (← u32).toNat
  let code ← part length
  let instructions ← decode table code
  let handlers ← counted (readHandler table)
  let attributes ← readAttributes table
  let tables ← attributes.mapM fun (name, info) => readTable owner method table skip name info
  return ⟨maxStack, maxLocals, length, instructions, handlers, tables.filterMap id⟩

namespace OffsetHandler

def mentions (handler : OffsetHandler) : List Nat :=
  [handler.start, handler.stop, handler.handler]

end OffsetHandler

namespace CodeTable

/-- Offsets that get a label because of the table. -/
def mentions : CodeTable → List Nat
  | lines entries => entries.map Prod.fst
  | localVariables entries => entries.flatMap fun entry => [entry.start, entry.stop]
  | signatures _ => []
  | frames entries => entries.flatMap fun (offset, frame) =>
      (frame.locals ++ frame.stack).filterMap VerificationType.creation? ++ [offset]

end CodeTable

namespace Listing

/-- Offsets that get a label, in the order in which labels are handed out. -/
def mentions (listing : Listing) : List Nat :=
  listing.instructions.flatMap (fun entry => entry.2.references) ++
    listing.handlers.flatMap OffsetHandler.mentions ++ listing.tables.flatMap CodeTable.mentions

def lineEntries (listing : Listing) : List (Nat × UInt16) :=
  listing.tables.flatMap fun
    | .lines entries => entries
    | _ => []

def frameEntries (listing : Listing) : List (Nat × StackMap.OffsetFrame) :=
  listing.tables.flatMap fun
    | .frames entries => entries
    | _ => []

def variableEntries (listing : Listing) : List VariableEntry :=
  listing.tables.flatMap fun
    | .localVariables entries => entries
    | _ => []

def signatureEntries (listing : Listing) : List VariableEntry :=
  listing.tables.flatMap fun
    | .signatures entries => entries
    | _ => []

def hasVariables (listing : Listing) : Bool :=
  listing.tables.any fun
    | .localVariables _ => true
    | _ => false

def starts (listing : Listing) : Numbering Nat :=
  .ofList (listing.instructions.map Prod.fst)

/-- The first offset that needs a label but is neither the start of an instruction nor the end of
the code. -/
def misplaced? (listing : Listing) : Option Nat :=
  let starts := listing.starts
  (listing.mentions.filter fun offset =>
    !(offset == listing.length) && !starts.contains offset).min?

/-- Entries by offset, each offset keeping the order of its entries. -/
def byOffset (entries : List (Nat × α)) : Std.HashMap Nat (List α) :=
  entries.reverse.foldl (fun found (offset, entry) =>
    found.insert offset (entry :: found.getD offset [])) ∅

/-- What precedes the instruction at an offset: its label, its lines and its frame. -/
def markers (labels : Numbering Nat) (lines : Std.HashMap Nat (List UInt16))
    (frames : Std.HashMap Nat StackMap.OffsetFrame) (offset : Nat) : List (Instruction Nat) :=
  (if labels.contains offset then [.label offset] else []) ++
    (lines.getD offset []).map (.line · offset) ++
    (match frames[offset]? with
      | some frame => [.frame frame.locals frame.stack]
      | none => [])

/-- The elements of the code in order. The end of the code is marked like an instruction only if
a line or frame is there, and its label always comes last. -/
def elements (listing : Listing) : List (Instruction Nat) :=
  let labels : Numbering Nat := .ofList listing.mentions
  let lines := byOffset listing.lineEntries
  let frames := Std.HashMap.ofList listing.frameEntries
  listing.instructions.flatMap (fun (offset, insn) => markers labels lines frames offset ++ [insn])
    ++ (if lines.contains listing.length || frames.contains listing.length then
          markers labels lines frames listing.length
        else [])
    ++ (if labels.contains listing.length then [.label listing.length] else [])

def addSignature (localVariables : List (VariableEntry × Option String))
    (signature : VariableEntry) : List (VariableEntry × Option String) :=
  let isAbout (entry : VariableEntry × Option String) : Bool :=
    entry.1.slot == signature.slot && entry.1.name == signature.name &&
      entry.1.start == signature.start && entry.1.stop == signature.stop
  match localVariables.findIdx? isAbout with
  | some index => localVariables.modify index fun entry => (entry.1, some signature.type)
  | none => localVariables

def addTo (listing : Listing) (method : Method) : Except Error Method := do
  if let some offset := listing.misplaced? then
    throw (.malformed (.badBytecodeOffset offset))
  let labels : Numbering Nat := .ofList listing.mentions
  let labelAt (offset : Nat) : Label := ⟨labels.getD offset 0⟩
  let localVariables := listing.signatureEntries.foldl addSignature
    (listing.variableEntries.map fun entry => (entry, none))
  return { method with
    maxStack := listing.maxStack
    maxLocals := listing.maxLocals
    body := ⟨listing.elements.map (Instruction.mapLabels labelAt), labels.size⟩
    handlers := method.handlers ++ listing.handlers.map fun handler =>
      { start := labelAt handler.start, stop := labelAt handler.stop,
        handler := labelAt handler.handler, catchType := handler.catchType }
    localVariables :=
      if listing.hasVariables then
        some (localVariables.map fun (entry, signature) =>
          { name := entry.name, descriptor := entry.type, signature, start := labelAt entry.start,
            stop := labelAt entry.stop, slot := entry.slot })
      else method.localVariables }

end Listing
end Code
end ClassTree
