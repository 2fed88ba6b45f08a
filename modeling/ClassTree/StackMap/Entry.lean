import ClassTree.Pool.Constant
import ClassTree.StackMap.Frame

namespace ClassTree.StackMap

/-- Type as in a class file: classes are constants, and creations are byte offsets. -/
abbrev EncodedType := VerificationType Pool.Index UInt16

abbrev EncodedFrame := Frame Pool.Index UInt16

inductive Change where
  /-- Same locals, empty stack. -/
  | same
  /-- Same locals, one value on the stack. -/
  | sameWithStack (type : EncodedType)
  /-- The last one to three locals are gone, and the stack is empty. -/
  | chop (count : Nat)
  /-- There are one to three more locals, and the stack is empty. -/
  | append (locals : List EncodedType)
  | full (locals stack : List EncodedType)
deriving DecidableEq

structure Entry where
  delta : UInt16
  change : Change
deriving DecidableEq

namespace Change

def replace (frame : EncodedFrame) : Change :=
  full frame.locals frame.stack

def between (previous frame : EncodedFrame) : Change :=
  match frame.stack with
  | [] =>
    let before := previous.locals.length
    let now := frame.locals.length
    if now = before then
      if frame.locals = previous.locals then same else replace frame
    else if now < before then
      if before - now < 4 ∧ frame.locals.isPrefixOf previous.locals then chop (before - now)
      else replace frame
    else
      if now - before < 4 ∧ previous.locals.isPrefixOf frame.locals then
        append (frame.locals.drop before)
      else replace frame
  | [type] => if frame.locals = previous.locals then sameWithStack type else replace frame
  | _ => replace frame

end Change

open BigEndian

def encodeType : EncodedType → Bytes
  | .top => u8 0
  | .integer => u8 1
  | .float => u8 2
  | .double => u8 3
  | .long => u8 4
  | .null => u8 5
  | .uninitializedThis => u8 6
  | .object type => u8 7 ++ u16 type
  | .uninitialized offset => u8 8 ++ u16 offset

/-- Distances up to 63 are part of the tag of the two commonest changes. -/
def Entry.encode (entry : Entry) : Bytes :=
  match entry.change with
  | .same =>
    if entry.delta ≤ 63 then u8 entry.delta.toUInt8 else u8 251 ++ u16 entry.delta
  | .sameWithStack type =>
    (if entry.delta ≤ 63 then u8 (entry.delta.toUInt8 + 64) else u8 247 ++ u16 entry.delta)
      ++ encodeType type
  | .chop count => u8 (251 - UInt8.ofNat count) ++ u16 entry.delta
  | .append locals =>
    u8 (251 + UInt8.ofNat locals.length) ++ u16 entry.delta ++ locals.flatMap encodeType
  | .full locals stack =>
    u8 255 ++ u16 entry.delta ++ counted encodeType locals ++ counted encodeType stack

/-- Distance of an offset from the one before it, which the first offset does not have. -/
def deltaAfter (before : Option Nat) (offset : Nat) : Nat :=
  match before with
  | none => offset
  | some before => offset - before - 1

/-- Entries for frames at ascending offsets, the first of which follows the frame on entry. -/
def entries (initial : EncodedFrame) (frames : List (Nat × EncodedFrame)) : List Entry :=
  List.zipWith
    (fun before now => ⟨UInt16.ofNat (deltaAfter before.1 now.1), .between before.2 now.2⟩)
    ((none, initial) :: frames.map fun frame => (some frame.1, frame.2)) frames

end ClassTree.StackMap
