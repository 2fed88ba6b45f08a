import ClassTree.Pool.Table
import ClassTree.StackMap.Frame

namespace ClassTree.StackMap

abbrev OffsetFrame := Frame String Nat

open Reader

def bad (detail : String) : Reader α :=
  fail (.badAttribute "StackMapTable" detail)

def readType (table : Pool.Table) : Reader (VerificationType String Nat) := do
  match ← u8 with
  | 0 => return .top
  | 1 => return .integer
  | 2 => return .float
  | 3 => return .double
  | 4 => return .long
  | 5 => return .null
  | 6 => return .uninitializedThis
  | 7 => return .object (← table.className (← u16))
  | 8 => return .uninitialized (← u16).toNat
  | tag => bad s!"unknown verification type tag {tag}"

/-- The distance to the next frame, and the frame, given the locals of the one before. -/
def readEntry (table : Pool.Table) (locals : List (VerificationType String Nat)) :
    Reader (Nat × OffsetFrame) := do
  let tag ← u8
  if tag ≤ 63 then
    return (tag.toNat, ⟨locals, []⟩)
  else if tag ≤ 127 then
    let type ← readType table
    return (tag.toNat - 64, ⟨locals, [type]⟩)
  else if tag < 247 then
    bad s!"reserved frame type {tag}"
  else if tag = 247 then
    let delta ← u16
    let type ← readType table
    return (delta.toNat, ⟨locals, [type]⟩)
  else if tag ≤ 250 then
    let delta ← u16
    let chopped := 251 - tag.toNat
    if locals.length < chopped then bad "chop frame removes too many locals"
    return (delta.toNat, ⟨locals.take (locals.length - chopped), []⟩)
  else if tag = 251 then
    return ((← u16).toNat, ⟨locals, []⟩)
  else if tag ≤ 254 then
    let delta ← u16
    let more ← times (tag.toNat - 251) (readType table)
    return (delta.toNat, ⟨locals ++ more, []⟩)
  else
    let delta ← u16
    let locals ← counted (readType table)
    let stack ← counted (readType table)
    return (delta.toNat, ⟨locals, stack⟩)

/-- Offset at some distance from the one before it, which the first offset does not have. -/
def offsetAfter (before : Option Nat) (delta : Nat) : Nat :=
  match before with
  | none => delta
  | some before => before + delta + 1

/-- Frames of the next `count` entries, after those already found (in reverse). -/
def readFrom (table : Pool.Table) (locals : List (VerificationType String Nat))
    (after : Option Nat) (found : List (Nat × OffsetFrame)) :
    Nat → Reader (List (Nat × OffsetFrame))
  | 0 => return found.reverse
  | count + 1 => do
    let (delta, frame) ← readEntry table locals
    let offset := offsetAfter after delta
    readFrom table frame.locals (some offset) ((offset, frame) :: found) count

/-- Frames of a table, given the locals on entry to the method. -/
def read (table : Pool.Table) (locals : List (VerificationType String Nat)) :
    Reader (List (Nat × OffsetFrame)) := do
  readFrom table locals none [] (← u16).toNat

end ClassTree.StackMap
