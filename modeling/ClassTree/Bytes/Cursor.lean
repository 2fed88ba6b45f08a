import ClassTree.Bytes.BigEndian
import ClassTree.Error

namespace ClassTree

structure Cursor where
  rest : Bytes
  /-- Bytes already read. -/
  position : Nat
  /-- Offset in the file of the first byte of the cursor. -/
  base : Nat

abbrev Reader := StateT Cursor (Except Error)

namespace Cursor

def ofBytes (bytes : Bytes) : Cursor :=
  ⟨bytes, 0, 0⟩

def offset (cursor : Cursor) : Nat :=
  cursor.base + cursor.position

def take (cursor : Cursor) (count : Nat) : Except Error (Bytes × Cursor) :=
  let (front, rest) := cursor.rest.splitAt count
  if front.length = count then
    .ok (front, { cursor with rest, position := cursor.position + count })
  else .error (.malformed (.unexpectedEnd cursor.offset))

end Cursor

/-- What a reader finds at the front of a cursor. -/
def Cursor.parse (cursor : Cursor) (reader : Reader α) : Except Error α :=
  reader.run' cursor

namespace Reader

def fail (cause : Malformed) : Reader α :=
  throw (.malformed cause)

def bytes (count : Nat) : Reader Bytes :=
  fun cursor => cursor.take count

/-- The next `count` bytes as a cursor of their own. -/
def part (count : Nat) : Reader Cursor := fun cursor => do
  let (front, after) ← cursor.take count
  pure (⟨front, 0, cursor.offset⟩, after)

def align4 : Reader Unit := do
  let _ ← bytes ((4 - (← get).position % 4) % 4)

def number (width : Nat) : Reader Nat :=
  return BigEndian.value (← bytes width)

def u8 : Reader UInt8 := return UInt8.ofNat (← number 1)

def u16 : Reader UInt16 := return UInt16.ofNat (← number 2)

def u32 : Reader UInt32 := return UInt32.ofNat (← number 4)

def u64 : Reader UInt64 := return UInt64.ofNat (← number 8)

def i8 : Reader Int8 := return (← u8).toInt8

def i16 : Reader Int16 := return (← u16).toInt16

def i32 : Reader Int32 := return (← u32).toInt32

def i64 : Reader Int64 := return (← u64).toInt64

/-- Reads `count` more items, after those already found (in reverse). -/
def timesOnto (item : Reader α) (found : List α) : Nat → Reader (List α)
  | 0 => return found.reverse
  | count + 1 => do
    let next ← item
    timesOnto item (next :: found) count

def times (count : Nat) (item : Reader α) : Reader (List α) :=
  timesOnto item [] count

def counted (item : Reader α) : Reader (List α) := do
  times (← u16).toNat item

end Reader
end ClassTree
