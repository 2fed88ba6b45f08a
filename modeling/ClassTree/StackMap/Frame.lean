import ClassTree.VerificationType

namespace ClassTree

/-- Types of the locals and of the stack, from the bottom up, in compact form. -/
structure Frame (κ ν : Type) where
  locals : List (VerificationType κ ν)
  stack : List (VerificationType κ ν)
deriving DecidableEq

namespace Frame

/-- Merges wide values with their second halves, after the entries already found (in reverse). -/
def compactOnto (found : List (VerificationType κ ν)) :
    List (VerificationType κ ν) → List (VerificationType κ ν)
  | [] => found.reverse
  | [type] => (type :: found).reverse
  | type :: next :: rest =>
    if type.width = 2 then compactOnto (type :: found) rest
    else compactOnto (type :: found) (next :: rest)

def compact (slots : List (VerificationType κ ν)) : List (VerificationType κ ν) :=
  compactOnto [] slots

def expand (types : List (VerificationType κ ν)) : List (VerificationType κ ν) :=
  types.flatMap fun type => if type.width = 2 then [type, .top] else [type]

def isTop : VerificationType κ ν → Bool
  | .top => true
  | _ => false

def trim (types : List (VerificationType κ ν)) : List (VerificationType κ ν) :=
  (types.reverse.dropWhile isTop).reverse

def ofSlots (locals stack : List (VerificationType κ ν)) : Frame κ ν :=
  ⟨trim (compact locals), compact stack⟩

def localSlots (frame : Frame κ ν) : List (VerificationType κ ν) :=
  expand frame.locals

def slotCount (types : List (VerificationType κ ν)) : Nat :=
  types.foldr (·.width + ·) 0

/-- Renames classes, where that can fail, and creation places: locals first, then the stack. -/
def traverse [Monad m] (f : κ → m κ') (g : ν → ν') (frame : Frame κ ν) : m (Frame κ' ν') := do
  let locals ← frame.locals.mapM (VerificationType.traverse f g)
  let stack ← frame.stack.mapM (VerificationType.traverse f g)
  return ⟨locals, stack⟩

end Frame
end ClassTree
