import Std.Data.HashMap

namespace ClassTree

abbrev Numbering (α : Type) [BEq α] [Hashable α] := Std.HashMap α Nat

namespace Numbering

variable {α : Type} [BEq α] [Hashable α]

def see (numbers : Numbering α) (thing : α) : Numbering α :=
  numbers.insertIfNew thing numbers.size

def ofList (things : List α) : Numbering α :=
  things.foldl see ∅

end Numbering
end ClassTree
