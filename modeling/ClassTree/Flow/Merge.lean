import ClassTree.Flow.ClassReference
import ClassTree.Hierarchy.Basic
import ClassTree.VerificationType

namespace ClassTree.Flow

/-- Type in a frame while types are being computed: creations are instruction indices. -/
abbrev SlotType := VerificationType String Nat

/-- Merges references. Arrays merge by their elements, as long as those are references. -/
def mergeChars (hierarchy : Hierarchy) (reference₁ reference₂ : List Char) : List Char :=
  if reference₁ = reference₂ then reference₁
  else if ClassReference.isArray reference₁ && ClassReference.isArray reference₂ then
    match h : ClassReference.element? reference₁, ClassReference.element? reference₂ with
    | some element₁, some element₂ =>
      have := ClassReference.element?_shorter h
      ClassReference.arrayOf (mergeChars hierarchy element₁ element₂)
    | _, _ => Name.object.toList
  else if ClassReference.isArray reference₁ || ClassReference.isArray reference₂ then
    Name.object.toList
  else
    (hierarchy.commonSuperclass (String.ofList reference₁) (String.ofList reference₂)).toList
termination_by reference₁.length

def mergeReferences (hierarchy : Hierarchy) (reference₁ reference₂ : String) : String :=
  String.ofList (mergeChars hierarchy reference₁.toList reference₂.toList)

/-- The type of a value that has one of two types. A type that is neither merges to `top`. -/
def mergeTypes (hierarchy : Hierarchy) (type₁ type₂ : SlotType) : SlotType :=
  if type₁ = type₂ then type₁
  else match type₁, type₂ with
    | .null, .object reference => .object reference
    | .object reference, .null => .object reference
    | .object reference₁, .object reference₂ =>
      .object (mergeReferences hierarchy reference₁ reference₂)
    | _, _ => .top

end ClassTree.Flow
