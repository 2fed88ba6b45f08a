import ClassTree.Name

namespace ClassTree

/-- What merging has to know of classes: what two of them have in common, however that is found
out. The `parents` are names that can come of it; all that they decide is for how long types are
computed before it is given up. -/
structure Hierarchy where
  commonSuperclass : String → String → String
  parents : List String

structure ClassInfo where
  superName : Option String
  isInterface : Bool
deriving DecidableEq

/-- Information on classes. Only finitely many names occur as superclasses, so that a chain of
superclasses either ends or comes back to where it was. -/
structure Ancestry where
  info? : String → Option ClassInfo
  parents : List String
  complete : ∀ {name parent : String} {info : ClassInfo},
    info? name = some info → info.superName = some parent → parent ∈ parents

namespace Ancestry

/-- A class and its superclasses, if the chain ends within `bound` classes and nothing on it is
unknown. -/
def chainWithin (ancestry : Ancestry) : Nat → String → Option (List String)
  | 0, _ => none
  | bound + 1, name =>
    if name = Name.object then some [name]
    else match ancestry.info? name with
      | none => none
      | some info =>
        match info.superName with
        | none => some [name]
        | some parent => (ancestry.chainWithin bound parent).map (name :: ·)

/-- A class and its superclasses. A chain of more classes than there are superclasses, and one,
repeats a class and has no end. -/
def chain? (ancestry : Ancestry) (name : String) : Option (List String) :=
  ancestry.chainWithin (ancestry.parents.length + 1) name

/-- Known, and not an interface. -/
def isClass (ancestry : Ancestry) (name : String) : Bool :=
  (ancestry.info? name).any fun info => !info.isInterface

/-- The closest class that both classes are or extend. Interfaces count as `java/lang/Object`,
as the verifier treats them, and so does any class whose superclasses are not all known. -/
def commonSuperclass (ancestry : Ancestry) (name₁ name₂ : String) : String :=
  if name₁ = name₂ then name₁
  else if name₁ = Name.object ∨ name₂ = Name.object then Name.object
  else if ancestry.isClass name₁ && ancestry.isClass name₂ then
    match ancestry.chain? name₁, ancestry.chain? name₂ with
    | some chain₁, some chain₂ => (chain₂.find? chain₁.contains).getD Name.object
    | _, _ => Name.object
  else Name.object

/-- Information on classes, as far as merging is concerned. -/
def hierarchy (ancestry : Ancestry) : Hierarchy :=
  ⟨ancestry.commonSuperclass, ancestry.parents⟩

@[simp] theorem hierarchy_commonSuperclass (ancestry : Ancestry) :
    ancestry.hierarchy.commonSuperclass = ancestry.commonSuperclass :=
  rfl

@[simp] theorem hierarchy_parents (ancestry : Ancestry) :
    ancestry.hierarchy.parents = ancestry.parents :=
  rfl

end Ancestry
end ClassTree
