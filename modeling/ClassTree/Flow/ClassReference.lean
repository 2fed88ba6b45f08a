import ClassTree.Name

namespace ClassTree.ClassReference

def isArray (reference : List Char) : Bool :=
  reference.head? == some '['

/-- Reference to the elements of an array; primitive elements have none. -/
def element? : List Char → Option (List Char)
  | '[' :: '[' :: rest => some ('[' :: rest)
  | '[' :: 'L' :: rest => if rest.getLast? = some ';' then some rest.dropLast else none
  | _ => none

/-- Reference to an array with the given elements. -/
def arrayOf (reference : List Char) : List Char :=
  if isArray reference then '[' :: reference else '[' :: 'L' :: reference ++ [';']

theorem element?_shorter {reference element : List Char} (h : element? reference = some element) :
    element.length < reference.length := by
  unfold element? at h
  split at h
  · simp only [Option.some.injEq] at h
    subst h
    simp
  · split at h
    · simp only [Option.some.injEq] at h
      subst h
      simp only [List.length_dropLast, List.length_cons]
      omega
    · simp at h
  · simp at h

end ClassTree.ClassReference
