namespace ClassTree.Path

/-- Goes to a component from a place, which is given from the inside out. -/
def step (place : List String) (component : String) : Option (List String) :=
  if component = "" ∨ component = "." then some place
  else if component = ".." then
    match place with
    | [] => none
    | _ :: outer => some outer
  else some (component :: place)

def components? (path : String) : Option (List String) :=
  if path.startsWith "/" then none
  else (((path.splitOn "/").foldlM step []).map List.reverse)

def endsAtDirectory (path : String) : Bool :=
  match (path.splitOn "/").getLast? with
  | none | some "" | some "." | some ".." => true
  | _ => false

def render (components : List String) : String :=
  "/".intercalate components

def file? (path : String) : Option String :=
  if endsAtDirectory path then none else (components? path).map render

end ClassTree.Path
