import ClassTree.CommandLine.Execution

namespace ClassTree.CommandLine

structure FileTree where
  files : Files

namespace FileTree

def ofList (entries : List (String × Bytes)) : FileTree :=
  ⟨entries.foldl (fun files (path, bytes) =>
    match Path.file? path with
    | some key => files.insert key bytes
    | none => files) ∅⟩

/-- What is below a directory in the path of a file, if the file is there. -/
def below? (directory : List String) (key : String) : Option String :=
  let components := key.splitOn "/"
  if directory.isPrefixOf components ∧ directory.length < components.length then
    some (Path.render (components.drop directory.length))
  else none

/-- There is a directory where there is a file below it, and at the start. -/
def isDirectory (tree : FileTree) (directory : List String) : Bool :=
  directory.isEmpty || tree.files.keys.any fun key => (below? directory key).isSome

/-- Where a path leads. Every step of it, even one that goes back, starts from a directory. -/
def resolve? (tree : FileTree) (path : String) : Option (List String) :=
  if path.startsWith "/" then none
  else
    let step (place : List String) (component : String) : Option (List String) :=
      if tree.isDirectory place.reverse then Path.step place component else none
    ((path.splitOn "/").foldlM step []).map List.reverse

def read? (tree : FileTree) (path : String) : Option Bytes := do
  tree.files[Path.render (← tree.resolve? path)]?

def below (tree : FileTree) (path : String) : Files :=
  match tree.resolve? path with
  | none => ∅
  | some directory =>
    tree.files.fold (fun files key bytes =>
      match below? directory key with
      | some relative => files.insert relative bytes
      | none => files) ∅

def write? (tree : FileTree) (path : String) (bytes : Bytes) : Option FileTree := do
  let components ← tree.resolve? path
  if tree.isDirectory components then none
  else some ⟨tree.files.insert (Path.render components) bytes⟩

end FileTree

/-- How a run of the program ends. Nothing is printed unless it succeeds. -/
structure Outcome where
  exitCode : Nat
  stdout : String
  tree : FileTree

def failed (exitCode : Nat) (tree : FileTree) : Outcome :=
  ⟨exitCode, "", tree⟩

/-- Runs the program. It exits with 2 if the arguments are not understood, and with 1 if they
cannot be carried out. -/
def execute (arguments : List String) (tree : FileTree) : Outcome :=
  match Request.parse arguments with
  | .error _ => failed 2 tree
  | .ok request =>
    match tree.read? request.input with
    | none => failed 1 tree
    | some bytes =>
      let sources := request.directories.map fun directory =>
        Source.ofDirectory (tree.below directory)
      match request.run bytes sources with
      | .error _ => failed 1 tree
      | .ok (.text text) => ⟨0, text, tree⟩
      | .ok (.file path bytes) =>
        match tree.write? path bytes with
        | some tree => ⟨0, "", tree⟩
        | none => failed 1 tree

end ClassTree.CommandLine
