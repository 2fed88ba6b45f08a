import ClassTree.Pool.Constant

namespace ClassTree.Pool

structure Table where
  constants : Constants
  bootstrap : Array BootstrapMethod

namespace Table

def get (table : Table) (index : Index) : Except Error Constant :=
  match table.constants.get? index.toNat with
  | some constant => .ok constant
  | none => .error (.malformed (.badConstantIndex index "constant"))

def unexpected (index : Index) (expected : String) (found : Constant) : Except Error α :=
  .error (.malformed (.wrongConstantKind index expected found.kindName))

def text (table : Table) (index : Index) : Except Error String := do
  match ← table.get index with
  | .utf8 text => pure text
  | other => unexpected index "Utf8" other

def className (table : Table) (index : Index) : Except Error String := do
  match ← table.get index with
  | .classRef name => table.text name
  | other => unexpected index "Class" other

def className? (table : Table) (index : Index) : Except Error (Option String) :=
  if index = 0 then .ok none else some <$> table.className index

def text? (table : Table) (index : Index) : Except Error (Option String) :=
  if index = 0 then .ok none else some <$> table.text index

def nameAndType (table : Table) (index : Index) : Except Error (String × String) := do
  match ← table.get index with
  | .nameAndType name descriptor => return (← table.text name, ← table.text descriptor)
  | other => unexpected index "NameAndType" other

/-- A field or method and whether its owner is an interface. -/
def member (table : Table) (index : Index) : Except Error (Member × Bool) := do
  let (owner, nameAndType, onInterface) ← match ← table.get index with
    | .fieldRef owner nameAndType => pure (owner, nameAndType, false)
    | .methodRef owner nameAndType onInterface => pure (owner, nameAndType, onInterface)
    | other => unexpected index "Fieldref or Methodref" other
  let (name, descriptor) ← table.nameAndType nameAndType
  return (⟨← table.className owner, name, descriptor⟩, onInterface)

def handle (table : Table) (index : Index) : Except Error Handle := do
  match ← table.get index with
  | .methodHandle kind member =>
    let (member, onInterface) ← table.member member
    return ⟨kind, member, onInterface⟩
  | other => unexpected index "MethodHandle" other

def literal (table : Table) (index : Index) : Except Error Literal := do
  match ← table.get index with
  | .integer value => return .int value
  | .float bits => return .float bits
  | .long value => return .long value
  | .double bits => return .double bits
  | .string text => return .string (← table.text text)
  | .classRef name => return .classRef (← table.text name)
  | .methodType descriptor => return .methodType (← table.text descriptor)
  | .methodHandle .. => return .handle (← table.handle index)
  | .dynamic .. => throw (.unsupported s!"dynamically-computed constant #{index}")
  | other => unexpected index "loadable constant" other

def bootstrapMethod (table : Table) (index : UInt16) : Except Error (Handle × List Literal) := do
  match table.bootstrap[index.toNat]? with
  | some entry => return (← table.handle entry.handle, ← entry.arguments.mapM table.literal)
  | none => throw (.malformed (.badAttribute "BootstrapMethods" s!"missing entry {index}"))

end Table
end ClassTree.Pool
