import ClassTree.Descriptor.Basic

namespace ClassTree

inductive DescriptorFault where
  | leftover (c : Char)
  | badBaseType (c : Char)
  | badReference (c : Char)
  | badField (c : Char)
  | badName (fault : NameFault)
  | notAnObject
  | noOpenParenthesis
  | noCloseParenthesis
  | missingBaseType
  | missingTerminator (name : String)
  | missingFieldType
deriving DecidableEq

namespace DescriptorFault

def message : DescriptorFault → String
  | leftover c => s!"Unexpected leftover input '{c}'"
  | badBaseType c => s!"Invalid base type character '{c}'"
  | badReference c => s!"Invalid reference type character '{c}'"
  | badField c => s!"Invalid field type character '{c}'"
  | badName fault => fault.message
  | notAnObject => "Expected object type to start with `L`"
  | noOpenParenthesis => "Expected '(' for method"
  | noCloseParenthesis => "Expected ')' for method"
  | missingBaseType => "Missing base type character"
  | missingTerminator name => s!"Missing terminator for 'L{name}'"
  | missingFieldType => "Missing field type"

def isEndOfInput : DescriptorFault → Bool
  | missingBaseType | missingTerminator _ | missingFieldType => true
  | _ => false

end DescriptorFault

abbrev Scan (α : Type) := List Char → Except DescriptorFault (α × List Char)

def Scan.complete (scan : Scan α) (text : String) : Except DescriptorFault α := do
  let (found, rest) ← scan text.toList
  match rest with
  | [] => pure found
  | c :: _ => throw (.leftover c)

namespace BaseType

def scan : Scan BaseType
  | [] => .error .missingBaseType
  | c :: rest =>
    match ofLetter? c with
    | some type => .ok (type, rest)
    | none => .error (.badBaseType c)

def parse : String → Except DescriptorFault BaseType :=
  Scan.complete scan

end BaseType

namespace BinaryName

def scan : Scan BinaryName
  | 'L' :: text =>
    let name := String.ofList (text.takeWhile (· ≠ ';'))
    match text.dropWhile (· ≠ ';') with
    | _ :: rest =>
      match ofString name with
      | .ok name => .ok (name, rest)
      | .error fault => .error (.badName fault)
    | [] => .error (.missingTerminator name)
  | _ => .error .notAnObject

def parse : String → Except DescriptorFault BinaryName :=
  Scan.complete scan

end BinaryName

namespace ElementType

def scan : Scan ElementType
  | 'L' :: rest => do
    let (name, rest) ← BinaryName.scan ('L' :: rest)
    pure (.object name, rest)
  | text => do
    let (type, rest) ← BaseType.scan text
    pure (.base type, rest)

end ElementType

namespace RefType

def scan : Scan RefType
  | [] => .error .missingFieldType
  | 'L' :: rest => do
    let (name, rest) ← BinaryName.scan ('L' :: rest)
    pure (.object name, rest)
  | '[' :: rest => do
    let (element, after) ← ElementType.scan (rest.dropWhile (· = '['))
    pure (.array (rest.takeWhile (· = '[')).length element, after)
  | c :: _ => .error (.badReference c)

def parse : String → Except DescriptorFault RefType :=
  Scan.complete scan

def ofClassReference (text : String) : Except DescriptorFault RefType :=
  if text.toList.head? = some '[' then parse text
  else match BinaryName.ofString text with
    | .ok name => .ok (.object name)
    | .error fault => .error (.badName fault)

end RefType

namespace FieldType

def scan : Scan FieldType
  | [] => .error .missingFieldType
  | c :: rest =>
    match BaseType.ofLetter? c with
    | some type => .ok (.base type, rest)
    | none =>
      if c = 'L' ∨ c = '[' then do
        let (type, rest) ← RefType.scan (c :: rest)
        pure (.ref type, rest)
      else .error (.badField c)

def parse : String → Except DescriptorFault FieldType :=
  Scan.complete scan

end FieldType

theorem length_dropWhile_le (p : α → Bool) (l : List α) : (l.dropWhile p).length ≤ l.length :=
  (List.dropWhile_sublist p).length_le

theorem BaseType.scan_shorter {text rest : List Char} {type : BaseType}
    (h : BaseType.scan text = .ok (type, rest)) : rest.length < text.length := by
  unfold BaseType.scan at h
  repeat' split at h
  all_goals simp_all

theorem BinaryName.scan_shorter {text rest : List Char} {name : BinaryName}
    (h : BinaryName.scan text = .ok (name, rest)) : rest.length < text.length := by
  unfold BinaryName.scan at h
  split at h
  · rename_i text
    have := length_dropWhile_le (fun c => decide (c ≠ ';')) text
    simp only at h
    split at h
    · rename_i head tail heq
      rw [heq] at this
      split at h
      · simp only [Except.ok.injEq, Prod.mk.injEq] at h
        simp only [List.length_cons] at this ⊢
        rw [← h.2]
        omega
      · simp at h
    · simp at h
  · simp at h

theorem ElementType.scan_shorter {text rest : List Char} {type : ElementType}
    (h : ElementType.scan text = .ok (type, rest)) : rest.length < text.length := by
  unfold ElementType.scan at h
  split at h
  · rename_i text
    cases hs : BinaryName.scan ('L' :: text) with
    | error fault => simp [hs, bind, Except.bind] at h
    | ok found =>
      have := BinaryName.scan_shorter hs
      simp_all [bind, Except.bind, pure, Except.pure]
  · cases hs : BaseType.scan text with
    | error fault => simp [hs, bind, Except.bind] at h
    | ok found =>
      have := BaseType.scan_shorter hs
      simp_all [bind, Except.bind, pure, Except.pure]

theorem RefType.scan_shorter {text rest : List Char} {type : RefType}
    (h : RefType.scan text = .ok (type, rest)) : rest.length < text.length := by
  unfold RefType.scan at h
  split at h
  · simp at h
  · rename_i text
    cases hs : BinaryName.scan ('L' :: text) with
    | error fault => simp [hs, bind, Except.bind] at h
    | ok found =>
      have := BinaryName.scan_shorter hs
      simp_all [bind, Except.bind, pure, Except.pure]
  · rename_i text
    have hl := length_dropWhile_le (fun c => decide (c = '[')) text
    cases hs : ElementType.scan (text.dropWhile fun c => decide (c = '[')) with
    | error fault => simp [hs, bind, Except.bind] at h
    | ok found =>
      have := ElementType.scan_shorter hs
      simp only [hs, bind, Except.bind, pure, Except.pure, Except.ok.injEq, Prod.mk.injEq] at h
      simp only [List.length_cons]
      rw [← h.2]
      omega
  · simp at h

/-- Every field type takes up some text, so a list of them is read in finitely many steps. -/
theorem FieldType.scan_shorter {text rest : List Char} {type : FieldType}
    (h : FieldType.scan text = .ok (type, rest)) : rest.length < text.length := by
  unfold FieldType.scan at h
  split at h
  · simp at h
  · rename_i c text
    split at h
    · simp_all
    · split at h
      · cases hs : RefType.scan (c :: text) with
        | error fault => simp [hs, bind, Except.bind] at h
        | ok found =>
          have := RefType.scan_shorter hs
          simp_all [bind, Except.bind, pure, Except.pure]
      · simp at h

namespace MethodType

/-- Parameters up to a closing parenthesis, after those already found (in reverse). -/
def scanParameters (found : List FieldType) (text : List Char) :
    Except DescriptorFault (List FieldType × List Char) :=
  if text.head? = some ')' then .ok (found.reverse, text)
  else match h : FieldType.scan text with
    | .error fault => .error fault
    | .ok (type, rest) =>
      have := FieldType.scan_shorter h
      scanParameters (type :: found) rest
termination_by text.length

def scan : Scan MethodType
  | '(' :: text => do
    let (parameters, rest) ← scanParameters [] text
    match rest with
    | ')' :: 'V' :: rest => pure (⟨parameters, none⟩, rest)
    | ')' :: rest =>
      let (result, rest) ← FieldType.scan rest
      pure (⟨parameters, some result⟩, rest)
    | _ => throw .noCloseParenthesis
  | _ => .error .noOpenParenthesis

def parse : String → Except DescriptorFault MethodType :=
  Scan.complete scan

end MethodType
end ClassTree
