import Mathlib.Data.List.Nodup
import Std.Data.String.ToInt
import Std.Data.String.ToNat
import ClassTree.Proofs.Text.Words
import ClassTree.Report.Transcript

namespace ClassTree

/-- Numbers in decimal notation, unless they have a notation of their own. -/
def Literal.isFloating : Literal → Bool
  | .float _ | .double _ => true
  | _ => false

def Instruction.literals {ι : Type} : Instruction ι → List Literal
  | .load value => [value]
  | .invokeDynamic _ _ _ arguments => arguments
  | _ => []

namespace Transcript

open Text

section

variable {name name' rest rest' : String} {items others : List String}

/-- A name is told apart from what is in brackets behind it. -/
theorem name_inj (hn : Simple name) (hn' : Simple name') (hr : Halts (upTo '(') () rest.toList)
    (hr' : Halts (upTo '(') () rest'.toList) (h : name ++ rest = name' ++ rest') :
    name = name' ∧ rest = rest' := by
  have hlists := congrArg String.toList h
  rw [String.toList_append, String.toList_append] at hlists
  obtain ⟨hname, hrest⟩ := (returns_upTo hn.bracket_notMem).append_inj
    (returns_upTo hn'.bracket_notMem) hr hr' hlists
  exact ⟨String.toList_inj.mp hname, String.toList_inj.mp hrest⟩

theorem call_eq (name : String) (items : List String) :
    call name items = name ++ ("(" ++ listed items ++ ")") := by
  rw [call, String.append_assoc, String.append_assoc, String.append_assoc]

theorem halts_empty : Halts (upTo '(') () "".toList := by
  intro c hc
  rw [String.toList_empty] at hc
  cases hc

theorem halts_arguments (items : List String) :
    Halts (upTo '(') () ("(" ++ listed items ++ ")").toList := by
  have hshape : ("(" ++ listed items ++ ")").toList = '(' :: (listed items ++ ")").toList := by simp
  rw [hshape]
  exact halts_upTo _ _

theorem word_call (hn : Simple name) (h : ∀ a ∈ items, Word a) : Word (call name items) :=
  (phrase_intercalate h).bracketed (hn.opens fun _ => rfl) fun _ => rfl

theorem bracketed_inj {opening closing : String} (h : ∀ a ∈ items, Word a)
    (h' : ∀ a ∈ others, Word a)
    (he : opening ++ listed items ++ closing = opening ++ listed others ++ closing) :
    items = others :=
  words_inj h h' ((String.append_right_inj _).mp ((String.append_left_inj _).mp he))

theorem call_inj (hn : Simple name) (hn' : Simple name') (h : ∀ a ∈ items, Word a)
    (h' : ∀ a ∈ others, Word a) (he : call name items = call name' others) :
    name = name' ∧ items = others := by
  rw [call_eq, call_eq] at he
  obtain ⟨hname, harguments⟩ :=
    name_inj hn hn' (halts_arguments items) (halts_arguments others) he
  exact ⟨hname, bracketed_inj h h' harguments⟩

end

/-- Lists are told from what is made of their elements if these are. -/
theorem map_inj_of_forall {α β : Type} {f : α → β} {xs ys : List α}
    (hf : ∀ a ∈ xs, ∀ b ∈ ys, f a = f b → a = b) (h : xs.map f = ys.map f) : xs = ys := by
  induction xs generalizing ys with
  | nil => exact (List.map_eq_nil_iff.mp h.symm).symm
  | cons a xs ih =>
    cases ys with
    | nil => cases h
    | cons b ys =>
      obtain ⟨hfirst, hrest⟩ := List.cons.inj h
      rw [hf a List.mem_cons_self b List.mem_cons_self hfirst,
        ih (fun a ha b hb => hf a (.tail _ ha) b (.tail _ hb)) hrest]

/-- A name tells its place in a list of names without repetitions. -/
theorem place_of_name {names : List String} {i j : Nat} {name : String} (hn : names.Nodup)
    (hi : names[i]? = some name) (hj : names[j]? = some name) : i = j := by
  obtain ⟨hlt, he⟩ := List.getElem?_eq_some_iff.mp hi
  obtain ⟨hlt', he'⟩ := List.getElem?_eq_some_iff.mp hj
  exact hn.getElem_inj_iff.mp (he.trans he'.symm)

theorem word_quotedCall {name : String} (hn : Simple name) (text : String) :
    Word (call name [quoted text]) :=
  word_call hn (by simpa using word_quoted text)

/-- A call with a text as its only argument tells the text. -/
theorem quotedCall_inj {name text other : String}
    (h : call name [quoted text] = call name [quoted other]) : text = other := by
  have hitems :=
    bracketed_inj (by simpa using word_quoted text) (by simpa using word_quoted other) h
  exact quoted_inj.mp (List.cons.inj hitems).1

theorem word_owned (text : String) : Word (owned text) :=
  word_quotedCall (simple_ofList _ rfl) text

@[simp] theorem owned_inj {text other : String} : owned text = owned other ↔ text = other :=
  ⟨quotedCall_inj, congrArg owned⟩

theorem word_optional (text : Option String) : Word (optional text) := by
  cases text with
  | none => exact word_ofList _ rfl
  | some text => exact word_quotedCall (simple_ofList _ rfl) text

@[simp] theorem optional_inj {text other : Option String} :
    optional text = optional other ↔ text = other := by
  refine ⟨fun h => ?_, congrArg optional⟩
  -- the absent text is a name with nothing in brackets behind it
  have hmixed : ∀ text, "None" ≠ call "Some" [quoted text] := by
    intro text he
    rw [call_eq, ← String.append_empty (s := "None")] at he
    have hname := (name_inj (simple_ofList _ rfl) (simple_ofList _ rfl) halts_empty
      (halts_arguments _) he).1
    exact absurd hname (by decide)
  cases text with
  | none =>
    cases other with
    | none => rfl
    | some other => exact absurd h (hmixed other)
  | some text =>
    cases other with
    | none => exact absurd h.symm (hmixed text)
    | some other => exact congrArg some (quotedCall_inj h)

theorem word_flag (value : Bool) : Word (flag value) := by
  cases value <;> exact word_ofList _ rfl

@[simp] theorem flag_inj {value other : Bool} : flag value = flag other ↔ value = other := by
  cases value <;> cases other <;> decide

theorem isSimple_of_isDigit {c : Char} (h : c.isDigit = true) : isSimple c = true := by
  simp only [Char.isDigit, Bool.and_eq_true, decide_eq_true_eq, UInt32.le_iff_toNat_le,
    ge_iff_le] at h
  obtain ⟨hlow, hhigh⟩ := h
  change 48 ≤ c.toNat at hlow
  change c.toNat ≤ 57 at hhigh
  exact isSimple_of_code (by omega)

theorem simple_repr (n : Nat) : Simple n.repr := by
  intro c hc
  rw [Nat.toList_repr] at hc
  exact isSimple_of_isDigit (Nat.isDigit_of_mem_toDigits (by decide) (by decide) hc)

theorem repr_ne_empty (n : Nat) : n.repr ≠ "" := by
  intro h
  rw [← String.toList_eq_nil_iff, Nat.toList_repr] at h
  exact Nat.toDigits_ne_nil h

theorem word_repr (n : Nat) : Word n.repr :=
  (simple_repr n).word (repr_ne_empty n)

theorem word_integer (value : Int) : Word (integer value) := by
  cases value with
  | ofNat n => exact word_repr n
  | negSucc n => exact (word_ofList ['-'] rfl).append (word_repr (n + 1))

@[simp] theorem integer_inj {value other : Int} : integer value = integer other ↔ value = other :=
  Int.repr_inj

theorem label_empty (l : Label) : label ∅ l = "l" ++ l.index.repr := by
  simp [label]
  rfl

theorem word_label (l : Label) : Word (label ∅ l) := by
  rw [label_empty]
  exact (word_ofList ['l'] rfl).append (word_repr l.index)

@[simp] theorem label_inj {l l' : Label} : label ∅ l = label ∅ l' ↔ l = l' := by
  rw [label_empty, label_empty, String.append_right_inj, Nat.repr_inj]
  cases l
  cases l'
  simp

def byteText (byte : UInt8) : String :=
  "0x" ++ hex 2 byte.toNat

theorem word_byteText (byte : UInt8) : Word (byteText byte) := by
  have hdigits : Simple (hex 2 byte.toNat) := fun c hc =>
    isSimple_of_mem_hexDigits (mem_hexDigits_of_mem_hex hc)
  exact ((simple_ofList ['0', 'x'] rfl).append hdigits).word fun he =>
    absurd (String.append_eq_empty_iff.mp he).1 (by decide)

theorem byteText_inj {byte other : UInt8} (h : byteText byte = byteText other) : byte = other :=
  UInt8.toNat_inj.mp (hex_inj ((String.append_right_inj _).mp h))

def letterValue (text : String) : Nat :=
  text.toList.foldl (fun value c => value * 128 + c.toNat) 0

def distinct : List Nat → Bool
  | [] => true
  | first :: rest => rest.all (fun n => !first.beq n) && distinct rest

theorem nodup_of_distinct {l : List Nat} (h : distinct l = true) : l.Nodup := by
  induction l with
  | nil => exact .nil
  | cons first rest ih =>
    rw [distinct, Bool.and_eq_true, List.all_eq_true] at h
    refine List.nodup_cons.mpr ⟨fun hm => ?_, ih h.2⟩
    simpa using h.1 first hm

/-- No two operation codes have the same name. -/
theorem nodup_mnemonics : Opcode.mnemonics.toList.Nodup := by
  -- as numbers, which are compared at once where texts are compared letter by letter
  have hdistinct : distinct (Opcode.mnemonics.toList.map letterValue) = true := by
    decide +kernel
  exact (nodup_of_distinct hdistinct).of_map _

def isNameChar (c : Char) : Bool :=
  (65 ≤ c.toNat && c.toNat ≤ 90) || (48 ≤ c.toNat && c.toNat ≤ 57) || c.toNat == 95

def IsName (text : String) : Prop :=
  text ≠ "" ∧ ∀ c ∈ text.toList, isNameChar c = true

theorem isName_ofList (letters : List Char)
    (h : (!letters.isEmpty && letters.all isNameChar) = true) : IsName (.ofList letters) := by
  rw [Bool.and_eq_true] at h
  rw [IsName, String.toList_ofList, ← List.all_eq_true, ne_eq, ← String.toList_eq_nil_iff,
    String.toList_ofList]
  exact ⟨by simpa using h.1, h.2⟩

theorem IsName.simple {text : String} (h : IsName text) : Simple text := by
  intro c hc
  have hcode := h.2 c hc
  simp only [isNameChar, Bool.or_eq_true, Bool.and_eq_true, decide_eq_true_eq, beq_iff_eq] at hcode
  exact isSimple_of_code (by omega)

theorem isName_mnemonics : ∀ name ∈ Opcode.mnemonics.toList, IsName name := by
  simp only [Opcode.mnemonics]
  repeat first
    | exact List.forall_mem_nil _
    | refine List.forall_mem_cons.mpr ⟨isName_ofList _ rfl, ?_⟩

/-- An operation code without a name is written as a number. -/
theorem opcode_cases (op : Opcode) :
    Opcode.mnemonics.toList[op.byte.toNat]? = some (opcode op) ∨ opcode op = byteText op.byte := by
  unfold opcode Opcode.mnemonic?
  rw [← Array.getElem?_toList]
  cases Opcode.mnemonics.toList[op.byte.toNat]? with
  | some name => exact .inl rfl
  | none => exact .inr rfl

theorem word_opcode (op : Opcode) : Word (opcode op) := by
  rcases opcode_cases op with hat | he
  · have hname := isName_mnemonics _ (List.mem_of_getElem? hat)
    exact hname.simple.word hname.1
  · rw [he]
    exact word_byteText op.byte

@[simp] theorem opcode_inj {op op' : Opcode} : opcode op = opcode op' ↔ op = op' := by
  refine ⟨fun h => ?_, congrArg opcode⟩
  -- no name has a small letter in it, as the numbers have
  have hmixed : ∀ {code : Nat} {byte : UInt8},
      Opcode.mnemonics.toList[code]? ≠ some (byteText byte) := by
    intro code byte hat
    have hx : 'x' ∈ (byteText byte).toList := by simp [byteText]
    cases (isName_mnemonics _ (List.mem_of_getElem? hat)).2 'x' hx
  have hbyte : op.byte = op'.byte := by
    rcases opcode_cases op with hat | he <;> rcases opcode_cases op' with hat' | he'
    · rw [← h] at hat'
      exact UInt8.toNat_inj.mp (place_of_name nodup_mnemonics hat hat')
    · rw [h, he'] at hat
      exact absurd hat hmixed
    · rw [← h, he] at hat'
      exact absurd hat' hmixed
    · exact byteText_inj (he.symm.trans (h.trans he'))
  exact congrArg Opcode.mk hbyte

theorem word_handleKind (kind : HandleKind) : Word kind.label := by
  cases kind <;> exact word_ofList _ rfl

theorem handleKind_inj {kind kind' : HandleKind} (h : kind.label = kind'.label) : kind = kind' := by
  cases kind <;> cases kind' <;> first | rfl | exact absurd h (by decide)

def handleFields (value : Handle) : List String :=
  ["kind: HandleKind::" ++ value.kind.label,
   "owner: " ++ owned value.member.owner,
   "name: " ++ owned value.member.name,
   "descriptor: " ++ owned value.member.descriptor,
   "is_interface: " ++ flag value.onInterface]

theorem handle_eq (value : Handle) :
    handle value = "Handle \x7b " ++ listed (handleFields value) ++ " \x7d" := by
  rw [handle, braced, handleFields, ← String.append_assoc, ← String.append_assoc]
  rfl

theorem word_handleFields (value : Handle) : ∀ a ∈ handleFields value, Word a := by
  simp only [handleFields, List.forall_mem_cons]
  exact ⟨(word_ofList _ rfl).append (word_handleKind _), (word_ofList _ rfl).append (word_owned _),
    (word_ofList _ rfl).append (word_owned _), (word_ofList _ rfl).append (word_owned _),
    (word_ofList _ rfl).append (word_flag _), nofun⟩

theorem word_handle (value : Handle) : Word (handle value) := by
  rw [handle_eq]
  exact (phrase_intercalate (word_handleFields value)).bracketed (fun _ => rfl) fun _ => rfl

@[simp] theorem handle_inj {value other : Handle} : handle value = handle other ↔
    value = other := by
  refine ⟨fun h => ?_, congrArg handle⟩
  rw [handle_eq, handle_eq] at h
  have hfields := bracketed_inj (word_handleFields value) (word_handleFields other) h
  obtain ⟨kind, ⟨owner, name, descriptor⟩, onInterface⟩ := value
  obtain ⟨kind', ⟨owner', name', descriptor'⟩, onInterface'⟩ := other
  simp only [handleFields, List.cons.injEq, String.append_right_inj, owned_inj, flag_inj,
    and_true] at hfields
  obtain ⟨hkind, rfl, rfl, rfl, rfl⟩ := hfields
  rw [handleKind_inj hkind]

def literalNames : List String :=
  ["ConstantValue::Integer", "ConstantValue::Float", "ConstantValue::Long",
   "ConstantValue::Double", "ConstantValue::String", "ConstantValue::Class",
   "ConstantValue::MethodType", "ConstantValue::MethodHandle"]

def literalArgument : Literal → String
  | .int value => integer value.toInt
  | .float bits => floating .single "f32" bits.toNat
  | .long value => integer value.toInt
  | .double bits => floating .double "f64" bits.toNat
  | .string text | .classRef text | .methodType text => owned text
  | .handle value => handle value

theorem literal_eq (value : Literal) : ∃ name, literalNames[value.ctorIdx]? = some name ∧
    Simple name ∧ literal value = call name [literalArgument value] := by
  cases value <;> exact ⟨_, rfl, simple_ofList _ rfl, rfl⟩

theorem word_literalArgument {value : Literal} (h : value.isFloating = false) :
    Word (literalArgument value) := by
  cases value with
  | int | long => exact word_integer _
  | string | classRef | methodType => exact word_owned _
  | handle => exact word_handle _
  | float | double => cases h

theorem word_literal {value : Literal} (h : value.isFloating = false) : Word (literal value) := by
  obtain ⟨name, -, hs, he⟩ := literal_eq value
  rw [he]
  exact word_call hs (by simpa using word_literalArgument h)

theorem literal_inj {value other : Literal} (h : value.isFloating = false)
    (h' : other.isFloating = false) (he : literal value = literal other) : value = other := by
  obtain ⟨name, hat, hs, hcall⟩ := literal_eq value
  obtain ⟨name', hat', hs', hcall'⟩ := literal_eq other
  rw [hcall, hcall'] at he
  obtain ⟨rfl, hargument⟩ := call_inj hs hs' (by simpa using word_literalArgument h)
    (by simpa using word_literalArgument h') he
  have hkind := place_of_name (by decide) hat hat'
  have hargument := (List.cons.inj hargument).1
  cases value <;> cases other <;> cases hkind
  case int.int => exact congrArg Literal.int (Int32.toInt_inj.mp (integer_inj.mp hargument))
  case long.long => exact congrArg Literal.long (Int64.toInt_inj.mp (integer_inj.mp hargument))
  case handle.handle => exact congrArg Literal.handle (handle_inj.mp hargument)
  case string.string => exact congrArg Literal.string (owned_inj.mp hargument)
  case classRef.classRef => exact congrArg Literal.classRef (owned_inj.mp hargument)
  case methodType.methodType => exact congrArg Literal.methodType (owned_inj.mp hargument)
  case float.float => cases h
  case double.double => cases h

def typeArguments (names : LabelNames) : VerificationType String Label → String
  | .object name => "(" ++ listed [owned name] ++ ")"
  | .uninitialized creation => "(" ++ listed [label names creation] ++ ")"
  | _ => ""

def typeNames : List String :=
  ["VerificationType::Top", "VerificationType::Integer", "VerificationType::Float",
   "VerificationType::Double", "VerificationType::Long", "VerificationType::Null",
   "VerificationType::UninitializedThis", "VerificationType::Object",
   "VerificationType::Uninitialized"]

theorem frameType_eq (names : LabelNames) (type : VerificationType String Label) :
    ∃ name, typeNames[type.ctorIdx]? = some name ∧ Simple name ∧ name ≠ "" ∧
      frameType names type = name ++ typeArguments names type := by
  cases type with
  | object | uninitialized =>
    exact ⟨_, rfl, simple_ofList _ rfl, by decide, call_eq _ _⟩
  | _ => exact ⟨_, rfl, simple_ofList _ rfl, by decide, rfl⟩

theorem word_frameType (type : VerificationType String Label) : Word (frameType ∅ type) := by
  obtain ⟨name, -, hs, hne, he⟩ := frameType_eq ∅ type
  have hword := hs.word hne
  rw [he]
  cases type with
  | object name =>
    exact hword.append ((word_owned name).phrase.bracketed (fun _ => rfl) fun _ => rfl)
  | uninitialized creation =>
    exact hword.append ((word_label creation).phrase.bracketed (fun _ => rfl) fun _ => rfl)
  | _ =>
    rw [typeArguments, String.append_empty]
    · exact hword
    all_goals nofun

theorem halts_typeArguments (names : LabelNames) (type : VerificationType String Label) :
    Halts (upTo '(') () (typeArguments names type).toList := by
  cases type with
  | object | uninitialized => exact halts_arguments _
  | _ => exact halts_empty

@[simp] theorem frameType_inj {type other : VerificationType String Label} :
    frameType ∅ type = frameType ∅ other ↔ type = other := by
  refine ⟨fun h => ?_, congrArg (frameType ∅)⟩
  obtain ⟨name, hat, hs, -, he⟩ := frameType_eq ∅ type
  obtain ⟨name', hat', hs', -, he'⟩ := frameType_eq ∅ other
  rw [he, he'] at h
  obtain ⟨rfl, harguments⟩ :=
    name_inj hs hs' (halts_typeArguments ∅ type) (halts_typeArguments ∅ other) h
  have hkind := place_of_name (by decide) hat hat'
  cases type <;> cases other <;> cases hkind
  case object.object name name' =>
    have hitems := bracketed_inj (by simpa using word_owned name) (by simpa using word_owned name')
      harguments
    rw [owned_inj.mp (List.cons.inj hitems).1]
  case uninitialized.uninitialized creation creation' =>
    have hitems := bracketed_inj (by simpa using word_label creation)
      (by simpa using word_label creation') harguments
    rw [label_inj.mp (List.cons.inj hitems).1]
  all_goals rfl

/-- A list of words in brackets. -/
theorem word_list {α : Type} {opening closing : String} {write : α → String}
    (ho : Opens opening) (hc : Closes closing) {l : List α} (h : ∀ a ∈ l, Word (write a)) :
    Word (opening ++ listed (l.map write) ++ closing) :=
  (phrase_intercalate (List.forall_mem_map.mpr h)).bracketed ho hc

theorem list_inj {α : Type} {opening closing : String} {write : α → String} {l l' : List α}
    (h : ∀ a ∈ l, Word (write a)) (h' : ∀ a ∈ l', Word (write a))
    (hw : ∀ a ∈ l, ∀ b ∈ l', write a = write b → a = b)
    (he : opening ++ listed (l.map write) ++ closing =
      opening ++ listed (l'.map write) ++ closing) : l = l' :=
  map_inj_of_forall hw
    (bracketed_inj (List.forall_mem_map.mpr h) (List.forall_mem_map.mpr h') he)

theorem word_frameTypes (types : List (VerificationType String Label)) :
    Word (frameTypes ∅ types) :=
  word_list (fun _ => rfl) (fun _ => rfl) fun type _ => word_frameType type

@[simp] theorem frameTypes_inj {types others : List (VerificationType String Label)} :
    frameTypes ∅ types = frameTypes ∅ others ↔ types = others :=
  ⟨list_inj (fun type _ => word_frameType type) (fun type _ => word_frameType type)
    (fun _ _ _ _ => frameType_inj.mp), congrArg (frameTypes ∅)⟩

/-- Names of the calls for the elements of code, in the order of their kinds. -/
def callNames : List String :=
  ["insn", "int_insn", "var_insn", "type_insn", "field_insn", "method_insn", "invoke_dynamic",
   "jump", "place", "ldc", "iinc", "table_switch", "lookup_switch", "multi_anew_array",
   "line_number", "frame"]

def switchCase (names : LabelNames) (entry : Int32 × Label) : String :=
  call "" [integer entry.1.toInt, label names entry.2]

def callArguments (names : LabelNames) : Instruction Label → List String
  | .plain op => [opcode op]
  | .int op operand => [opcode op, integer operand.toInt]
  | .var op slot => [opcode op, integer slot.toNat]
  | .type op name => [opcode op, quoted name]
  | .field op member =>
    [opcode op, quoted member.owner, quoted member.name, quoted member.descriptor]
  | .invoke op member onInterface =>
    [opcode op, quoted member.owner, quoted member.name, quoted member.descriptor,
      flag onInterface]
  | .invokeDynamic name descriptor bootstrap arguments =>
    [quoted name, quoted descriptor, handle bootstrap,
      "vec![" ++ listed (arguments.map literal) ++ "]"]
  | .jump op target => [opcode op, label names target]
  | .label placed => [label names placed]
  | .load value => [literal value]
  | .increment slot amount => [integer slot.toNat, integer amount.toInt]
  | .tableSwitch low high default targets =>
    [integer low.toInt, integer high.toInt, label names default, slice (targets.map (label names))]
  | .lookupSwitch default cases => [label names default, slice (cases.map (switchCase names))]
  | .multiArray descriptor dimensions => [quoted descriptor, integer dimensions.toNat]
  | .line number start => [integer number.toNat, label names start]
  | .frame locals stack => [frameTypes names locals, frameTypes names stack]

theorem instruction_eq (names : LabelNames) (insn : Instruction Label) :
    ∃ name, callNames[insn.ctorIdx]? = some name ∧ Simple name ∧
      instruction names insn = call name (callArguments names insn) := by
  cases insn <;> exact ⟨_, rfl, simple_ofList _ rfl, rfl⟩

theorem word_switchCase (entry : Int32 × Label) : Word (switchCase ∅ entry) :=
  word_call (simple_ofList [] rfl) (by simp [word_integer, word_label])

theorem switchCase_inj {entry other : Int32 × Label} (h : switchCase ∅ entry = switchCase ∅ other) :
    entry = other := by
  have hitems := bracketed_inj (by simp [word_integer, word_label])
    (by simp [word_integer, word_label]) h
  simp only [List.cons.injEq, integer_inj, label_inj, and_true] at hitems
  exact Prod.ext (Int32.toInt_inj.mp hitems.1) hitems.2

def Exact (insn : Instruction Label) : Prop :=
  ∀ value ∈ insn.literals, value.isFloating = false

theorem word_callArguments {insn : Instruction Label} (h : Exact insn) :
    ∀ a ∈ callArguments ∅ insn, Word a := by
  have hliteral := fun value hm => word_literal (h value hm)
  cases insn with
  | load value => simpa [callArguments] using hliteral value List.mem_cons_self
  | invokeDynamic name descriptor bootstrap arguments =>
    have hlist : Word ("vec![" ++ listed (arguments.map literal) ++ "]") :=
      word_list (fun _ => rfl) (fun _ => rfl) hliteral
    simp [callArguments, word_quoted, word_handle, hlist]
  | tableSwitch low high default targets =>
    have hlist : Word (slice (targets.map (label ∅))) :=
      word_list (fun _ => rfl) (fun _ => rfl) fun target _ => word_label target
    simp [callArguments, word_integer, word_label, hlist]
  | lookupSwitch default cases =>
    have hlist : Word (slice (cases.map (switchCase ∅))) :=
      word_list (fun _ => rfl) (fun _ => rfl) fun entry _ => word_switchCase entry
    simp [callArguments, word_label, hlist]
  | _ =>
    simp [callArguments, word_opcode, word_integer, word_quoted, word_label, word_flag,
      word_frameTypes]

theorem word_instruction {insn : Instruction Label} (h : Exact insn) :
    Word (instruction ∅ insn) := by
  obtain ⟨name, -, hs, he⟩ := instruction_eq ∅ insn
  rw [he]
  exact word_call hs (word_callArguments h)

theorem member_eq {member other : Member} (howner : member.owner = other.owner)
    (hname : member.name = other.name) (hdescriptor : member.descriptor = other.descriptor) :
    member = other := by
  cases member
  cases other
  cases howner
  cases hname
  cases hdescriptor
  rfl

theorem callArguments_inj {insn other : Instruction Label} (h : Exact insn) (h' : Exact other)
    (hkind : insn.ctorIdx = other.ctorIdx)
    (he : callArguments ∅ insn = callArguments ∅ other) : insn = other := by
  cases insn <;> cases other <;> cases hkind <;>
    simp only [callArguments, List.cons.injEq, opcode_inj, integer_inj, quoted_inj, label_inj,
      flag_inj, handle_inj, frameTypes_inj, Int32.toInt_inj, Int16.toInt_inj, UInt16.toNat_inj,
      UInt8.toNat_inj, Int.natCast_inj, and_true] at he
  case field.field =>
    obtain ⟨rfl, howner, hname, hdescriptor⟩ := he
    rw [member_eq howner hname hdescriptor]
  case invoke.invoke =>
    obtain ⟨rfl, howner, hname, hdescriptor, rfl⟩ := he
    rw [member_eq howner hname hdescriptor]
  case load.load value value' =>
    rw [literal_inj (h value List.mem_cons_self) (h' value' List.mem_cons_self) he]
  case invokeDynamic.invokeDynamic arguments _ _ _ arguments' =>
    obtain ⟨rfl, rfl, rfl, hlist⟩ := he
    have hsame : arguments = arguments' :=
      list_inj (fun value hm => word_literal (h value hm))
        (fun value hm => word_literal (h' value hm))
        (fun value hm value' hm' => literal_inj (h value hm) (h' value' hm')) hlist
    rw [hsame]
  case tableSwitch.tableSwitch =>
    obtain ⟨rfl, rfl, rfl, hlist⟩ := he
    rw [list_inj (fun target _ => word_label target) (fun target _ => word_label target)
      (fun _ _ _ _ => label_inj.mp) hlist]
  case lookupSwitch.lookupSwitch =>
    obtain ⟨rfl, hlist⟩ := he
    rw [list_inj (fun entry _ => word_switchCase entry) (fun entry _ => word_switchCase entry)
      (fun _ _ _ _ => switchCase_inj) hlist]
  all_goals simp only [he]

/-- Different elements of code have different calls. -/
theorem instruction_inj {insn other : Instruction Label} (h : Exact insn) (h' : Exact other)
    (he : instruction ∅ insn = instruction ∅ other) : insn = other := by
  obtain ⟨name, hat, hs, hcall⟩ := instruction_eq ∅ insn
  obtain ⟨name', hat', hs', hcall'⟩ := instruction_eq ∅ other
  rw [hcall, hcall'] at he
  obtain ⟨rfl, harguments⟩ := call_inj hs hs' (word_callArguments h) (word_callArguments h') he
  exact callArguments_inj h h' (place_of_name (by decide) hat hat') harguments

theorem word_handler (entry : TryCatch) : Word (handler ∅ entry) :=
  word_call (simple_ofList _ rfl) (by simp [word_label, word_optional])

theorem handler_inj {entry other : TryCatch} (h : handler ∅ entry = handler ∅ other) :
    entry = other := by
  have hitems := bracketed_inj (by simp [word_label, word_optional])
    (by simp [word_label, word_optional]) h
  simp only [List.cons.injEq, label_inj, optional_inj, and_true] at hitems
  cases entry
  cases other
  simpa using hitems

theorem word_localVariable (entry : LocalVariable) : Word (localVariable ∅ entry) :=
  word_call (simple_ofList _ rfl) (by simp [word_label, word_optional, word_quoted, word_integer])

theorem localVariable_inj {entry other : LocalVariable}
    (h : localVariable ∅ entry = localVariable ∅ other) : entry = other := by
  have hitems := bracketed_inj (by simp [word_label, word_optional, word_quoted, word_integer])
    (by simp [word_label, word_optional, word_quoted, word_integer]) h
  simp only [List.cons.injEq, label_inj, optional_inj, quoted_inj, integer_inj, UInt16.toNat_inj,
    Int.natCast_inj, and_true] at hitems
  cases entry
  cases other
  simpa using hitems

theorem word_info (info : Bytes) : Word ("&" ++ bytes info) := by
  have hlist : Word ("[" ++ listed (info.map byteText) ++ "]") :=
    word_list (fun _ => rfl) (fun _ => rfl) fun byte _ => word_byteText byte
  exact (word_ofList ['&'] rfl).append hlist

theorem bytes_inj {info other : Bytes} (h : bytes info = bytes other) : info = other := by
  have hlists : "[" ++ listed (info.map byteText) ++ "]" =
      "[" ++ listed (other.map byteText) ++ "]" := h
  exact list_inj (fun byte _ => word_byteText byte) (fun byte _ => word_byteText byte)
    (fun _ _ _ _ => byteText_inj) hlists

theorem word_rawAttribute (entry : RawAttribute) : Word (rawAttribute entry) :=
  word_call (simple_ofList _ rfl) (by simp [word_quoted, word_info])

theorem rawAttribute_inj {entry other : RawAttribute}
    (h : rawAttribute entry = rawAttribute other) :
    entry = other := by
  have hitems :=
    bracketed_inj (by simp [word_quoted, word_info]) (by simp [word_quoted, word_info]) h
  simp only [List.cons.injEq, quoted_inj, String.append_right_inj, and_true] at hitems
  cases entry
  cases other
  rw [RawAttribute.mk.injEq]
  exact ⟨hitems.1, bytes_inj hitems.2⟩

end Transcript
end ClassTree
