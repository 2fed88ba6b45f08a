import ClassTree.Decimal.Notation
import ClassTree.Numbering
import ClassTree.Reading
import ClassTree.Text.Quoted

namespace ClassTree.Transcript

open Text

def braced (text : String) : String :=
  "\x7b " ++ text ++ " \x7d"

def listed (items : List String) : String :=
  ", ".intercalate items

def call (name : String) (arguments : List String) : String :=
  name ++ "(" ++ listed arguments ++ ")"

def owned (text : String) : String :=
  call "String::from" [quoted text]

def optional : Option String → String
  | some text => call "Some" [quoted text]
  | none => "None"

def flags (typeName : String) (access : AccessFlags target) : String :=
  match access.names with
  | [] => typeName ++ "::empty()"
  | names => " | ".intercalate (names.map (typeName ++ "::" ++ ·))

def bytes (info : Bytes) : String :=
  "[" ++ listed (info.map fun byte => "0x" ++ hex 2 byte.toNat) ++ "]"

def opcode (op : Opcode) : String :=
  op.mnemonic?.getD ("0x" ++ hex 2 op.byte.toNat)

def flag (value : Bool) : String :=
  if value then "true" else "false"

def integer (value : Int) : String :=
  toString value

def handle (value : Handle) : String :=
  "Handle " ++ braced (listed
    ["kind: HandleKind::" ++ value.kind.label,
     "owner: " ++ owned value.member.owner,
     "name: " ++ owned value.member.name,
     "descriptor: " ++ owned value.member.descriptor,
     "is_interface: " ++ flag value.onInterface])

/-- Number of a floating-point format; what is no number is given by its bits. -/
def floating (format : Decimal.BinaryFormat) (typeName : String) (bits : Nat) : String :=
  if format.isFinite bits then format.text bits
  else typeName ++ "::from_bits(0x" ++ hex 1 bits ++ ")"

def literal : Literal → String
  | .int value => call "ConstantValue::Integer" [integer value.toInt]
  | .float bits => call "ConstantValue::Float" [floating .single "f32" bits.toNat]
  | .long value => call "ConstantValue::Long" [integer value.toInt]
  | .double bits => call "ConstantValue::Double" [floating .double "f64" bits.toNat]
  | .string value => call "ConstantValue::String" [owned value]
  | .classRef name => call "ConstantValue::Class" [owned name]
  | .methodType descriptor => call "ConstantValue::MethodType" [owned descriptor]
  | .handle value => call "ConstantValue::MethodHandle" [handle value]

abbrev LabelNames := Numbering Label

def label (names : LabelNames) (label : Label) : String :=
  s!"l{names.getD label label.index}"

def frameType (names : LabelNames) : VerificationType String Label → String
  | .object name => call "VerificationType::Object" [owned name]
  | .uninitialized creation => call "VerificationType::Uninitialized" [label names creation]
  | other => "VerificationType::" ++ other.kindName

def frameTypes (names : LabelNames) (types : List (VerificationType String Label)) : String :=
  "vec![" ++ listed (types.map (frameType names)) ++ "]"

def slice (items : List String) : String :=
  "&[" ++ listed items ++ "]"

def instruction (names : LabelNames) : Instruction Label → String
  | .plain op => call "insn" [opcode op]
  | .int op operand => call "int_insn" [opcode op, integer operand.toInt]
  | .var op slot => call "var_insn" [opcode op, integer slot.toNat]
  | .type op name => call "type_insn" [opcode op, quoted name]
  | .field op member =>
    call "field_insn" [opcode op, quoted member.owner, quoted member.name, quoted member.descriptor]
  | .invoke op member onInterface =>
    call "method_insn" [opcode op, quoted member.owner, quoted member.name,
      quoted member.descriptor, flag onInterface]
  | .invokeDynamic name descriptor bootstrap arguments =>
    call "invoke_dynamic" [quoted name, quoted descriptor, handle bootstrap,
      "vec![" ++ listed (arguments.map literal) ++ "]"]
  | .jump op target => call "jump" [opcode op, label names target]
  | .label placed => call "place" [label names placed]
  | .load value => call "ldc" [literal value]
  | .increment slot amount => call "iinc" [integer slot.toNat, integer amount.toInt]
  | .tableSwitch low high default targets =>
    call "table_switch" [integer low.toInt, integer high.toInt, label names default,
      slice (targets.map (label names))]
  | .lookupSwitch default cases =>
    call "lookup_switch" [label names default,
      slice (cases.map fun entry => call "" [integer entry.1.toInt, label names entry.2])]
  | .multiArray descriptor dimensions =>
    call "multi_anew_array" [quoted descriptor, integer dimensions.toNat]
  | .line number start => call "line_number" [integer number.toNat, label names start]
  | .frame locals stack => call "frame" [frameTypes names locals, frameTypes names stack]

def statement (object call : String) : String :=
  object ++ "." ++ call ++ ";"

def rawAttribute (entry : RawAttribute) : String :=
  call "attribute" [quoted entry.name, "&" ++ bytes entry.info]

def handler (names : LabelNames) (entry : TryCatch) : String :=
  call "try_catch" [label names entry.start, label names entry.stop, label names entry.handler,
    optional entry.catchType]

def localVariable (names : LabelNames) (entry : LocalVariable) : String :=
  call "local_variable" [quoted entry.name, quoted entry.descriptor, optional entry.signature,
    label names entry.start, label names entry.stop, integer entry.slot.toNat]

def maxima (method : Method) : List String :=
  if method.maxStack = 0 ∧ method.maxLocals = 0 then []
  else [call "maxs" [integer method.maxStack.toNat, integer method.maxLocals.toNat]]

def shownCode (debug : Bool) (method : Method) : List (Instruction Label) :=
  method.body.code.filter fun insn => debug || !insn.isLine

def shownVariables (debug : Bool) (method : Method) : List LocalVariable :=
  if debug then method.variableList else []

def labelNames (debug : Bool) (method : Method) : LabelNames :=
  .ofList ((shownCode debug method).flatMap Instruction.mentions ++
    method.handlers.flatMap TryCatch.mentions ++
    (shownVariables debug method).flatMap LocalVariable.mentions)

def methodLines (debug : Bool) (method : Method) : List String :=
  let names := labelNames debug method
  ["let mut method = " ++ call "MethodBuilder::new"
    [flags "MethodAccessFlags" method.access, quoted method.name, quoted method.descriptor] ++ ";"]
    ++ method.signature.toList.map (fun text => statement "method" (call "signature" [quoted text]))
    ++ method.exceptions.map (fun name => statement "method" (call "exception" [quoted name]))
    ++ (List.range names.size).map (fun index => s!"let l{index} = method.label();")
    ++ (shownCode debug method).map (statement "method" <| instruction names ·)
    ++ method.handlers.map (statement "method" <| handler names ·)
    ++ (shownVariables debug method).map (statement "method" <| localVariable names ·)
    ++ (maxima method).map (statement "method")
    ++ method.attributes.map (statement "method" <| rawAttribute ·)

def fieldAttribute (entry : RawAttribute) : String :=
  "field.attributes.push(RawAttribute " ++
    braced ("name: " ++ owned entry.name ++ ", info: vec!" ++ bytes entry.info) ++ ");"

def fieldLines (field : Field) : List String :=
  ["let mut field = " ++ call "FieldNode::new"
    [flags "FieldAccessFlags" field.access, quoted field.name, quoted field.descriptor] ++ ";"]
    ++ field.signature.toList.map (fun text => "field.signature = Some(" ++ owned text ++ ");")
    ++ field.value.toList.map (fun value => "field.value = Some(" ++ literal value ++ ");")
    ++ field.attributes.map fieldAttribute
    ++ ["class.field(field);"]

def innerClass (entry : InnerClass) : String :=
  call "inner_class" [quoted entry.name, optional entry.outerName, optional entry.innerName,
    flags "InnerClassAccessFlags" entry.access]

def block (lines : List String) : List String :=
  ["\x7b"] ++ lines.map ("    " ++ ·) ++ ["\x7d"]

def version (version : Version) : String :=
  "Version " ++ braced s!"major_version: {version.major}, minor_version: {version.minor}"

def classLines (debug : Bool) (tree : Class) : List String :=
  ["let mut class = " ++ call "ClassBuilder::new"
    [version tree.version, flags "ClassAccessFlags" tree.access, quoted tree.name,
     optional tree.superName] ++ ";"]
    ++ tree.interfaces.map (fun name => statement "class" (call "interface" [quoted name]))
    ++ tree.signature.toList.map (fun text => statement "class" (call "signature" [quoted text]))
    ++ tree.sourceFile.toList.map (fun text => statement "class" (call "source_file" [quoted text]))
    ++ tree.innerClasses.map (statement "class" <| innerClass ·)
    ++ tree.attributes.map (statement "class" <| rawAttribute ·)
    ++ tree.fields.flatMap (fun field => block (fieldLines field))
    ++ tree.methods.flatMap (fun method =>
      block (methodLines debug method ++ ["class.method(method.build());"]))
    ++ ["let class = class.build();"]

def unlines (lines : List String) : String :=
  String.join (lines.map (· ++ "\n"))

/-- Transcript of a class. Without `debug`, lines and variables are left out. -/
def ofClass (debug : Bool) (tree : Class) : String :=
  unlines (classLines debug tree)

def ofMethod (debug : Bool) (method : Method) : String :=
  unlines (methodLines debug method ++ ["let method = method.build();"])

/-- Transcript of a class file. Without `debug`, what is only there for debugging is not read. -/
def ofBytes (debug : Bool) (bytes : Bytes) : Except Error String := do
  return ofClass debug (← Class.read ⟨!debug, false⟩ bytes)

end ClassTree.Transcript
