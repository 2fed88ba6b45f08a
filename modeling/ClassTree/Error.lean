import ClassTree.Descriptor.Parser
import ClassTree.Instruction
import ClassTree.Text.Hexadecimal

namespace ClassTree

inductive Malformed where
  | unexpectedEnd (offset : Nat)
  | badMagic (magic : UInt32)
  | badConstantTag (index : UInt16) (tag : UInt8)
  /-- The index is out of range or in the middle of a wide constant. -/
  | badConstantIndex (index : UInt16) (expected : String)
  | wrongConstantKind (index : UInt16) (expected found : String)
  | badModifiedUtf8 (index : UInt16)
  | badOpcode (opcode : UInt8) (offset : Nat)
  /-- The offset is not the start of an instruction. -/
  | badBytecodeOffset (offset : Nat)
  | badDescriptor (descriptor : String)
  | badAttribute (name detail : String)
  | trailingBytes (offset : Nat)
deriving DecidableEq

namespace Malformed

def message : Malformed → String
  | unexpectedEnd offset => s!"unexpected end of input at offset {offset}"
  | badMagic magic => s!"bad magic number 0x{Text.hexUpper 8 magic.toNat}"
  | badConstantTag index tag => s!"constant #{index} has unknown tag {tag}"
  | badConstantIndex index expected => s!"constant #{index} is not a valid {expected}"
  | wrongConstantKind index expected found =>
    s!"constant #{index} is a {found} instead of a {expected}"
  | badModifiedUtf8 index => s!"constant #{index} is not valid modified UTF-8"
  | badOpcode opcode offset =>
    s!"unknown opcode 0x{Text.hexUpper 2 opcode.toNat} at offset {offset}"
  | badBytecodeOffset offset => s!"bytecode offset {offset} is not an instruction boundary"
  | badDescriptor descriptor => s!"bad descriptor '{descriptor}'"
  | badAttribute name detail => s!"bad '{name}' attribute: {detail}"
  | trailingBytes offset => s!"trailing bytes starting at offset {offset}"

end Malformed

inductive FlowFault where
  | emptyBody
  | stackUnderflow
  | halfValue
  | splitValue
  | unexpectedType (expected found : VerificationType String Nat)
  | notAReference (found : VerificationType String Nat)
  | undefinedLocal (slot : UInt16)
  | wrongLocal (slot : UInt16) (found : VerificationType String Nat)
  | incrementedNonInt (slot : UInt16)
  | unplacedLabel (label : Label)
  | fallsOffEnd
  /-- A position or a handler names an index that the code does not have. -/
  | outsideCode (index : Nat)
  | heightMismatch (incoming existing : Int)
  | unmergeable (existing incoming : VerificationType String Nat)
  | badArrayCode (code : Int32)
  | badDescriptor (descriptor : String) (fault : DescriptorFault)
  | unsupportedRet
  | unsupportedJsr
  | badVarOpcode (op : Opcode)
  | badTypeOpcode (op : Opcode)
  | badOpcode (op : Opcode)
  | missingNew
  | alreadyInitialized (found : VerificationType String Nat)
  | loadFromNonArray (type : String)
  | loadFrom (found : VerificationType String Nat)
deriving DecidableEq

namespace FlowFault

def message : FlowFault → String
  | emptyBody => "method body is empty"
  | stackUnderflow => "stack underflow"
  | halfValue => "stack contains a half of a long or double"
  | splitValue => "operation splits a long or double on the stack"
  | unexpectedType expected found =>
    s!"expected {expected.render} on the stack but found {found.render}"
  | notAReference found => s!"expected a reference on the stack but found {found.render}"
  | undefinedLocal slot => s!"local {slot} is not defined"
  | wrongLocal slot found => s!"local {slot} has type {found.render}"
  | incrementedNonInt slot => s!"local {slot} incremented but is not an int"
  | unplacedLabel label => s!"label {label.render} is never placed"
  | fallsOffEnd => "execution falls off the end of the code"
  | outsideCode index => s!"there is no instruction {index}"
  | heightMismatch incoming existing =>
    s!"stack height {incoming} does not match height {existing} on another path"
  | unmergeable existing incoming =>
    s!"stack types {existing.render} and {incoming.render} cannot be merged"
  | badArrayCode code => s!"bad array type code {code}"
  | badDescriptor descriptor fault => s!"bad descriptor '{descriptor}': {fault.message}"
  | unsupportedRet => "`ret` cannot be described by stack map frames"
  | unsupportedJsr => "`jsr` cannot be described by stack map frames"
  | badVarOpcode op => s!"unexpected local variable opcode {op.byte}"
  | badTypeOpcode op => s!"unexpected type opcode {op.byte}"
  | badOpcode op =>
    "unexpected opcode " ++ op.mnemonic?.getD "<unknown>"
  | missingNew => "uninitialized value without a `new`"
  | alreadyInitialized found => s!"constructor called on initialized {found.render}"
  | loadFromNonArray type => s!"`aaload` from non-reference array {type}"
  | loadFrom found => s!"`aaload` from {found.render}"

end FlowFault

inductive Inconsistency where
  | unresolvedLabel (method : String) (label : Label)
  | duplicateLabel (method : String) (label : Label)
  | badDescriptor (descriptor : String)
  | codeTooLarge (method : String) (length : Nat)
  | constantPoolOverflow
  /-- A conditional jump is too far, and the frames after widening it would be unknown. -/
  | jumpOutOfRange (method : String)
  | recursiveSubroutine (method : String)
  | retOutsideSubroutine (method : String)
  | verification (method : String) (index : Nat) (fault : FlowFault)
  /-- The types of a method kept changing for longer than they can. -/
  | unsettledTypes (method : String)
deriving DecidableEq

namespace Inconsistency

def message : Inconsistency → String
  | unresolvedLabel method label => s!"{method}: label {label.render} is never placed"
  | duplicateLabel method label => s!"{method}: label {label.render} is placed twice"
  | badDescriptor descriptor => s!"bad descriptor '{descriptor}'"
  | codeTooLarge method length => s!"{method}: code length {length} exceeds 65535 bytes"
  | constantPoolOverflow => "constant pool overflow"
  | jumpOutOfRange method =>
    s!"{method}: conditional jump out of range (requires computed frames)"
  | recursiveSubroutine method => s!"{method}: recursive subroutine"
  | retOutsideSubroutine method => s!"{method}: `ret` outside of a subroutine"
  | verification method index fault => s!"{method}: instruction {index}: {fault.message}"
  | unsettledTypes method => s!"{method}: types do not settle"

end Inconsistency

inductive Error where
  | malformed (cause : Malformed)
  | inconsistent (cause : Inconsistency)
  /-- Recognized, but not handled. -/
  | unsupported (feature : String)
  | classNotFound (path : String)
deriving DecidableEq

namespace Error

def message : Error → String
  | malformed cause => s!"malformed class file: {cause.message}"
  | inconsistent cause => s!"inconsistent class: {cause.message}"
  | unsupported feature => s!"unsupported feature: {feature}"
  | classNotFound path => s!"class not found: {path}"

end Error
end ClassTree
