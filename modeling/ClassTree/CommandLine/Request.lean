import ClassTree.Treatment

namespace ClassTree.CommandLine

inductive UsageFault where
  | unknownOption (text : String)
  | repeatedOption (name : String)
  | missingValue (name : String)
  | unexpectedValue (name : String)
  | emptyArgument
  | extraArgument (text : String)
  | missingInput
  | requires (name required : String)
deriving DecidableEq

namespace UsageFault

def message : UsageFault → String
  | unknownOption text => s!"unexpected argument '{text}'"
  | repeatedOption name => s!"option '{name}' is given twice"
  | missingValue name => s!"option '{name}' needs a value"
  | unexpectedValue name => s!"option '{name}' takes no value"
  | emptyArgument => "an argument is empty"
  | extraArgument text => s!"unexpected argument '{text}'"
  | missingInput => "the class file to read is missing"
  | requires name required => s!"option '{name}' needs '{required}'"

end UsageFault

inductive Switch where
  | transcript
  | noDebug
  | parameters
  | stripLines
  | inlineSubroutines
deriving DecidableEq

namespace Switch

def name : Switch → String
  | transcript => "--transcript"
  | noDebug => "--no-debug"
  | parameters => "--parameters"
  | stripLines => "--strip-lines"
  | inlineSubroutines => "--inline-subroutines"

def all : List Switch :=
  [transcript, noDebug, parameters, stripLines, inlineSubroutines]

def ofName? (text : String) : Option Switch :=
  all.find? fun option => option.name == text

end Switch

inductive Setting where
  /-- File to write the class to. -/
  | output
  /-- Directory of class files. -/
  | classpath
deriving DecidableEq

namespace Setting

def name : Setting → String
  | output => "--rewrite"
  | classpath => "--classpath"

def ofName? (text : String) : Option Setting :=
  [output, classpath].find? fun option => option.name == text

end Setting

structure Arguments where
  switches : List Switch
  output : Option String
  /-- Directories of class files, in reverse. -/
  classpath : List String
  input : Option String

namespace Arguments

def none : Arguments :=
  ⟨[], .none, [], .none⟩

def has (arguments : Arguments) (option : Switch) : Bool :=
  arguments.switches.contains option

def addSwitch (arguments : Arguments) (option : Switch) : Except UsageFault Arguments :=
  if arguments.has option then .error (.repeatedOption option.name)
  else .ok { arguments with switches := option :: arguments.switches }

def addSetting (arguments : Arguments) (option : Setting) (value : String) :
    Except UsageFault Arguments :=
  if value.isEmpty then .error (.missingValue option.name)
  else match option with
    | .classpath => .ok { arguments with classpath := value :: arguments.classpath }
    | .output =>
      if arguments.output.isSome then .error (.repeatedOption option.name)
      else .ok { arguments with output := some value }

def addInput (arguments : Arguments) (text : String) : Except UsageFault Arguments :=
  if text.isEmpty then .error .emptyArgument
  else if arguments.input.isSome then .error (.extraArgument text)
  else .ok { arguments with input := some text }

end Arguments

/-- Whether an argument is an option, be it a known one or not. A lone hyphen is none. -/
def isOption (text : String) : Bool :=
  text.startsWith "-" && text != "-"

/-- An option that is written with an equals sign: its name, and what follows the sign. -/
def splitOption (text : String) : Option (String × String) :=
  let chars := text.toList
  match chars.dropWhile (· != '=') with
  | [] => none
  | _ :: value => some (String.ofList (chars.takeWhile (· != '=')), String.ofList value)

def addAttached (found : Arguments) (name value : String) : Except UsageFault Arguments :=
  match Setting.ofName? name with
  | some option => found.addSetting option value
  | none =>
    if (Switch.ofName? name).isSome then .error (.unexpectedValue name)
    else .error (.unknownOption name)

def addOption (found : Arguments) (text : String) : Except UsageFault Arguments :=
  match Switch.ofName? text, splitOption text with
  | some option, _ => found.addSwitch option
  | none, some (name, value) => addAttached found name value
  | none, none => .error (.unknownOption text)

def scan (found : Arguments) : List String → Except UsageFault Arguments
  | [] => .ok found
  | text :: rest =>
    if text = "--" then rest.foldlM Arguments.addInput found
    else match Setting.ofName? text, rest with
      | some option, [] => .error (.missingValue option.name)
      | some option, value :: rest =>
        if isOption value then .error (.missingValue option.name)
        else do scan (← found.addSetting option value) rest
      | none, rest =>
        if isOption text then do scan (← addOption found text) rest
        else do scan (← found.addInput text) rest

inductive Task where
  | transcript (debug : Bool)
  | save (output : String) (treatment : Treatment) (classpath : List String)
  /-- Prints a line for each method: its declaration, or names for it and its parameters. -/
  | list (parameters : Bool)
deriving DecidableEq

structure Request where
  input : String
  task : Task
deriving DecidableEq

namespace Arguments

def checkRequirements (arguments : Arguments) : Except UsageFault Unit := do
  if arguments.has .noDebug && !arguments.has .transcript then
    throw (.requires Switch.noDebug.name Switch.transcript.name)
  for option in [Switch.stripLines, .inlineSubroutines] do
    if arguments.has option && arguments.output.isNone then
      throw (.requires option.name Setting.output.name)

def task (arguments : Arguments) : Task :=
  if arguments.has .transcript then .transcript (!arguments.has .noDebug)
  else match arguments.output with
    | some output =>
      .save output ⟨arguments.has .inlineSubroutines, arguments.has .stripLines⟩
        arguments.classpath.reverse
    | .none => .list (arguments.has .parameters)

end Arguments

def Request.parse (arguments : List String) : Except UsageFault Request := do
  let found ← scan .none arguments
  match found.input with
  | none => throw .missingInput
  | some input =>
    found.checkRequirements
    return ⟨input, found.task⟩

end ClassTree.CommandLine
