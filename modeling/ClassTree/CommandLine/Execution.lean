import ClassTree.CommandLine.Request
import ClassTree.Report.Declaration
import ClassTree.Report.Naming
import ClassTree.Report.Transcript
import ClassTree.Source

namespace ClassTree.CommandLine

inductive Output where
  | text (text : String)
  | file (path : String) (bytes : Bytes)

def methodLine (parameters : Bool) (tree : Class) (method : Method) : String :=
  if parameters then
    Name.unique tree.name method.name method.descriptor ++ ": " ++
      ", ".intercalate method.parameterNames
  else Declaration.ofMethod tree.name method

def Request.directories (request : Request) : List String :=
  match request.task with
  | .save _ _ classpath => classpath
  | _ => []

/-- Carries out a request on the bytes of the input, with the class files of the directories. -/
def Request.run (request : Request) (bytes : Bytes) (sources : List Source) :
    Except Error Output :=
  match request.task with
  | .transcript debug => return .text (← Transcript.ofBytes debug bytes)
  | .save output treatment _ =>
    return .file output (← treatment.applyToBytes (Source.hierarchy sources) bytes)
  | .list parameters => do
    let tree ← Class.ofBytes bytes
    return .text (String.join (tree.methods.map (methodLine parameters tree · ++ "\n")))

end ClassTree.CommandLine
