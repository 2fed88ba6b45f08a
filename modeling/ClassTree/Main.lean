import ClassTree.CommandLine.Execution

namespace ClassTree.CommandLine

def loadDirectory (path : String) : IO Source := do
  let root ← IO.FS.realPath path
  let offset := root.toString.length + 1
  let entries ← root.walkDir
  let files ← entries.foldlM (fun (files : Files) entry => do
    if entry.extension == some "class" && !(← entry.isDir) then
      let bytes ← IO.FS.readBinFile entry
      return files.insert ((entry.toString.drop offset).toString) bytes.toList
    else return files) ∅
  return .ofDirectory files

def loadSource (path : String) : IO Source :=
  try loadDirectory path catch _ => return .ofDirectory ∅

def runRequest (request : Request) : IO UInt32 := do
  let bytes ← IO.FS.readBinFile request.input
  let sources ← request.directories.mapM loadSource
  match request.run bytes.toList sources with
  | .error error =>
    IO.eprintln s!"Error: {error.message}"
    return 1
  | .ok (.text text) =>
    IO.print text
    return 0
  | .ok (.file path bytes) =>
    IO.FS.writeBinFile path (ByteArray.mk bytes.toArray)
    return 0

end ClassTree.CommandLine

open ClassTree.CommandLine in
def main (arguments : List String) : IO UInt32 := do
  match Request.parse arguments with
  | .error fault =>
    IO.eprintln s!"error: {fault.message}"
    return 2
  | .ok request =>
    try runRequest request
    catch failure =>
      IO.eprintln s!"Error: {failure}"
      return 1
