import ImpLang.CommandLine.Report

namespace ImpLang

def loadFile (path : String) : IO (Except FileError ByteArray) := do
  if path.contains '\x00' then return .error .zeroInPath
  try return .ok (← IO.FS.readBinFile path)
  catch e =>
    match e with
    | .noFileOrDirectory .. => return .error .notFound
    | _ => return .error (.refused (toString e))

def loadFiles (args : List String) : IO Files := do
  match Invocation.ofArguments args with
  | .error _ => return fun _ => .error .notFound
  | .ok i =>
    let content ← loadFile i.file
    return fun path => if path = i.file then content else .error .notFound

end ImpLang

open ImpLang in
def main (args : List String) : IO UInt32 := do
  let files ← loadFiles args
  match Ending.ofArguments files Command.practicalSteps args with
  | none => return 1
  | some e =>
    IO.print e.output
    IO.eprint e.errorOutput
    return e.status
