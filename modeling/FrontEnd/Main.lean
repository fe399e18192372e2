import FrontEnd.CommandLine
import FrontEnd.FileTree

namespace FrontEnd.Main

abbrev Readings := List (String × Except String String)

def number (code : UInt32) : Nat :=
  min code.toNat (0 - code).toNat

def reason (e : IO.Error) : String :=
  let error? := match e with
    | .noFileOrDirectory _ code _ | .inappropriateType _ code _ | .invalidArgument _ code _ =>
      FileTree.ReadError.ofCode? (number code)
    | _ => none
  match error? with
  | some error => error.message
  | none => toString e

def readFile (path : String) : IO (Except String String) := do
  if path.toList.contains '\x00' then
    return .error FileTree.ReadError.zeroByte.message
  try
    return .ok (← IO.FS.readFile path)
  catch e =>
    return .error (reason e)

/-- Reads the files and all that they mention. -/
partial def gather (readings : Readings) : List Path → IO Readings
  | [] => return readings
  | path :: paths => do
    if (readings.lookup path.text).isSome then
      gather readings paths
    else
      let reading ← readFile path.text
      let more := match reading with
        | .ok source => CommandLine.mentioned source path
        | .error _ => []
      gather ((path.text, reading) :: readings) (more ++ paths)

def loader (readings : Readings) : Loader where
  read p := (readings.lookup p.text).getD (.error FileTree.ReadError.notFound.message)
  size := readings.length

end FrontEnd.Main

def main (args : List String) : IO UInt32 := do
  let readings ← match FrontEnd.CommandLine.parse args with
    | .ok i => FrontEnd.Main.gather [] [i.file, i.file.normalize]
    | .error _ => pure []
  match FrontEnd.CommandLine.run (FrontEnd.Main.loader readings) args with
  | .ok outcome =>
    IO.print outcome.out
    IO.eprint outcome.err
    return outcome.code.toUInt32
  | .error _ =>
    IO.eprintln "internal error"
    return 101
