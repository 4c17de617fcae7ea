import Rdf.Command.Run

/-!
The program.
-/

namespace Rdf.Command

def flawOf : IO.Error → FileFlaw
  | .noFileOrDirectory .. => .missing
  | .inappropriateType .. => .isDirectory
  | error => .other (toString error)

/-- A step of the operating system on the file at a path. -/
def onFile {α : Type} (path : Path) (step : IO α) : IO (Except FileFault α) := do
  try
    return .ok (← step)
  catch error =>
    return .error ⟨path, flawOf error⟩

def machineSystem : System IO where
  directory := return (Path.ofText (← IO.currentDir).toString).parts
  input := do
    let stdin ← IO.getStdin
    return (← stdin.readBinToEnd).toList
  readFile path := onFile path do
    return (← IO.FS.readBinFile path.toText).toList
  writeFile path text := onFile path do
    IO.FS.writeFile path.toText text

end Rdf.Command

def main (arguments : List String) : IO UInt32 := do
  let outcome ← Rdf.Command.run Rdf.Command.machineSystem arguments
  (← IO.getStdout).putStr outcome.printed.output
  (← IO.getStderr).putStr outcome.printed.messages
  return outcome.status.toUInt32
