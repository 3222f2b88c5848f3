import MiniC.Command.Session

namespace MiniC.Console

def stringOf (t : Text) : String :=
  (String.fromUTF8? (ByteArray.mk t.toArray)).getD ""

def bytesOf (t : Text) : ByteArray :=
  ByteArray.mk t.toArray

def causeOf : IO.Error → FileCause
  | .noFileOrDirectory .. => .noEntry
  | .alreadyExists .. => .exists
  | e => .other (Text.ofString (toString e))

def attempt {α : Type} (kind : FileAction) (path : Text) (action : IO α) :
    IO (Except FileError α) := do
  try
    return .ok (← action)
  catch e =>
    return .error ⟨kind, path, causeOf e⟩

def readFile (path : Text) : IO (Except FileError Text) :=
  attempt .open path do return (← IO.FS.readBinFile (stringOf path)).toList

def makeDirectory (path : Text) : IO (Except FileError Unit) :=
  attempt .makeDirectory path (IO.FS.createDirAll (stringOf path))

def writeFile (path content : Text) : IO (Except FileError Unit) :=
  attempt .open path (IO.FS.writeBinFile (stringOf path) (bytesOf content))

def stopwatch : IO (IO Text) := do
  let start ← IO.monoNanosNow
  return do return Duration.seconds ((← IO.monoNanosNow) - start)

def sliceSteps : Nat := 64 * interruptInterval

partial def runSlices (limit : Duration) (tracing : Bool) (start : Nat) (r : Run) : IO Run := do
  let elapsed := (← IO.monoNanosNow) - start
  let r := Run.resume (Interruption.deadline limit elapsed) defaultStepLimit tracing sliceSteps
    r.machine r.trace
  if r.failure.isSome || r.machine.halted then return r
  runSlices limit tracing start r

def execute (limit : Duration) (tracing : Bool) (program : Program) : IO Run := do
  runSlices limit tracing (← IO.monoNanosNow) (Run.start program)

def write (stream : IO.FS.Stream) (t : Text) : IO Unit := do
  stream.write (bytesOf t)
  stream.flush

def host (out err : IO.FS.Stream) : Host IO where
  readFile := readFile
  makeDirectory := makeDirectory
  writeFile := writeFile
  print := write out
  log := write err
  stopwatch := stopwatch
  execute := execute

def exitCode (err : IO.FS.Stream) : Except Stop Unit → IO UInt32
  | .ok _ => return 0
  | .error .reported => return 1
  | .error (.error e) => do
    write err ("Error: " ++ e.message ++ "\n")
    return 1
  | .error (.crash c) => do
    write err ("crash: " ++ c.message?.getD [] ++ "\n")
    return 2

end MiniC.Console

def main (args : List String) : IO UInt32 := do
  let err ← IO.getStderr
  let host := MiniC.Console.host (← IO.getStdout) err
  MiniC.Console.exitCode err (← MiniC.Session.run host (args.map MiniC.Text.ofString))
