import MiniC.Machine.Run
import MiniC.Number.Duration

namespace MiniC

inductive FileAction where
  | open
  | read
  | makeDirectory
deriving DecidableEq, Repr

def FileAction.name : FileAction → Text
  | .open => "open"
  | read => "read"
  | makeDirectory => "mkdir"

inductive FileCause where
  | noEntry
  | notDirectory
  | isDirectory
  | exists
  | nameTooLong
  | invalid
  | other (text : Text)
deriving DecidableEq, Repr

def FileCause.message : FileCause → Text
  | noEntry => "no such file or directory"
  | notDirectory => "not a directory"
  | isDirectory => "is a directory"
  | .exists => "file exists"
  | nameTooLong => "file name too long"
  | invalid => "invalid argument"
  | other text => text

structure FileError where
  action : FileAction
  path : Text
  cause : FileCause
deriving DecidableEq, Repr

def FileError.message (e : FileError) : Text :=
  e.action.name ++ " " ++ e.path ++ ": " ++ e.cause.message

/-- A run is interrupted once the time that has passed reaches the limit. A limit that is not
    positive is reached at once. -/
def Interruption.deadline (limit elapsed : Duration) : Interruption :=
  fun _ => if limit ≤ elapsed then some "context deadline exceeded" else none

structure Host (m : Type → Type) where
  readFile : Text → m (Except FileError Text)
  /-- Makes a directory and those it lies in, as far as they are not there. -/
  makeDirectory : Text → m (Except FileError Unit)
  writeFile : Text → Text → m (Except FileError Unit)
  print : Text → m Unit
  log : Text → m Unit
  stopwatch : m (m Text)
  /-- Runs a program within a limit of time, and records what it executes if wanted. -/
  execute : Duration → Bool → Program → m Run

end MiniC
