import MiniC.Code.Listing
import MiniC.Command.Artifact
import MiniC.Command.Host
import MiniC.Command.Request

namespace MiniC

inductive CommandError where
  | usage (e : UsageError)
  | source (path : Text) (e : FileError)
  | compiler (e : CompileError)
  | compilerAt (path : Text) (e : CompileError)
  | listingFile (e : FileError)
  | listing (path : Text) (e : ListingError)
  | directory (e : FileError)
  | artifact (a : Artifact) (e : FileError)
  | testerUnavailable (tester : Text)
deriving DecidableEq, Repr

def CommandError.message : CommandError → Text
  | usage e => e.message
  | source path e => "read " ++ path ++ ": " ++ e.message
  | compiler e => e.message
  | compilerAt path e => path ++ ": " ++ e.message
  | listingFile e => if e.action = .open then e.message else e.path ++ ": " ++ e.message
  | listing path e => path ++ ": " ++ e.message
  | directory e => e.message
  | artifact a e => "write " ++ a.fileName ++ ": " ++ e.message
  | testerUnavailable tester => "start " ++ tester ++ ": testers cannot be started"

inductive Stop where
  | reported
  | error (e : CommandError)
  | crash (c : Crash)
deriving DecidableEq, Repr

abbrev SessionM (m : Type → Type) := ReaderT (Host m) (ExceptT Stop m)

namespace Session

variable {m : Type → Type} [Monad m]

def use {α : Type} (action : Host m → m α) : SessionM m α :=
  fun host => ExceptT.lift (action host)

def attempt {α : Type} (action : Host m → m (Except FileError α))
    (error : FileError → CommandError) : SessionM m α := do
  match ← use action with
  | .ok a => return a
  | .error e => throw (.error (error e))

def print (t : Text) : SessionM m Unit :=
  use (·.print t)

def note (s : Settings) (t : Text) : SessionM m Unit :=
  if s.verbose then use (·.log (programName ++ ": " ++ t ++ "\n")) else pure ()

def verdict (c : Compilation) : Text :=
  if c.ok then "Compilation successful!\n"
  else "Compilation failed due to the following errors:\n\n" ++ c.report ++ "\n"

def compileAs (name source : Text) : SessionM m Compilation := do
  print ("Compiling " ++ name ++ "\n")
  let elapsed ← use Host.stopwatch
  match compile source with
  | .error e => throw (.error (.compiler e))
  | .ok c =>
    print ("Compilation took " ++ (← use fun _ => elapsed) ++ " s\n")
    print (verdict c)
    return c

def execute (s : Settings) (program : Program) : SessionM m Unit := do
  print "Executing compiled program\n"
  if !s.tester.isEmpty then
    throw (.error (.testerUnavailable s.tester))
  let elapsed ← use Host.stopwatch
  let run ← use (·.execute s.timeout s.verbose program)
  if s.verbose then
    use (·.log run.traceText)
  match run.failure with
  | some (.crash c) => throw (.crash c)
  | some (.error e) =>
    print ("RuntimeError: " ++ e.render ++ "\n")
    throw .reported
  | none =>
    print ("Execution took " ++ (← use fun _ => elapsed) ++ " s\n")
    print ("Program output:\n" ++
      shownOutput (outputText run.machine.output.toList) s.verbose ++ "\n")

def inDirectory (directory name : Text) : Text :=
  directory ++ "/" ++ name

def writeArtifacts (s : Settings) (c : Compilation) : SessionM m Unit := do
  attempt (·.makeDirectory s.outDirectory) .directory
  for a in Artifact.chosen s do
    attempt (·.writeFile (inDirectory s.outDirectory a.fileName) (a.text s c)) (.artifact a)
  note s ("wrote artifacts to " ++ s.outDirectory)

def build (s : Settings) (path : Text) : SessionM m Unit := do
  let source ← attempt (·.readFile path) (.source path)
  let c ← compileAs path source
  writeArtifacts s c
  if !c.ok then
    throw .reported
  if s.run then
    execute s c.program

def eval (s : Settings) (code : Text) : SessionM m Unit := do
  let c ← compileAs "<eval>" code
  if !c.ok then
    throw .reported
  execute s c.program

def compileFile (path : Text) : SessionM m (Text × Compilation) := do
  let source ← attempt (·.readFile path) (.source path)
  match compile source with
  | .ok c => return (path, c)
  | .error e => throw (.error (.compilerAt path e))

def finding (path : Text) (c : Compilation) : Text :=
  if c.ok then path ++ ": no errors found\n" else path ++ ":\n" ++ c.report ++ "\n"

/-- Nothing is shown before all sources have been compiled. -/
def check (paths : List Text) : SessionM m Unit := do
  let compiled ← paths.mapM compileFile
  for (path, c) in compiled do
    print (finding path c)
  if compiled.any fun (_, c) => !c.ok then
    throw .reported

def exec (s : Settings) (path : Text) : SessionM m Unit := do
  let text ← attempt (·.readFile path) .listingFile
  match Listing.parse text with
  | .ok program => execute s program
  | .error e => throw (.error (.listing path e))

def perform (r : Request) : SessionM m Unit :=
  match r.task with
  | .build source => build r.settings source
  | .run source => build { r.settings with run := true } source
  | .eval code => eval r.settings code
  | .check sources => check sources
  | .exec listing => exec r.settings listing

def helpText : Text :=
  "cminus compiles C-minus programs to three-address code and AArch64 assembly.\n\n" ++
  "Commands:\n" ++
  "  build  Compile a source file and write the build artifacts\n" ++
  "  run    Compile a source file and execute it\n" ++
  "  eval   Compile and execute inline C-minus code\n" ++
  "  check  Report the diagnostics of one or more source files\n" ++
  "  exec   Execute a saved three-address listing\n"

def ofArguments (args : List Text) : SessionM m Unit :=
  match Request.ofArguments? args with
  | .error e => throw (.error (.usage e))
  | .ok none => print helpText
  | .ok (some request) => perform request

def run (host : Host m) (args : List Text) : m (Except Stop Unit) :=
  (ofArguments args).run host

end Session

end MiniC
