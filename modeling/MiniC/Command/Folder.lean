import MiniC.Command.Host

namespace MiniC

abbrev Path := List Text

inductive Entry where
  | file (content : Text)
  | directory
deriving DecidableEq, Repr

/-- The entries of a folder; directories on the way to an entry need not be listed. -/
structure Folder where
  entries : List (Path × Entry) := []
deriving Repr

namespace Folder

def slash : UInt8 := '/'.toUInt8

/-- The names in a path. The empty name and a dot stay where they are. -/
def names (path : Text) : List Text :=
  path.splitOn slash

def staysPut (name : Text) : Bool :=
  name.isEmpty || name = "."

def pathOf (path : Text) : Path :=
  (names path).filter (!staysPut ·)

/-- The directory in which relative paths start. It is not the root, so `..` leads out of it. -/
def home : Path := [("home" : Text)]

def ofFiles (files : List (Text × Text)) : Folder :=
  ⟨files.map fun (path, content) => (home ++ pathOf path, .file content)⟩

def entry? (f : Folder) (p : Path) : Option Entry :=
  match f.entries.lookup p with
  | some entry => some entry
  | none =>
    if p.isPrefixOf home ∨ f.entries.any fun (q, _) => p.isPrefixOf q then some .directory
    else none

def insert (f : Folder) (p : Path) (entry : Entry) : Folder :=
  ⟨(p, entry) :: f.entries.filter fun (q, _) => q ≠ p⟩

def files (f : Folder) : List (Text × Text) :=
  f.entries.filterMap fun (p, entry) =>
    match home.isPrefixOf? p, entry with
    | some inner, .file content => some (List.intercalate [slash] inner, content)
    | _, _ => none

def pathLimit : Nat := 4096

def nameLimit : Nat := 255

/-- Goes from a path along names. Every place on the way has to be a directory. -/
def walk (f : Folder) (p : Path) : List Text → Except FileCause Path
  | [] => .ok p
  | name :: rest =>
    match f.entry? p with
    | none => .error .noEntry
    | some (.file _) => .error .notDirectory
    | some .directory =>
      if nameLimit < name.length then .error .nameTooLong
      else if staysPut name then walk f p rest
      else if name = ".." then walk f p.dropLast rest
      else walk f (p ++ [name]) rest

/-- The path that a text stands for. There is none for the empty text, for a text with a zero byte
    or for one that is too long. -/
def resolve (f : Folder) (path : Text) : Except FileCause Path :=
  if path.contains 0 then .error .invalid
  else if path.isEmpty then .error .noEntry
  else if pathLimit ≤ path.length then .error .nameTooLong
  else f.walk (if path.head? = some slash then [] else home) (names path)

def find (f : Folder) (path : Text) : Except FileCause Entry := do
  match f.entry? (← f.resolve path) with
  | some entry => return entry
  | none => throw .noEntry

def readFile (f : Folder) (path : Text) : Except FileError Text :=
  match f.find path with
  | .ok (.file content) => .ok content
  | .ok .directory => .error ⟨.read, path, .isDirectory⟩
  | .error cause => .error ⟨.open, path, cause⟩

def writeFile (f : Folder) (path content : Text) : Except FileError Folder :=
  match f.resolve path with
  | .error cause => .error ⟨.open, path, cause⟩
  | .ok p =>
    if f.entry? p = some .directory then .error ⟨.open, path, .isDirectory⟩
    else .ok (f.insert p (.file content))

def makeOne (f : Folder) (path : Text) : Except FileError Folder :=
  match f.resolve (path.dropTrailing slash) with
  | .error cause => .error ⟨.makeDirectory, path, cause⟩
  | .ok p =>
    if (f.entry? p).isSome then .error ⟨.makeDirectory, path, .exists⟩
    else .ok (f.insert p .directory)

def ensure (f : Folder) (path : Text) : Except FileError Folder :=
  match f.find path with
  | .ok .directory => .ok f
  | .ok (.file _) => .error ⟨.makeDirectory, path, .notDirectory⟩
  | .error _ => f.makeOne path

def parents (before : Text) : Text → List Text
  | [] => []
  | c :: rest =>
    let upTo := before ++ [c]
    if c = slash ∧ rest.head? ≠ some slash then upTo :: parents upTo rest else parents upTo rest

def chain (path : Text) : List Text :=
  let outer := parents [] path
  if outer.getLast? = some path then outer else outer ++ [path]

def makeDirectory (f : Folder) (path : Text) : Except FileError Folder :=
  (chain path).foldlM ensure f

end Folder

structure Desk where
  folder : Folder := {}
  printed : Text := []
  logged : Text := []
deriving Repr

namespace Desk

def update (action : Folder → Except FileError Folder) : StateM Desk (Except FileError Unit) :=
  fun desk =>
    match action desk.folder with
    | .ok folder => (.ok (), { desk with folder := folder })
    | .error e => (.error e, desk)

def host : Host (StateM Desk) where
  readFile path := do return (← get).folder.readFile path
  makeDirectory path := update fun folder => folder.makeDirectory path
  writeFile path content := update fun folder => folder.writeFile path content
  print t := modify fun desk => { desk with printed := desk.printed ++ t }
  log t := modify fun desk => { desk with logged := desk.logged ++ t }
  stopwatch := pure (pure "T")
  execute limit tracing program :=
    pure (Run.ofProgram program 0 (Interruption.deadline limit 0) tracing)

end Desk

end MiniC
