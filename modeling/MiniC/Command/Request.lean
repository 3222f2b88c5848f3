import MiniC.Command.Arguments
import MiniC.Text.LowerCase

namespace MiniC

inductive Command where
  | build | run | eval | check | exec
deriving DecidableEq, Repr

namespace Command

def all : List Command := [build, run, eval, check, exec]

def name : Command → Text
  | build => "build"
  | run => "run"
  | eval => "eval"
  | check => "check"
  | exec => "exec"

def ofName? (name : Text) : Option Command :=
  all.find? (·.name = name)

def flags : Command → List Flag
  | build => [.run, .errorFiles, .tree, .symbolTable, .tokens, .help] ++ Flag.shared
  | _ => .help :: Flag.shared

end Command

/-- A row of the table of distances between the heads of two words: the distance of the head that
    ends with `c` to every head of `word`, given the row for the head before. -/
def editRow (c : UInt8) (diagonal left : Nat) : Text → List Nat → List Nat
  | x :: word, above :: row =>
    let d := if x = c then diagonal else min (min above left) diagonal + 1
    d :: editRow c above d word row
  | _, _ => []

def editStep (word : Text) (row : List Nat) (c : UInt8) : List Nat :=
  match row with
  | [] => []
  | first :: rest => (first + 1) :: editRow c first (first + 1) word rest

def editDistance (s word : Text) : Nat :=
  (s.foldl (editStep word) (List.range (word.length + 1))).getLast?.getD 0

/-- The commands that a word may have meant: in lower case it starts them, or is at a distance of
    at most two. -/
def suggestions (word : Text) : List Text :=
  let word := Text.lowerCase word
  (Command.all.map Command.name ++ [("completion" : Text)]).filter fun name =>
    editDistance word name ≤ 2 ∨ word.isPrefixOf name

def takesNext (arg : Text) : Bool :=
  !arg.contains '='.toUInt8 &&
    match Arguments.form arg with
    | .long body => !Flag.shared.any fun f => f.isSwitch && f.name = body
    | .cluster [c] => !Flag.shared.any fun f => f.isSwitch && f.letter?.any (·.toUInt8 = c)
    | _ => false

def isWord (arg : Text) : Bool :=
  arg.head?.any (· ≠ dash)

/-- The arguments before `--` that are neither flags nor values of flags. -/
def wordsOf : List Text → List Text
  | [] => []
  | arg :: rest =>
    if arg = "--" then []
    else if takesNext arg then
      match rest with
      | _ :: next :: more => wordsOf (next :: more)
      | _ => []
    else if isWord arg then arg :: wordsOf rest
    else wordsOf rest

def withoutWord (word : Text) : List Text → List Text
  | [] => []
  | arg :: rest =>
    if arg = "--" then arg :: rest
    else if takesNext arg then
      match rest with
      | [] => [arg]
      | value :: more => arg :: value :: withoutWord word more
    else if arg = word then rest
    else arg :: withoutWord word rest

inductive Task where
  | build (source : Text)
  | run (source : Text)
  | eval (code : Text)
  | check (sources : List Text)
  | exec (listing : Text)
deriving DecidableEq, Repr

namespace Task

def operand : List Text → Except UsageError Text
  | [operand] => .ok operand
  | operands => .error (.wrongCount 1 operands.length)

def ofOperands (command : Command) (operands : List Text) : Except UsageError Task :=
  match command with
  | .build => (operand operands).map .build
  | .run => (operand operands).map .run
  | .eval => (operand operands).map .eval
  | .exec => (operand operands).map .exec
  | .check => if operands.isEmpty then .error (.tooFew 1 0) else .ok (.check operands)

end Task

structure Request where
  task : Task
  settings : Settings
deriving DecidableEq, Repr

namespace Request

/-- What the arguments ask for; `none` stands for help. -/
def ofArguments? (args : List Text) : Except UsageError (Option Request) :=
  match wordsOf args with
  | [] => do
    let _ ← Arguments.parse (.help :: Flag.shared) args
    return none
  | word :: _ =>
    match Command.ofName? word with
    | none => if word = "help" then .ok none else .error (.unknownCommand word (suggestions word))
    | some command => do
      let a ← Arguments.parse command.flags (withoutWord word args)
      if a.settings.help then return none
      let task ← Task.ofOperands command a.operands
      return some ⟨task, a.settings⟩

end Request

end MiniC
