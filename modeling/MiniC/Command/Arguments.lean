import MiniC.Command.Settings

namespace MiniC

inductive UsageError where
  | unknownCommand (word : Text) (suggestions : List Text)
  | unknownFlag (name : Text)
  | unknownLetter (letter : UInt8) (cluster : Text)
  | malformedFlag (argument : Text)
  | valueMissing (argument : Text)
  | letterValueMissing (letter : UInt8) (cluster : Text)
  | badValue (flag : Flag) (value : Text) (e : ValueError)
  | wrongCount (expected received : Nat)
  | tooFew (expected received : Nat)
deriving DecidableEq, Repr

def programName : Text := "cminus"

namespace UsageError

def suggestionRow (word : Text) : Text :=
  "\t" ++ word ++ "\n"

def suggestionText (words : List Text) : Text :=
  if words.isEmpty then [] else "\n\nDid you mean this?\n" ++ words.flatMap suggestionRow

def message : UsageError → Text
  | unknownCommand word suggestions =>
    "unknown command " ++ Text.quote word ++ " for " ++ Text.quote programName ++
      suggestionText suggestions
  | unknownFlag name => "unknown flag: --" ++ name
  | unknownLetter letter cluster =>
    "unknown shorthand flag: " ++ Text.quoteByte letter ++ " in -" ++ cluster
  | malformedFlag argument => "bad flag syntax: " ++ argument
  | valueMissing argument => "flag needs an argument: " ++ argument
  | letterValueMissing letter cluster =>
    "flag needs an argument: " ++ Text.quoteByte letter ++ " in -" ++ cluster
  | badValue flag value e =>
    "invalid argument " ++ Text.quote value ++ " for " ++ Text.quote flag.title ++ " flag: " ++
      e.message value
  | wrongCount expected received =>
    "accepts " ++ Decimal.ofNat expected ++ " arg(s), received " ++ Decimal.ofNat received
  | tooFew expected received =>
    "requires at least " ++ Decimal.ofNat expected ++ " arg(s), only received " ++
      Decimal.ofNat received

end UsageError

def dash : UInt8 := '-'.toUInt8

structure Arguments where
  settings : Settings := {}
  operands : List Text := []
deriving DecidableEq, Repr

namespace Arguments

def set (a : Arguments) (f : Flag) (value : Text) : Except UsageError Arguments :=
  match a.settings.set f value with
  | .ok s => .ok { a with settings := s }
  | .error e => .error (.badValue f value e)

def addOperands (a : Arguments) (operands : List Text) : Arguments :=
  { a with operands := a.operands ++ operands }

/-- Letters after one dash, and the flag that takes the next argument, if there is one. A cluster
    that starts with `test.` is left to others. -/
def cluster (known : List Flag) (a : Arguments) :
    Text → Except UsageError (Arguments × Option Flag)
  | [] => .ok (a, none)
  | c :: more =>
    if ("test." : Text).isPrefixOf (c :: more) then .ok (a, none)
    else
      match known.find? fun f => f.letter?.any (·.toUInt8 = c) with
      | none => .error (.unknownLetter c (c :: more))
      | some f =>
        if more.head? = some '='.toUInt8 ∧ 1 < more.length then
          (a.set f more.tail).map fun a => (a, none)
        else if f.isSwitch then
          match a.set f "true" with
          | .ok a => cluster known a more
          | .error e => .error e
        else if more.isEmpty then .ok (a, some f)
        else (a.set f more).map fun a => (a, none)

/-- A name after two dashes, and the flag that takes the next argument, if there is one. -/
def long (known : List Flag) (a : Arguments) (body : Text) :
    Except UsageError (Arguments × Option Flag) :=
  if body.head? = some dash ∨ body.head? = some '='.toUInt8 then
    .error (.malformedFlag ("--" ++ body))
  else
    let (name, value?) :=
      match Text.cut? '='.toUInt8 body with
      | some (name, value) => (name, some value)
      | none => (body, none)
    match known.find? (·.name = name), value? with
    | none, _ => .error (.unknownFlag name)
    | some f, some value => (a.set f value).map fun a => (a, none)
    | some f, none =>
      if f.isSwitch then (a.set f "true").map fun a => (a, none) else .ok (a, some f)

inductive Form where
  | operand
  | terminator
  | long (body : Text)
  | cluster (letters : Text)

def form : Text → Form
  | c :: d :: rest =>
    if c ≠ dash then .operand
    else if d ≠ dash then .cluster (d :: rest)
    else if rest.isEmpty then .terminator
    else .long rest
  | _ => .operand

def missing (argument : Text) : UsageError :=
  match form argument with
  | .cluster letters =>
    match letters.getLast? with
    | some c => .letterValueMissing c [c]
    | none => .valueMissing argument
  | _ => .valueMissing argument

def takeValue (argument : Text) (read : Arguments × Option Flag) (rest : List Text) :
    Except UsageError (Arguments × List Text) :=
  match read, rest with
  | (a, none), rest => .ok (a, rest)
  | (a, some f), value :: rest => (a.set f value).map fun a => (a, rest)
  | (_, some _), [] => .error (missing argument)

theorem takeValue_length_le {argument : Text} {read : Arguments × Option Flag} {rest : List Text}
    {a : Arguments} {left : List Text} (h : takeValue argument read rest = .ok (a, left)) :
    left.length ≤ rest.length := by
  obtain ⟨b, f⟩ := read
  cases f with
  | none =>
    simp only [takeValue, Except.ok.injEq, Prod.mk.injEq] at h
    exact Nat.le_of_eq (congrArg List.length h.2.symm)
  | some f =>
    cases rest with
    | nil => cases h
    | cons value rest =>
      simp only [takeValue] at h
      cases hs : b.set f value with
      | error e => rw [hs] at h; cases h
      | ok a' =>
        rw [hs] at h
        simp only [Except.map, Except.ok.injEq, Prod.mk.injEq] at h
        rw [← h.2]
        exact Nat.le_succ _

def parseFrom (known : List Flag) (a : Arguments) (args : List Text) :
    Except UsageError Arguments :=
  match args with
  | [] => .ok a
  | arg :: rest =>
    let flags :=
      match form arg with
      | .long body => long known a body
      | .cluster letters => cluster known a letters
      | .operand | .terminator => .ok (a, none)
    match form arg with
    | .terminator => .ok (a.addOperands rest)
    | .operand => parseFrom known (a.addOperands [arg]) rest
    | .long _ | .cluster _ =>
      match _h : flags.bind fun read => takeValue arg read rest with
      | .error e => .error e
      | .ok (a, left) => parseFrom known a left
termination_by args.length
decreasing_by
  · simp
  · cases hf : flags with
    | error e => rw [hf] at _h; cases _h
    | ok read =>
      rw [hf] at _h
      have := takeValue_length_le _h
      simp only [List.length_cons]
      omega

def parse (known : List Flag) (args : List Text) : Except UsageError Arguments :=
  parseFrom known {} args

end Arguments

end MiniC
