import MiniC.Number.Duration
import MiniC.Number.Unsigned

namespace MiniC

structure Settings where
  run : Bool := false
  /-- Show everything that the program prints, and every instruction that is executed. -/
  verbose : Bool := false
  errorFiles : Bool := false
  tree : Bool := false
  symbolTable : Bool := false
  tokens : Bool := false
  outDirectory : Text := "output"
  timeout : Duration := 10 * Duration.second
  /-- The memory of a tester, in bytes. -/
  memory : Nat := 50 * 1024 * 1024
  /-- The program that runs the listing in place of the machine; none if empty. -/
  tester : Text := []
  help : Bool := false
deriving DecidableEq, Repr

inductive Flag where
  | verbose | out | timeout | memory | tester
  | run | errorFiles | tree | symbolTable | tokens
  | help
deriving DecidableEq, Repr

namespace Flag

def shared : List Flag := [verbose, out, timeout, memory, tester]

def name : Flag → Text
  | verbose => "verbose"
  | out => "out"
  | timeout => "timeout"
  | memory => "memory"
  | tester => "tester"
  | run => "run"
  | errorFiles => "error-files"
  | tree => "tree"
  | symbolTable => "symbol-table"
  | tokens => "tokens"
  | help => "help"

def letter? : Flag → Option Char
  | verbose => some 'v'
  | out => some 'o'
  | run => some 'r'
  | errorFiles => some 'e'
  | tree => some 'a'
  | symbolTable => some 's'
  | tokens => some 't'
  | help => some 'h'
  | timeout | memory | tester => none

def isSwitch : Flag → Bool
  | out | timeout | memory | tester => false
  | _ => true

def title (f : Flag) : Text :=
  match f.letter? with
  | some c => ['-'.toUInt8, c.toUInt8] ++ ", --" ++ f.name
  | none => "--" ++ f.name

end Flag

inductive ValueError where
  | switch
  | duration (e : Duration.Error)
  | unsigned (e : Unsigned.Error)
deriving DecidableEq, Repr

def ValueError.message (value : Text) : ValueError → Text
  | switch => "strconv.ParseBool: parsing " ++ Text.quote value ++ ": invalid syntax"
  | duration e => e.message value
  | unsigned e => "strconv.ParseUint: parsing " ++ Text.quote value ++ ": " ++ e.message

def switchValue? (t : Text) : Option Bool :=
  if ["1", "t", "T", "TRUE", "true", "True"].any (Text.ofString · = t) then some true
  else if ["0", "f", "F", "FALSE", "false", "False"].any (Text.ofString · = t) then some false
  else none

namespace Settings

def setSwitch (s : Settings) (f : Flag) (b : Bool) : Settings :=
  match f with
  | .verbose => { s with verbose := b }
  | .run => { s with run := b }
  | .errorFiles => { s with errorFiles := b }
  | .tree => { s with tree := b }
  | .symbolTable => { s with symbolTable := b }
  | .tokens => { s with tokens := b }
  | .help => { s with help := b }
  | .out | .timeout | .memory | .tester => s

def set (s : Settings) (f : Flag) (value : Text) : Except ValueError Settings :=
  match f with
  | .out => .ok { s with outDirectory := value }
  | .tester => .ok { s with tester := value }
  | .timeout =>
    match Duration.parse value with
    | .ok d => .ok { s with timeout := d }
    | .error e => .error (.duration e)
  | .memory =>
    match Unsigned.parse value with
    | .ok n => .ok { s with memory := n }
    | .error e => .error (.unsigned e)
  | f =>
    match switchValue? value with
    | some b => .ok (s.setSwitch f b)
    | none => .error .switch

end Settings

end MiniC
