import MiniC.Machine.Step
import MiniC.Text.Blank

namespace MiniC

def defaultStepLimit : Nat := 50000000

def interruptInterval : Nat := 1024

/-- Why a run is interrupted, if it is, by the number of steps executed. -/
abbrev Interruption := Nat → Option Text

structure Run where
  machine : Machine
  /-- The indices of the instructions that were looked at, if they are recorded. -/
  trace : Array Int := #[]
  failure : Option Failure := none

namespace Run

def start (program : Program) : Run :=
  ⟨{ program := program }, #[], none⟩

def stopped? (interruption : Interruption) (limit : Nat) (m : Machine) : Option RuntimeError :=
  let interrupted :=
    if m.steps % interruptInterval = 0 then interruption m.steps else none
  match interrupted with
  | some cause => some ⟨.timeout, m.pc, [], some cause⟩
  | none =>
    if limit ≤ m.steps then
      some ⟨.stepLimit, m.pc, "step limit of " ++ Decimal.ofNat limit ++ " exceeded", none⟩
    else none

def record (tracing : Bool) (trace : Array Int) (m : Machine) : Array Int :=
  if tracing ∧ (m.program.fetch? m.pc).isSome then trace.push m.pc else trace

/-- Runs a machine that has at most `fuel` steps to go until the limit. -/
def resume (interruption : Interruption) (limit : Nat) (tracing : Bool) (fuel : Nat)
    (m : Machine) (trace : Array Int) : Run :=
  if m.halted then ⟨m, trace, none⟩
  else
    match stopped? interruption limit m with
    | some error => ⟨m, trace, some (.error error)⟩
    | none =>
      match fuel with
      | 0 => ⟨m, trace, none⟩
      | fuel + 1 =>
        let trace := record tracing trace m
        match Machine.step m with
        | .ok _ m => resume interruption limit tracing fuel m trace
        | .error failure m => ⟨m, trace, some failure⟩

def limitOf (maxSteps : Int) : Nat :=
  if maxSteps ≤ 0 then defaultStepLimit else maxSteps.toNat

def ofProgram (program : Program) (maxSteps : Int) (interruption : Interruption)
    (tracing : Bool) : Run :=
  let limit := limitOf maxSteps
  resume interruption limit tracing (limit + 1) { program := program } #[]

def traceRow (program : Program) (pc : Int) : Text :=
  match program.fetch? pc with
  | some i => Program.row pc.toNat i
  | none => []

def traceText (r : Run) : Text :=
  r.trace.toList.flatMap (traceRow r.machine.program)

end Run

def printMark : Text := "PRINT"

def outputText (words : List Word) : Text :=
  words.flatMap fun w => printMark ++ " " ++ Decimal.ofWord w ++ ("\n" : Text)

def markedRows (t : Text) : List Text :=
  (t.splitOn '\n'.toUInt8).filterMap fun row => (printMark.isPrefixOf? row).map Text.trim

def shownOutput (t : Text) (full : Bool) : Text :=
  if full then t else List.intercalate "\n" (markedRows t)

end MiniC
