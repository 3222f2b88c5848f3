import MiniC.SExpr.Read

namespace MiniC

/-- The blocks of a document that matter to test cases. -/
inductive Markdown.Block where
  | heading (title : Text) (line : Nat)
  /-- The rows of a fenced block keep their newlines. Its line is that of its first row, or 1 if
      it has none. -/
  | fence (language : Text) (rows : List Text) (line : Nat)
deriving DecidableEq, Repr

inductive AssertionKind where
  | tree
  | tac
  | execute
  | compileError
deriving DecidableEq, Repr

namespace AssertionKind

def name : AssertionKind → Text
  | tree => "tree"
  | tac => "tac"
  | execute => "execute"
  | compileError => "compile-error"

def ofName? (name : Text) : Option AssertionKind :=
  [tree, tac, execute, compileError].find? (·.name = name)

end AssertionKind

structure Assertion where
  kind : AssertionKind
  content : Text
  pattern : Option SExpr := none
deriving Repr

structure TestCase where
  name : Text
  line : Nat
  /-- The program; empty as long as there is none. -/
  input : Text := []
  assertions : List Assertion := []
deriving Repr

namespace TestCase

inductive Error where
  | outside (line : Nat) (language : Text)
  | unknownOutside (line : Nat) (language : Text)
  | unknown (line : Nat) (language test : Text)
  | secondInput (line : Nat) (test : Text)
  | badPattern (line : Nat) (test : Text) (e : SExpr.ReadError)
  | noInput (test : Text)
  | noAssertion (test : Text)
deriving DecidableEq, Repr

def atLine (line : Nat) : Text :=
  "line " ++ Decimal.ofNat line ++ ": "

def Error.reason : Error → Text
  | outside line language => atLine line ++ language ++ " fence found outside of test case"
  | unknownOutside line language =>
    atLine line ++ "unknown fence language '" ++ language ++ "' found outside of test case"
  | unknown line language test =>
    atLine line ++ "unknown fence language '" ++ language ++ "' in test '" ++ test ++ "'"
  | secondInput line test => atLine line ++ "multiple input fences found in test '" ++ test ++ "'"
  | badPattern line test e =>
    atLine line ++ "failed to parse Sexy assertion in test '" ++ test ++ "': " ++ e.message
  | noInput test => "test '" ++ test ++ "' has no input fence"
  | noAssertion test => "test '" ++ test ++ "' has no assertion fences"

/-- A document that cannot be read, either at one of its blocks or at its end. -/
inductive Failure where
  | atBlock (e : Error)
  | atEnd (e : Error)
deriving DecidableEq, Repr

def Failure.message : Failure → Text
  | atBlock e => "error walking markdown AST: " ++ e.reason
  | atEnd e => e.reason

def inputLanguage : Text := "cminus"

def content (rows : List Text) : Text :=
  Text.dropTrailing '\n'.toUInt8 rows.flatten

def finish (t : TestCase) : Except Error TestCase :=
  if t.input.isEmpty then .error (.noInput t.name)
  else if t.assertions.isEmpty then .error (.noAssertion t.name)
  else .ok t

def assertion (kind : AssertionKind) (content : Text) : Except SExpr.ReadError Assertion :=
  if kind = .tree then do
    let pattern ← SExpr.read content
    return ⟨kind, content, some pattern⟩
  else .ok { kind := kind, content := content }

/-- A fenced block within a test case. One without a language is prose. -/
def addFence (t : TestCase) (language : Text) (rows : List Text) (line : Nat) :
    Except Error TestCase :=
  if language.isEmpty then .ok t
  else if language = inputLanguage then
    if t.input.isEmpty then .ok { t with input := content rows }
    else .error (.secondInput line t.name)
  else
    match AssertionKind.ofName? language with
    | none => .error (.unknown line language t.name)
    | some kind =>
      match assertion kind (content rows) with
      | .ok a => .ok { t with assertions := t.assertions ++ [a] }
      | .error e => .error (.badPattern line t.name e)

/-- A fenced block before the first test case must be prose. -/
def outsideFence (language : Text) (line : Nat) : Except Error Unit :=
  if language.isEmpty then .ok ()
  else if language = inputLanguage ∨ (AssertionKind.ofName? language).isSome then
    .error (.outside line language)
  else .error (.unknownOutside line language)

/-- The test cases of the blocks after the start of `current`. A heading that starts with `Test: `
    opens a test case, and the fenced blocks after it hold a program and what is asserted of it. -/
def fromBlocks (current : Option TestCase) : List Markdown.Block → Except Failure (List TestCase)
  | [] =>
    match current with
    | none => .ok []
    | some t => (t.finish.map fun t => [t]).mapError .atEnd
  | .heading title line :: rest =>
    match ("Test: " : Text).isPrefixOf? title with
    | none => fromBlocks current rest
    | some name => do
      let done ←
        match current with
        | none => pure []
        | some t => (t.finish.map fun t => [t]).mapError Failure.atBlock
      let later ← fromBlocks (some { name := name, line := line }) rest
      return done ++ later
  | .fence language rows line :: rest =>
    match current with
    | none => do
      (outsideFence language line).mapError Failure.atBlock
      fromBlocks none rest
    | some t => do
      let t ← (t.addFence language rows line).mapError Failure.atBlock
      fromBlocks (some t) rest

end TestCase

end MiniC
