import MiniC.Grammar.Ast
import MiniC.Token.Scan

namespace MiniC

inductive SyntaxError where
  | missing (what : Text)
  | illegal (lexeme : Text)
  | unexpectedEnd
deriving DecidableEq, Repr

def SyntaxError.message : SyntaxError → Text
  | missing what => "missing " ++ what
  | illegal lexeme => "illegal " ++ lexeme
  | unexpectedEnd => "Unexpected EOF"

/-- A syntax error that a rule recovered from, and the token at which it went on. -/
structure Recovery where
  error : Located SyntaxError
  resume : Token
deriving DecidableEq, Repr

def SyntaxError.diagnostic (e : Located SyntaxError) : Diagnostic :=
  ⟨.syntactic, e.line, e.cause.message⟩

inductive Want where
  | ident
  | number
  | keyword (k : Keyword)
  | punct (p : Punct)
deriving DecidableEq, Repr

namespace Want

def name : Want → Text
  | ident => "ID"
  | number => "NUM"
  | keyword k => k.lexeme
  | punct p => p.lexeme

def accepts (w : Want) (t : Token) : Bool :=
  match w, t.terminal with
  | ident, .ident _ => true
  | number, .number _ => true
  | keyword k, .keyword k' => k = k'
  | punct p, .punct p' => p = p'
  | _, _ => false

end Want

namespace Parser

abbrev Sync := List Want

def Sync.has (sync : Sync) (t : Token) : Bool :=
  sync.any (·.accepts t)

def typeSync : Sync :=
  [.keyword .int, .keyword .void]

def declSync : Sync :=
  .punct .semicolon :: typeSync

def stmtSync : Sync :=
  [.punct .semicolon, .punct .lbrace, .punct .rbrace, .keyword .if_, .keyword .else_,
    .keyword .while_, .keyword .return_, .keyword .break_, .keyword .continue_, .keyword .int,
    .keyword .void]

def exprSync : Sync :=
  stmtSync ++ [.punct .rparen, .punct .rbracket, .punct .comma]

def paramSync : Sync :=
  [.punct .comma, .punct .rparen, .punct .lbrace]

structure State where
  tokens : List Token
  endLine : Nat
  lastLine : Nat
  taken : Nat
  errors : Array (Located SyntaxError)
  /-- Whether the end of the source has been reported. Nothing is reported after it. -/
  ended : Bool
  recovery : Option Recovery
deriving Repr

namespace State

def start (stream : TokenStream) : State where
  tokens := stream.tokens
  endLine := stream.endLine
  lastLine := (stream.tokens.head?.map (·.line)).getD stream.endLine
  taken := 0
  errors := #[]
  ended := false
  recovery := none

def current (s : State) : Token :=
  s.tokens.head?.getD (.endOfFile s.endLine)

def size (s : State) : Nat :=
  s.tokens.length

def take (s : State) (t : Token) (rest : List Token) : State :=
  { s with tokens := rest, lastLine := t.line, taken := s.taken + 1 }

def advance (s : State) : State :=
  match s.tokens with
  | [] => s
  | t :: rest => s.take t rest

def dropUntil (stop : Token → Bool) (s : State) : State :=
  match _h : s.tokens with
  | [] => s
  | t :: rest => if stop t then s else dropUntil stop (s.take t rest)
termination_by s.tokens.length
decreasing_by simp [take, _h]

end State

abbrev ParseM := StateM State

def current : ParseM Token :=
  return (← get).current

def advance : ParseM Unit :=
  modify State.advance

def at_ (want : Want) : ParseM Bool :=
  return want.accepts (← get).current

def atEnd : ParseM Bool :=
  return (← get).tokens.isEmpty

def atType : ParseM Bool :=
  return typeSync.has (← get).current

/-- Reports an error, unless the end of the source has been reported. -/
def report (line : Nat) (cause : SyntaxError) : ParseM Recovery := do
  let s ← get
  unless s.ended do
    set { s with errors := s.errors.push ⟨line, cause⟩ }
  return ⟨⟨line, cause⟩, s.current⟩

def unexpectedEnd : ParseM Recovery := do
  let s ← get
  let recovery ← report s.endLine .unexpectedEnd
  modify fun s => { s with ended := true }
  return recovery

def keep (recovery : Recovery) : ParseM Unit :=
  modify fun s => { s with recovery := s.recovery <|> some recovery }

/-- Takes a token that `want` accepts. If the current token can follow, the wanted one is missing
    and none is taken; otherwise the current token is illegal, and tokens are dropped up to the
    wanted one, which is taken, or to one in `sync`. -/
def tryExpect (want : Want) (sync : Sync) : ParseM (Option Token × Option Recovery) := do
  let t ← current
  if want.accepts t then
    advance
    return (some t, none)
  else if ← atEnd then
    return (none, some (← unexpectedEnd))
  else if sync.has t then
    return (none, some (← report (← get).lastLine (.missing want.name)))
  else
    let recovery ← report t.line (.illegal t.lexeme.text)
    advance
    modify (State.dropUntil fun t => want.accepts t || sync.has t)
    let resume ← current
    let recovery := { recovery with resume := resume }
    if want.accepts resume then
      advance
      return (some resume, some recovery)
    else
      if ← atEnd then
        let _ ← unexpectedEnd
      return (none, some recovery)

def expect (want : Want) (sync : Sync) : ParseM (Option Token) := do
  let (t, recovery) ← tryExpect want sync
  if let some recovery := recovery then
    keep recovery
  return t

/-- Reports the current token as illegal and drops tokens, at least one, up to one in `sync`. -/
def skip (sync : Sync) : ParseM Unit := do
  if ← atEnd then
    keep (← unexpectedEnd)
  else
    let t ← current
    let recovery ← report t.line (.illegal t.lexeme.text)
    advance
    modify (State.dropUntil sync.has)
    keep { recovery with resume := ← current }

/-- The rules that may be reached again within a rule. -/
structure Rules where
  expression : ParseM Expr
  arguments : ParseM (List Expr)
  unary : ParseM Expr
  /-- A chain of operators that bind at least as tightly as the given precedence. -/
  binary : Nat → ParseM Expr
  chain : Nat → Expr → ParseM Expr
  statement : ParseM Stmt
  statements : ParseM (List Stmt)
  localVars : ParseM (List VarDecl)
  moreParams : ParseM (List Param)
  decls : ParseM (List Decl)

/-- `ID`, `ID [ expression ]` or `ID ( arguments )`, after its name. -/
def afterName (inner : Rules) (id : Ident) : ParseM Expr := do
  if ← at_ (.punct .lbracket) then
    advance
    let subscript ← inner.expression
    let _ ← expect (.punct .rbracket) exprSync
    return .index id subscript
  else if ← at_ (.punct .lparen) then
    advance
    let args ← if ← at_ (.punct .rparen) then pure [] else inner.arguments
    let _ ← expect (.punct .rparen) exprSync
    return .call id args
  else
    return .name id

def factor (inner : Rules) : ParseM Expr := do
  let t ← current
  match t.terminal with
  | .punct .lparen =>
    advance
    let e ← inner.expression
    let _ ← expect (.punct .rparen) exprSync
    return e
  | .number n =>
    advance
    return .number n
  | .ident name =>
    advance
    afterName inner ⟨name, t.line⟩
  | .eof =>
    keep (← unexpectedEnd)
    return .missing
  | _ =>
    if exprSync.has t then
      keep (← report (← get).lastLine (.missing "expression"))
    else
      keep (← report t.line (.illegal t.lexeme.text))
      advance
    return .missing

def unaryOp? (t : Token) : Option UnaryOp :=
  match t.terminal with
  | .punct p => p.unaryOp?
  | _ => none

def binaryOp? (t : Token) : Option BinaryOp :=
  match t.terminal with
  | .punct p => p.binaryOp?
  | _ => none

def unary (inner : Rules) : ParseM Expr := do
  let t ← current
  match unaryOp? t with
  | some op =>
    advance
    let operand ← inner.unary
    return .unary op t.line operand
  | none => factor inner

def chain (inner : Rules) (least : Nat) (left : Expr) : ParseM Expr := do
  let t ← current
  match binaryOp? t with
  | some op =>
    if least ≤ op.precedence then
      advance
      let right ← inner.binary (op.precedence + 1)
      inner.chain least (.binary op t.line left right)
    else
      return left
  | none => return left

def binary (inner : Rules) (least : Nat) : ParseM Expr := do
  let left ← unary inner
  chain inner least left

/-- A chain of operators, or an assignment to one. Assignment binds to the right. -/
def expression (inner : Rules) : ParseM Expr := do
  let target ← binary inner 1
  let t ← current
  if ← at_ (.punct .assign) then
    advance
    let value ← inner.expression
    return .assign t.line target value
  else
    return target

def arguments (inner : Rules) : ParseM (List Expr) := do
  let first ← expression inner
  if ← at_ (.punct .comma) then
    advance
    return first :: (← inner.arguments)
  else
    return [first]

def typeName (t : Token) : TypeName :=
  if (Want.keyword .void).accepts t then .void else .int

def numeral? (t : Token) : Option Numeral :=
  match t.terminal with
  | .number n => some n
  | _ => none

def ident (t : Token) : Ident :=
  ⟨t.lexeme.text, t.line⟩

/-- `[ NUM ] ;` or `;`, after the type and the name of a variable. -/
def varDecl (type : TypeName) (id : Ident) (sync : Sync) : ParseM VarDecl := do
  let extent ←
    if ← at_ (.punct .lbracket) then
      advance
      let size ← expect .number (sync ++ [.punct .rbracket])
      let _ ← expect (.punct .rbracket) sync
      pure (Extent.array (size.bind numeral?))
    else
      pure Extent.scalar
  let _ ← expect (.punct .semicolon) sync
  return ⟨type, id, extent⟩

/-- The variables declared at the start of a block. Tokens dropped before a name are reported, but
    only a name that is absent is kept as a recovery. -/
def localVars (inner : Rules) : ParseM (List VarDecl) := do
  if ← atType then
    let type := typeName (← current)
    advance
    match ← tryExpect .ident stmtSync with
    | (some name, _) =>
      let var ← varDecl type (ident name) stmtSync
      return var :: (← inner.localVars)
    | (none, recovery) =>
      if let some recovery := recovery then
        keep recovery
      if ← at_ (.punct .semicolon) then
        advance
      inner.localVars
  else
    return []

def compound (inner : Rules) : ParseM (List VarDecl × List Stmt) := do
  let _ ← expect (.punct .lbrace) stmtSync
  let vars ← inner.localVars
  let body ← inner.statements
  let _ ← expect (.punct .rbrace) stmtSync
  return (vars, body)

/-- `( expression )`, after `if` or `while`. -/
def condition (inner : Rules) : ParseM Expr := do
  let _ ← expect (.punct .lparen) exprSync
  let e ← inner.expression
  let _ ← expect (.punct .rparen) stmtSync
  return e

def selection (inner : Rules) : ParseM Stmt := do
  let line := (← current).line
  advance
  let e ← condition inner
  let body ← inner.statement
  if ← at_ (.keyword .else_) then
    advance
    return .ifElse line e body (← inner.statement)
  else
    return .ifThen line e body

def iteration (inner : Rules) : ParseM Stmt := do
  let line := (← current).line
  advance
  let e ← condition inner
  return .loop line e (← inner.statement)

def returning (inner : Rules) : ParseM Stmt := do
  let line := (← current).line
  advance
  if ← at_ (.punct .semicolon) then
    advance
    return .ret line none
  else
    let e ← inner.expression
    let _ ← expect (.punct .semicolon) stmtSync
    return .ret line (some e)

def jump (stmt : Nat → Stmt) : ParseM Stmt := do
  let line := (← current).line
  advance
  let _ ← expect (.punct .semicolon) stmtSync
  return stmt line

def expressionStmt (inner : Rules) : ParseM Stmt := do
  let e ← expression inner
  let _ ← expect (.punct .semicolon) stmtSync
  return .expr e

def startsExpression (t : Token) : Bool :=
  match t.terminal with
  | .ident _ | .number _ | .punct .lparen | .punct .minus | .punct .bang => true
  | _ => false

def statement (inner : Rules) : ParseM Stmt := do
  let t ← current
  match t.terminal with
  | .punct .lbrace =>
    let (vars, body) ← compound inner
    return .block vars body
  | .keyword .if_ => selection inner
  | .keyword .while_ => iteration inner
  | .keyword .return_ => returning inner
  | .keyword .break_ => jump .leave
  | .keyword .continue_ => jump .again
  | .punct .semicolon =>
    advance
    return .empty
  | _ =>
    if startsExpression t then
      expressionStmt inner
    else
      skip stmtSync
      return .skipped

/-- The statements up to the end of a block. A statement that takes no token would be skipped. -/
def statements (inner : Rules) : ParseM (List Stmt) := do
  if (← at_ (.punct .rbrace)) || (← atEnd) then
    return []
  else
    let before := (← get).taken
    let stmt ← statement inner
    if (← get).taken = before then
      skip stmtSync
    return stmt :: (← inner.statements)

def paramOf (type : TypeName) : ParseM Param := do
  match ← expect .ident paramSync with
  | none => return .unnamed type
  | some name =>
    if ← at_ (.punct .lbracket) then
      advance
      let _ ← expect (.punct .rbracket) paramSync
      return .named type (ident name) true
    else
      return .named type (ident name) false

def param : ParseM (Option Param) := do
  let t ← current
  if typeSync.has t then
    advance
    return some (← paramOf (typeName t))
  else
    if paramSync.has t || (← atEnd) then
      keep (← report (← get).lastLine (.missing "int"))
    else
      skip paramSync
    return none

def moreParams (inner : Rules) : ParseM (List Param) := do
  if ← at_ (.punct .comma) then
    advance
    let first ← param
    return first.toList ++ (← inner.moreParams)
  else
    return []

def params (inner : Rules) : ParseM Params := do
  if ← at_ (.punct .rparen) then
    keep (← report (← current).line (.missing "void"))
    return .list []
  else if ← at_ (.keyword .void) then
    advance
    if ← at_ (.punct .rparen) then
      return .void
    else
      let first ← paramOf .void
      return .list (first :: (← inner.moreParams))
  else
    let first ← param
    return .list (first.toList ++ (← inner.moreParams))

def function (inner : Rules) (type : TypeName) (id : Ident) : ParseM FunDecl := do
  advance
  let params ← params inner
  let _ ← expect (.punct .rparen) (stmtSync ++ [.punct .lbrace])
  let (vars, body) ← compound inner
  return ⟨type, id, params, vars, body⟩

/-- A declaration, from its type on. One without a name is dropped. -/
def decl (inner : Rules) : ParseM (Option Decl) := do
  let type := typeName (← current)
  advance
  let t ← current
  if Want.ident.accepts t then
    advance
    if ← at_ (.punct .lparen) then
      return some (.fn (← function inner type (ident t)))
    else
      return some (.var (← varDecl type (ident t) declSync))
  else
    let _ ← expect .ident declSync
    if ← at_ (.punct .semicolon) then
      advance
    return none

def decls (inner : Rules) : ParseM (List Decl) := do
  if ← atEnd then
    return []
  else if ← atType then
    let first ← decl inner
    return first.toList ++ (← inner.decls)
  else
    skip typeSync
    inner.decls

/-- The rules for one more token. -/
def Rules.next (inner : Rules) : Rules where
  expression := Parser.expression inner
  arguments := Parser.arguments inner
  unary := Parser.unary inner
  binary := Parser.binary inner
  chain := Parser.chain inner
  statement := Parser.statement inner
  statements := Parser.statements inner
  localVars := Parser.localVars inner
  moreParams := Parser.moreParams inner
  decls := Parser.decls inner

def Rules.idle : Rules where
  expression := return .missing
  arguments := return []
  unary := return .missing
  binary _ := return .missing
  chain _ left := return left
  statement := return .skipped
  statements := return []
  localVars := return []
  moreParams := return []
  decls := return []

/-- The rules for sources of at most `n` tokens. -/
def rules : Nat → Rules
  | 0 => Rules.idle.next
  | n + 1 => (rules n).next

def source : ParseM Source := do
  if ← atEnd then
    keep (← unexpectedEnd)
  let s ← get
  return ⟨← (rules s.size).decls, s.endLine⟩

end Parser

structure Parsed where
  source : Source
  errors : List (Located SyntaxError)
  recovery : Option Recovery
deriving Repr

namespace Parsed

def ofTokens (stream : TokenStream) : Parsed :=
  let (source, final) := Parser.source.run (Parser.State.start stream)
  ⟨source, final.errors.toList, final.recovery⟩

def diagnostics (p : Parsed) : List Diagnostic :=
  p.errors.map SyntaxError.diagnostic

end Parsed

end MiniC
