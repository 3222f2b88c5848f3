import MiniC.Command.Settings
import MiniC.Compile
import MiniC.Symbol.Listing
import MiniC.Token.Listing

namespace MiniC

inductive Artifact where
  | listing | assembly | tokens | symbolTable | tree
  | lexicalErrors | syntaxErrors | semanticErrors
deriving DecidableEq, Repr

namespace Artifact

def fileName : Artifact → Text
  | listing => "output.txt"
  | assembly => "armv8_output.s"
  | tokens => "tokens.txt"
  | symbolTable => "symbol_table.txt"
  | tree => "parse_tree.txt"
  | lexicalErrors => "lexical_errors.txt"
  | syntaxErrors => "syntax_errors.txt"
  | semanticErrors => "semantic_errors.txt"

def chosen (s : Settings) : List Artifact :=
  [listing, assembly] ++ (if s.tokens then [tokens] else []) ++
    (if s.symbolTable then [symbolTable] else []) ++ (if s.tree then [tree] else []) ++
    (if s.errorFiles then [lexicalErrors, syntaxErrors, semanticErrors] else [])

def symbolText (detailed : Bool) (symbols : List Symbol) : Text :=
  SymbolListing.render symbols ++
    if detailed then "\n" ++ SymbolListing.renderDetails symbols ++ "\n" else []

/-- The text of an artifact. In place of the assembly of a faulty source stands the report. -/
def text (s : Settings) (c : Compilation) : Artifact → Text
  | listing => c.program.listing
  | assembly => c.assembly.getD (c.report ++ "\n")
  | tokens => TokenListing.ofTokens c.stream.all
  | symbolTable => symbolText s.verbose c.symbols
  | tree => c.tree.render
  | lexicalErrors => Diagnostic.renderAll .lexical c.diagnostics.lexical ++ "\n"
  | syntaxErrors => Diagnostic.renderAll .syntactic c.diagnostics.syntactic ++ "\n"
  | semanticErrors => Diagnostic.renderAll .semantic c.diagnostics.semantic ++ "\n"

end Artifact

end MiniC
