import Lalr.Symbol
import Lalr.Text

/-!
# What can be wrong with a grammar

A definition is refused for one of the reasons below.  Reasons that concern a rule name it by its
production number.
-/

namespace Lalr

inductive GrammarError where
  | undeclaredSymbol (name : String) (production : ProductionId)
  | undeclaredLeft (name : String) (production : ProductionId)
  | terminalOnLeft (name : String) (production : ProductionId)
  | missingStartSymbol
  | undefinedStartSymbol (name : String)
  | noProductions (name : String)
  | duplicateSymbol (name : String)
  | duplicateProduction (production previous : ProductionId)
  | reservedName (name : String)
  | invalidName (name : String)
  | duplicatePrecedence (name : String)
  | unknownPrecedenceSymbol (name : String)
  | unknownSymbol (name : String)
  | duplicateValueType (name : String)
  | tooManySymbols (name : String)
  | tooManyProductions
  | productionTooLong (production : ProductionId)
  | tooManyPrecedenceLevels
  deriving DecidableEq, Inhabited

def GrammarError.message : GrammarError → String
  | .undeclaredSymbol name production => s!"undeclared symbol `{name}' in production #{production}"
  | .undeclaredLeft name production =>
      s!"undeclared left-hand side `{name}' in production #{production}"
  | .terminalOnLeft name production =>
      s!"the terminal `{name}' cannot be the left-hand side of production #{production}"
  | .missingStartSymbol => "the grammar has no nonterminal to start from"
  | .undefinedStartSymbol name => s!"the start symbol `{name}' is not a declared nonterminal"
  | .noProductions name => s!"the nonterminal `{name}' has no productions"
  | .duplicateSymbol name => s!"the symbol `{name}' has already been declared"
  | .duplicateProduction production previous =>
      s!"production #{production} duplicates production #{previous}"
  | .reservedName name => s!"the symbol name `{name}' is reserved"
  | .invalidName name => s!"invalid symbol name: {Text.quoted name}"
  | .duplicatePrecedence name => s!"the precedence of `{name}' is declared twice"
  | .unknownPrecedenceSymbol name =>
      s!"precedence refers to `{name}', which is not a declared terminal"
  | .unknownSymbol name => s!"unknown symbol `{name}'"
  | .duplicateValueType name => s!"the value type of `{name}' is declared twice"
  | .tooManySymbols name => s!"too many symbols: cannot declare `{name}'"
  | .tooManyProductions => "too many productions"
  | .productionTooLong production =>
      s!"the right-hand side of production #{production} is too long"
  | .tooManyPrecedenceLevels => "too many precedence levels"

end Lalr
