import Lalr.Symbol

/-!
# Grammars

A grammar is a context-free grammar whose symbols have names.  Terminals, nonterminals and
productions stand in arrays at the place of their number.  Place zero of each array is reserved:
`$end`, `$start` and the production `$start -> S $end`, where `S` is the start symbol.
-/

namespace Lalr

/-- How operators of one precedence level group. -/
inductive Associativity where
  | left
  | right
  | nonassoc
  deriving DecidableEq, Inhabited

def Associativity.word : Associativity → String
  | .left => "left"
  | .right => "right"
  | .nonassoc => "nonassoc"

/-- A binding strength.  A larger level binds tighter. -/
structure Precedence where
  level : Nat
  associativity : Associativity
  deriving DecidableEq, Inhabited

structure Terminal where
  name : String
  precedence : Option Precedence := none
  valueType : Option String := none
  deriving DecidableEq, Inhabited

structure Nonterminal where
  name : String
  valueType : Option String := none
  deriving DecidableEq, Inhabited

/-- A production.  When the rule names a terminal to borrow its precedence from, `borrowed` holds
the precedence of that terminal, which may be none. -/
structure Production where
  left : NonterminalId
  right : Array Symbol
  borrowed : Option (Option Precedence) := none
  deriving DecidableEq, Inhabited

/-- A grammar with its productions grouped by their left-hand sides. -/
structure Grammar where
  terminals : Array Terminal
  nonterminals : Array Nonterminal
  productions : Array Production
  start : NonterminalId
  groups : Array (List ProductionId)
  deriving DecidableEq, Inhabited

namespace Grammar

/-- The productions with left-hand side `n`, in the order of their numbers. -/
def alternatives (g : Grammar) (n : NonterminalId) : List ProductionId :=
  g.groups[n]?.getD []

/-- The number of the terminal with the given name, `$end` included. -/
def terminalNamed? (g : Grammar) (name : String) : Option TerminalId :=
  g.terminals.findIdx? (·.name == name)

/-- The number of the nonterminal with the given name, `$start` included. -/
def nonterminalNamed? (g : Grammar) (name : String) : Option NonterminalId :=
  g.nonterminals.findIdx? (·.name == name)

def symbolNamed? (g : Grammar) (name : String) : Option Symbol :=
  match g.terminalNamed? name with
  | some t => some (.terminal t)
  | none => (g.nonterminalNamed? name).map .nonterminal

def terminalName (g : Grammar) (t : TerminalId) : String :=
  (g.terminals[t]?.map (·.name)).getD ""

def nonterminalName (g : Grammar) (n : NonterminalId) : String :=
  (g.nonterminals[n]?.map (·.name)).getD ""

def symbolName (g : Grammar) : Symbol → String
  | .terminal t => g.terminalName t
  | .nonterminal n => g.nonterminalName n

def right (g : Grammar) (p : ProductionId) : Array Symbol :=
  match g.productions[p]? with
  | some production => production.right
  | none => #[]

def terminalPrecedence (g : Grammar) (t : TerminalId) : Option Precedence :=
  g.terminals[t]?.bind (·.precedence)

/-- The terminal among symbols that stands furthest to the right. -/
def lastTerminal? (symbols : List Symbol) : Option TerminalId :=
  symbols.reverse.findSome? fun
    | .terminal t => some t
    | .nonterminal _ => none

/-- The precedence of a production: the borrowed one, even if it is none, and otherwise that of the
last terminal on the right-hand side. -/
def precedenceOf (g : Grammar) (production : Production) : Option Precedence :=
  match production.borrowed with
  | some precedence => precedence
  | none => (lastTerminal? production.right.toList).bind g.terminalPrecedence

def productionPrecedence (g : Grammar) (p : ProductionId) : Option Precedence :=
  g.productions[p]?.bind g.precedenceOf

end Grammar

end Lalr
