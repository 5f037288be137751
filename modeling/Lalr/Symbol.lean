import Lalr.Text

/-!
# Symbols and their numbers

Terminals, nonterminals, productions and states are numbered in the order in which they come up.
Number zero is always reserved: for the end of input, for the symbol that the augmented production
derives, for the augmented production itself, and for the state a parse starts in.
-/

namespace Lalr

abbrev TerminalId := Nat

abbrev NonterminalId := Nat

abbrev ProductionId := Nat

abbrev StateId := Nat

/-- The largest number that a terminal, a nonterminal, a production or a precedence level takes,
and the greatest length of a right-hand side. -/
def numberLimit : Nat := 65535

/-- The terminal that stands for the end of input. -/
def endTerminal : TerminalId := 0

/-- The left-hand side of the augmented production. -/
def startNonterminal : NonterminalId := 0

/-- The augmented production, which derives a whole input with its end. -/
def acceptProduction : ProductionId := 0

/-- The state that a parse starts in. -/
def initialState : StateId := 0

inductive Symbol where
  | terminal (id : TerminalId)
  | nonterminal (id : NonterminalId)
  deriving DecidableEq, Inhabited

def TerminalId.tag (id : TerminalId) : String :=
  if id = endTerminal then "T#End" else "T#" ++ Text.zeroPadded 3 id

def NonterminalId.tag (id : NonterminalId) : String :=
  if id = startNonterminal then "N#Start" else "N#" ++ Text.zeroPadded 3 id

def ProductionId.tag (id : ProductionId) : String :=
  if id = acceptProduction then "P#Accept" else "P#" ++ Text.zeroPadded 3 id

def StateId.tag (id : StateId) : String := "S#" ++ Text.zeroPadded 3 id

def Symbol.tag : Symbol → String
  | .terminal id => TerminalId.tag id
  | .nonterminal id => NonterminalId.tag id

end Lalr
