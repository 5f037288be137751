import Lalr.Symbol

/-!
# Parse tables

The row of a state says what to do on each terminal and where each nonterminal leads.  A row may
have a default reduction, which is done on every terminal without an action of its own.  A conflict
record tells which actions competed for one place of the table and how the choice was made.
-/

namespace Lalr

/-- What a parser does in a state on a terminal. -/
inductive Action where
  | shift (target : StateId)
  | reduce (production : ProductionId)
  | accept
  | error
  deriving DecidableEq, Inhabited

/-- Which kinds of actions compete in a conflict. -/
inductive ConflictKind where
  | shiftReduce
  | reduceReduce
  deriving DecidableEq, Inhabited

/-- The rule by which a conflict was decided. -/
inductive Justification where
  /-- The lookahead binds tighter than the production. -/
  | shiftHigherPrecedence
  /-- The production binds tighter than the lookahead. -/
  | reduceHigherPrecedence
  | leftAssociative
  | rightAssociative
  /-- The level is not associative; the shift is taken all the same. -/
  | nonAssociative
  /-- The lookahead or the production has no precedence; the shift is taken. -/
  | missingPrecedence
  /-- The production with the least number is taken. -/
  | firstDeclaredProduction
  deriving DecidableEq, Inhabited

/-- Whether the choice was made by default and not by a precedence declaration. -/
def Justification.isUnresolved : Justification → Bool
  | .nonAssociative | .missingPrecedence | .firstDeclaredProduction => true
  | _ => false

/-- A conflict between the actions of one state on one terminal. -/
structure Conflict where
  state : StateId
  lookahead : TerminalId
  kind : ConflictKind
  /-- The competing actions, the shift first and reductions by number. -/
  actions : List Action
  resolution : Action
  justification : Justification
  deriving DecidableEq, Inhabited

def Conflict.isUnresolved (conflict : Conflict) : Bool := conflict.justification.isUnresolved

/-- The part of a table for one state. -/
structure Row where
  /-- Actions by ascending terminal. -/
  actions : List (TerminalId × Action)
  /-- Targets of nonterminals, in the order of the transitions. -/
  gotos : List (NonterminalId × StateId)
  /-- The reduction done on every terminal without an action. -/
  defaultReduction : Option ProductionId
  deriving DecidableEq, Inhabited

def Row.action (row : Row) (t : TerminalId) : Action :=
  match row.actions.lookup t, row.defaultReduction with
  | some action, _ => action
  | none, some p => .reduce p
  | none, none => .error

/-- A parse table: the rows of the states, each at the place of its number, and the conflicts met
in filling them, by state and then by terminal. -/
structure Table where
  rows : Array Row
  conflicts : List Conflict
  deriving DecidableEq, Inhabited

namespace Table

def action (table : Table) (state : StateId) (t : TerminalId) : Action :=
  match table.rows[state]? with
  | some row => row.action t
  | none => .error

def goto? (table : Table) (state : StateId) (n : NonterminalId) : Option StateId :=
  table.rows[state]?.bind (·.gotos.lookup n)

def unresolved (table : Table) : List Conflict := table.conflicts.filter (·.isUnresolved)

end Table

end Lalr
