import Lalr.Grammar.Basic
import Lalr.Parser.Machine
import Lalr.Table.Basic

/-!
# Parsing with a generated table

A generated table answers a parser by state and symbol.  Terminals, and the end of input, are looked
up among the actions of a row; nonterminals among its gotos.  The grammar supplies the left-hand
side and the length of a production that is reduced.
-/

namespace Lalr

namespace Table

def respond (g : Grammar) : Action → Parser.Response StateId Symbol ProductionId
  | .shift target => .shift target
  | .reduce p =>
      match g.productions[p]? with
      | some production => .reduce p (.nonterminal production.left) production.right.size
      | none => .refuse .unexpectedSymbol
  | .accept => .accept
  | .error => .refuse .unexpectedSymbol

/-- The answer of a row on a symbol, or on the end of input. -/
def rowResponse (g : Grammar) (row : Row) :
    Option Symbol → Parser.Response StateId Symbol ProductionId
  | none => respond g (row.action endTerminal)
  | some (.terminal t) => respond g (row.action t)
  | some (.nonterminal n) =>
      match row.gotos.lookup n with
      | some target => .shift target
      | none => .refuse .unexpectedSymbol

/-- A generated table as a table of actions. -/
def toActionTable (table : Table) (g : Grammar) :
    Parser.ActionTable StateId Symbol ProductionId where
  initial := initialState
  action state lookahead :=
    match table.rows[state]? with
    | some row => rowResponse g row lookahead
    | none => .refuse .incorrectState
  expected state :=
    match table.rows[state]? with
    | some row => (row.actions.filter (·.2 ≠ .error)).map fun (t, _) => .terminal t
    | none => []

end Table

end Lalr
