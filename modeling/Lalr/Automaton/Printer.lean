import Lalr.Grammar.Printer
import Lalr.Lookahead
import Lalr.Table.Basic

/-!
# Automata and parse tables as text

Each state of an automaton is written with its kernel, the items added to it and its transitions,
one in a line.  An item shows its lookaheads if it has any.

A row of a table is written in up to three sections, for its actions, its default reduction and its
gotos.  Rows of different states are set apart by an empty line.  A conflict is written in one line.
-/

namespace Lalr

/-! ## Automata -/

def renderItem (g : Grammar) (core : Core) (lookaheads : TerminalSet) : String :=
  if lookaheads.isEmpty then
    core.render g
  else
    core.render g ++ "  " ++ g.renderTerminals lookaheads

def State.render (g : Grammar) (lookaheads : Lookaheads) (state : State) (id : StateId) :
    List String :=
  s!"#### State {id}" ::
    state.kernelItems.map (fun (core, item) =>
      "  " ++ renderItem g core (lookaheads.ofItem item)) ++
    state.addedItems.map (fun (core, item) =>
      "  + " ++ renderItem g core (lookaheads.ofItem item)) ++
    state.transitions.map fun (symbol, target) => s!"  {g.symbolName symbol} => {target}"

def Automaton.render (automaton : Automaton) (g : Grammar) (lookaheads : Lookaheads) : String :=
  Text.lines (automaton.states.toList.zipIdx.flatMap fun (state, id) =>
    state.render g lookaheads id)

/-! ## Tables -/

def Action.render (g : Grammar) : Action → String
  | .shift target => s!"shift({target})"
  | .reduce p => s!"reduce({g.renderProductionId p})"
  | .accept => "accept"
  | .error => "error"

def ConflictKind.words : ConflictKind → String
  | .shiftReduce => "shift/reduce"
  | .reduceReduce => "reduce/reduce"

def Justification.words : Justification → String
  | .shiftHigherPrecedence => "lookahead has higher precedence"
  | .reduceHigherPrecedence => "production has higher precedence"
  | .leftAssociative => "left associative"
  | .rightAssociative => "right associative"
  | .nonAssociative => "non-associative, shift chosen"
  | .missingPrecedence => "no precedence, shift chosen"
  | .firstDeclaredProduction => "first declared production chosen"

def Conflict.render (g : Grammar) (conflict : Conflict) : String :=
  let place := s!"state {conflict.state} on {g.terminalName conflict.lookahead}"
  let actions := " vs ".intercalate (conflict.actions.map (·.render g))
  let choice := s!"{conflict.resolution.render g} ({conflict.justification.words})"
  s!"{conflict.kind.words} conflict in {place}: {actions}; chose {choice}"

/-- Entries under a heading, which is left out where there are none. -/
def headed (heading : String) (entries : List String) : List String :=
  if entries.isEmpty then [] else heading :: entries

def Row.render (g : Grammar) (row : Row) : List String :=
  headed "## actions"
      (row.actions.map fun (t, action) => s!"- {g.terminalName t} => {action.render g}") ++
    headed "## default"
      (row.defaultReduction.map fun p => s!"- reduce({g.renderProductionId p})").toList ++
    headed "## gotos"
      (row.gotos.map fun (n, target) => s!"- {g.nonterminalName n} => goto({target})")

def Table.render (table : Table) (g : Grammar) : String :=
  "\n".intercalate (table.rows.toList.zipIdx.map fun (row, id) =>
    Text.lines (s!"#### State {id}" :: row.render g))

end Lalr
