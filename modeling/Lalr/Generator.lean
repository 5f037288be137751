import Lalr.Automaton.Build
import Lalr.Table.Build

/-!
# Generating a parser

From a grammar come its automaton, the lookaheads of the automaton's items, the parse table and the
remarks on all of them.

A grammar that yields a table may still deserve a remark: on a conflict and how it was decided, on a
production that is never reduced, on a terminal that no production uses.  A conflict that precedence
declarations decide is worth a note, all else a warning.
-/

namespace Lalr

inductive Severity where
  | note
  | warning
  deriving DecidableEq, Inhabited

/-- A remark on a grammar. -/
inductive Diagnostic where
  | conflict (record : Conflict)
  | deadProduction (production : ProductionId)
  | unusedTerminal (terminal : TerminalId)
  deriving DecidableEq, Inhabited

namespace Diagnostic

def severity : Diagnostic → Severity
  | .conflict record => if record.isUnresolved then .warning else .note
  | .deadProduction _ | .unusedTerminal _ => .warning

/-- The productions with a reduction item that has lookaheads. -/
def reducedProductions (g : Grammar) (automaton : Automaton) (lookaheads : Lookaheads) : IdSet :=
  automaton.states.foldl
    (fun set state =>
      (state.reductions g lookaheads).foldl
        (fun set (p, terminals) => if terminals.isEmpty then set else set.insert p)
        set)
    ∅

def usedTerminals (g : Grammar) : TerminalSet :=
  g.productions.foldl
    (fun set production =>
      production.right.foldl
        (fun set symbol =>
          match symbol with
          | .terminal t => set.insert t
          | .nonterminal _ => set)
        set)
    ∅

/-- All remarks: conflicts, then dead productions by number, then unused terminals by number.  The
augmented production is not a subject of remarks. -/
def collect (g : Grammar) (automaton : Automaton) (lookaheads : Lookaheads) (table : Table) :
    List Diagnostic :=
  let reduced := reducedProductions g automaton lookaheads
  let used := usedTerminals g
  let dead := (List.range g.productions.size).filter fun p =>
    p ≠ acceptProduction && !reduced.contains p
  let unused := (List.range g.terminals.size).filter fun t => !used.contains t
  table.conflicts.map .conflict ++ dead.map .deadProduction ++ unused.map .unusedTerminal

end Diagnostic

/-- Everything that is generated for one grammar. -/
structure Output where
  automaton : Automaton
  propagation : Propagation
  table : Table
  diagnostics : List Diagnostic
  deriving DecidableEq

/-- Generate the parser of a grammar.  With default reductions, a state whose only actions are one
reduction does it on every terminal. -/
def Grammar.generate (g : Grammar) (defaultReductions : Bool) : Output :=
  let automaton := Automaton.build g
  let propagation := automaton.propagate g
  let table := Table.ofAutomaton g defaultReductions automaton propagation.lookaheads
  let diagnostics := Diagnostic.collect g automaton propagation.lookaheads table
  { automaton, propagation, table, diagnostics }

end Lalr
