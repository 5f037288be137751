import Lalr.Item

/-!
# Automata

A state of the automaton is a closed set of item cores: a kernel, and what closing adds to it.  The
items of all states are numbered in one sequence, state after state.  A state leads to other states
by its transitions, which are kept in the order in which their symbols come up in the items.
-/

namespace Lalr

/-- A state of the automaton. -/
structure State where
  /-- The cores that determine the state, in ascending order. -/
  kernel : List Core
  /-- The cores that closing adds to the kernel. -/
  added : List Core
  firstItem : Nat
  transitions : List (Symbol × StateId)
  deriving DecidableEq, Inhabited

namespace State

/-- All cores of the state, the kernel first. -/
def cores (state : State) : List Core := state.kernel ++ state.added

/-- The number of the first item behind those of the state. -/
def endItem (state : State) : Nat :=
  state.firstItem + state.kernel.length + state.added.length

/-- The cores of the state with the numbers of their items. -/
def items (state : State) : List (Core × Nat) := state.cores.zipIdx state.firstItem

def kernelItems (state : State) : List (Core × Nat) := state.kernel.zipIdx state.firstItem

def addedItems (state : State) : List (Core × Nat) :=
  state.added.zipIdx (state.firstItem + state.kernel.length)

def item? (state : State) (core : Core) : Option Nat :=
  (state.cores.idxOf? core).map (state.firstItem + ·)

def transition? (state : State) (symbol : Symbol) : Option StateId :=
  state.transitions.lookup symbol

def shifts (state : State) : List (TerminalId × StateId) :=
  state.transitions.filterMap fun
    | (.terminal t, target) => some (t, target)
    | (.nonterminal _, _) => none

def gotos (state : State) : List (NonterminalId × StateId) :=
  state.transitions.filterMap fun
    | (.nonterminal n, target) => some (n, target)
    | (.terminal _, _) => none

end State

/-- The automaton of a grammar: its states, each at the place of its number. -/
structure Automaton where
  states : Array State
  deriving DecidableEq, Inhabited

namespace Automaton

/-- The number of items in all states. -/
def itemCount (automaton : Automaton) : Nat :=
  (automaton.states.back?.map (·.endItem)).getD 0

/-- The state in which the end of input is accepted. -/
def accepting? (automaton : Automaton) (g : Grammar) : Option StateId :=
  automaton.states[initialState]?.bind (·.transition? (.nonterminal g.start))

end Automaton

end Lalr
