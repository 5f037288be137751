import Std.Data.TreeMap
import Lalr.Automaton.Basic
import Lalr.WorkQueue

/-!
# Building the automaton of a grammar

The automaton starts from the augmented production with the dot in front.  States wait in a queue
until their transitions are found; the kernel that a transition leads to is looked up among the
known ones, and becomes a new state, with the next free number, if it is not among them.  States are
therefore numbered breadth first: by the state they were found from, and then by the order in which
the symbols follow a dot there.

Nothing lies beyond the end of input, so a dot is never moved across `$end`.
-/

namespace Lalr

/-- An automaton in the making. -/
structure Builder where
  states : Array State
  itemCount : Nat
  kernels : Std.TreeMap (List Core) StateId
  queue : WorkQueue StateId

namespace Builder

def empty : Builder := ⟨#[], 0, ∅, WorkQueue.empty⟩

/-- The state with the given kernel, which is added if there is none. -/
def intern (g : Grammar) (kernel : List Core) (builder : Builder) : StateId × Builder :=
  match builder.kernels[kernel]? with
  | some id => (id, builder)
  | none =>
      let id := builder.states.size
      let added := g.expansion g.nonterminals.size ∅ kernel
      let state : State := ⟨kernel, added, builder.itemCount, []⟩
      (id, {
        states := builder.states.push state
        itemCount := state.endItem
        kernels := builder.kernels.insert kernel id
        queue := (builder.queue.push id).2 })

/-- Find the states that moves across the given symbols lead to. -/
def internAll (g : Grammar) (moves : List (Symbol × Core)) :
    List Symbol → Builder → List (Symbol × StateId) × Builder
  | [], builder => ([], builder)
  | symbol :: rest, builder =>
      let (target, builder) := builder.intern g (movesAcross moves symbol)
      let (transitions, builder) := internAll g moves rest builder
      ((symbol, target) :: transitions, builder)

/-- The symbols other than `$end` that can be moved across, in the order in which they come up. -/
def outgoing (moves : List (Symbol × Core)) : List Symbol :=
  ((moves.map (·.1)).filter (· ≠ .terminal endTerminal)).eraseDups

/-- Find the transitions of a state. -/
def expand (g : Grammar) (id : StateId) (builder : Builder) : Builder :=
  match builder.states[id]? with
  | none => builder
  | some state =>
      let moves := g.moves state.cores
      let (transitions, builder) := internAll g moves (outgoing moves) builder
      { builder with states := builder.states.modify id fun state => { state with transitions } }

/-- Expand the states of the queue until none waits, at most `bound` of them. -/
def run (g : Grammar) : (bound : Nat) → Builder → Builder
  | 0, builder => builder
  | bound + 1, builder =>
      match builder.queue.pop with
      | none => builder
      | some (id, queue) => run g bound (expand g id { builder with queue })

def start (g : Grammar) : Builder := (empty.intern g [⟨acceptProduction, 0⟩]).2

end Builder

/-- The number of cores over the productions of a grammar. -/
def Grammar.coreCount (g : Grammar) : Nat :=
  g.productions.foldl (fun count production => count + production.right.size + 1) 0

/-- The automaton of a grammar.  A kernel is a set of cores, so no more states can come up than
there are such sets. -/
def Automaton.build (g : Grammar) : Automaton :=
  ⟨((Builder.start g).run g (1 <<< g.coreCount)).states⟩

end Lalr
