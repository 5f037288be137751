import Lalr.Automaton.Basic
import Lalr.First

/-!
# Lookaheads

Every item has a set of lookaheads: the terminals that may follow its left-hand side when the item
has been recognised in its state.  Lookaheads flow between items.

* An item with the dot before a nonterminal gives the openings of that nonterminal, in the same
  state, the terminals that can follow it inside the production.  These come up *spontaneously*.
* If nothing need follow the nonterminal, the openings also take the item's own lookaheads.
* The item with the dot moved on, in the state that the symbol leads to, takes the lookaheads of the
  item.

The last two are the *edges* of the flow.  Lookaheads are spread by passes over all edges, in a
fixed order, until a pass changes nothing.
-/

namespace Lalr

/-- The lookaheads of all items, each at the place of the item's number. -/
abbrev Lookaheads := Array TerminalSet

namespace Lookaheads

def ofItem (lookaheads : Lookaheads) (item : Nat) : TerminalSet := lookaheads[item]?.getD ∅

/-- Add lookaheads to an item, and say whether there was a new one among them. -/
def absorb (lookaheads : Lookaheads) (item : Nat) (set : TerminalSet) : Bool × Lookaheads :=
  if (lookaheads.ofItem item).isSuperset set then
    (false, lookaheads)
  else
    (true, lookaheads.modify item (· ∪ set))

end Lookaheads

def Automaton.noLookaheads (automaton : Automaton) : Lookaheads :=
  Array.replicate automaton.itemCount ∅

/-- How lookaheads come up and move on. -/
structure Flow where
  /-- Groups of items, and the lookaheads that come up at each item of the group. -/
  spontaneous : List (List Nat × TerminalSet)
  /-- Pairs of items where the second takes the lookaheads of the first. -/
  edges : List (Nat × Nat)
  deriving DecidableEq

namespace Flow

/-- The numbers of those items that are openings of a nonterminal. -/
def openingItems (g : Grammar) (items : List (Core × Nat)) (n : NonterminalId) : List Nat :=
  items.filterMap fun (core, item) => if core.opens g n then some item else none

/-- The openings in a state of each nonterminal that follows a dot there. -/
def openingTable (g : Grammar) (state : State) : List (NonterminalId × List Nat) :=
  let items := state.items
  (g.followers ∅ state.cores).map fun n => (n, openingItems g items n)

/-- The openings of a nonterminal as a table has them. -/
def tabled (table : List (NonterminalId × List Nat)) (n : NonterminalId) : List Nat :=
  (table.lookup n).getD []

/-- The table is right about every nonterminal that follows a dot. -/
theorem tabled_openingTable {g : Grammar} {state : State} {n : NonterminalId}
    (follows : n ∈ g.followers ∅ state.cores) :
    tabled (openingTable g state) n = openingItems g state.items n := by
  unfold tabled openingTable
  generalize g.followers ∅ state.cores = followers at follows ⊢
  induction followers with
  | nil => cases follows
  | cons head tail ih =>
      rw [List.map_cons, List.lookup_cons]
      by_cases same : n = head
      · simp [same]
      · rw [beq_false_of_ne same]
        exact ih ((List.mem_cons.1 follows).resolve_left same)

/-- The FIRST set of what follows the symbol after the dot. -/
def firstOfRest (g : Grammar) (first : FirstSets) (core : Core) : TerminalSet × Bool :=
  first.ofSuffix (g.right core.production) (core.dot + 1)

/-- What comes up because of one item of a state with the given openings. -/
def spontaneousOf? (g : Grammar) (first : FirstSets) (openings : NonterminalId → List Nat)
    (core : Core) : Option (List Nat × TerminalSet) :=
  (core.nextNonterminal g).map fun n => (openings n, (firstOfRest g first core).1)

/-- The edges from an item to the given openings in its state. -/
def openingEdges (g : Grammar) (first : FirstSets) (openings : NonterminalId → List Nat)
    (core : Core) (item : Nat) : List (Nat × Nat) :=
  match core.nextNonterminal g with
  | none => []
  | some n =>
      if (firstOfRest g first core).2 then (openings n).map (item, ·) else []

/-- The item with the dot moved on, in the state that the symbol after the dot leads to. -/
def movedItem? (g : Grammar) (automaton : Automaton) (state : State) (core : Core) : Option Nat :=
  (core.next g).bind fun symbol =>
    if symbol = .terminal endTerminal then
      none
    else
      (state.transition? symbol).bind fun target =>
        automaton.states[target]?.bind (·.item? core.advance)

/-- The edges from an item: to openings, and then to the item with the dot moved on. -/
def edgesOf (g : Grammar) (first : FirstSets) (automaton : Automaton) (state : State)
    (openings : NonterminalId → List Nat) (core : Core) (item : Nat) : List (Nat × Nat) :=
  openingEdges g first openings core item ++
    ((movedItem? g automaton state core).map (item, ·)).toList

/-- What comes up by itself in a state, in the order of its items. -/
def spontaneousIn (g : Grammar) (first : FirstSets) (state : State) :
    List (List Nat × TerminalSet) :=
  let table := openingTable g state
  state.cores.filterMap (spontaneousOf? g first (tabled table))

/-- The edges from the items of a state, in the order of these items. -/
def edgesFrom (g : Grammar) (first : FirstSets) (automaton : Automaton) (state : State) :
    List (Nat × Nat) :=
  let table := openingTable g state
  state.items.flatMap fun (core, item) => edgesOf g first automaton state (tabled table) core item

/-- The flow of an automaton, in the order of its items. -/
def ofAutomaton (g : Grammar) (first : FirstSets) (automaton : Automaton) : Flow where
  spontaneous := automaton.states.toList.flatMap (spontaneousIn g first)
  edges := automaton.states.toList.flatMap (edgesFrom g first automaton)

/-- The item that a parse starts from, which is followed by the end of input. -/
def startItem? (automaton : Automaton) : Option Nat :=
  automaton.states[initialState]?.bind (·.item? ⟨acceptProduction, 0⟩)

/-- Add lookaheads to the items of a group, one after the other, and count those that grow. -/
def sprout (set : TerminalSet) (group : List Nat) (seeded : Nat × Lookaheads) : Nat × Lookaheads :=
  group.foldl
    (fun (count, lookaheads) item =>
      let (grown, lookaheads) := lookaheads.absorb item set
      (if grown then count + 1 else count, lookaheads))
    seeded

/-- Let the lookaheads that come up by themselves do so, and count how often an item grows. -/
def seed (flow : Flow) (automaton : Automaton) (lookaheads : Lookaheads) : Nat × Lookaheads :=
  let started := match startItem? automaton with
    | some item => lookaheads.modify item (·.insert endTerminal)
    | none => lookaheads
  flow.spontaneous.foldl (fun seeded (group, set) => sprout set group seeded) (0, started)

def relax (changed : Bool) (lookaheads : Lookaheads) (source target : Nat) : Bool × Lookaheads :=
  if source = target then
    (changed, lookaheads)
  else
    let (grown, lookaheads) := lookaheads.absorb target (lookaheads.ofItem source)
    (changed || grown, lookaheads)

/-- Move lookaheads along every edge once, and say whether any item has grown. -/
def pass (flow : Flow) (lookaheads : Lookaheads) : Bool × Lookaheads :=
  flow.edges.foldl
    (fun (changed, lookaheads) (source, target) => relax changed lookaheads source target)
    (false, lookaheads)

/-- The lookaheads after each pass.  The last pass is the first that changes nothing, unless the
bound on their number is met. -/
def passes (flow : Flow) : (bound : Nat) → Lookaheads → List Lookaheads
  | 0, _ => []
  | bound + 1, lookaheads =>
      let (changed, lookaheads) := flow.pass lookaheads
      lookaheads :: if changed then passes flow bound lookaheads else []

end Flow

/-- What became of the lookaheads of an automaton. -/
structure Propagation where
  snapshots : List Lookaheads
  lookaheads : Lookaheads
  edges : Nat
  /-- How often an item has grown by lookaheads that came up spontaneously. -/
  spontaneous : Nat
  deriving DecidableEq

namespace Propagation

/-- The number of passes, including the last one, which changed nothing. -/
def passes (propagation : Propagation) : Nat := propagation.snapshots.length

/-- Spread lookaheads, starting from the given ones.  Every pass but the last adds a terminal to
some item, which bounds the number of passes. -/
def startingFrom (g : Grammar) (first : FirstSets) (automaton : Automaton) (initial : Lookaheads) :
    Propagation :=
  let flow := Flow.ofAutomaton g first automaton
  let (spontaneous, seeded) := flow.seed automaton initial
  let snapshots := flow.passes (automaton.itemCount * g.terminals.size + 1) seeded
  { snapshots
    lookaheads := snapshots.getLastD seeded
    edges := flow.edges.length
    spontaneous }

end Propagation

/-- The lookaheads of a newly built automaton. -/
def Automaton.propagate (automaton : Automaton) (g : Grammar) : Propagation :=
  Propagation.startingFrom g (FirstSets.ofGrammar g) automaton automaton.noLookaheads

end Lalr
