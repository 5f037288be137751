import Lalr.Lookahead
import Lalr.Table.Basic

/-!
# Filling a parse table

In a state, a terminal may be shifted, and productions may be reduced on it.  Where more than one
action is possible, the production with the least number stands for all reductions, and a shift
against it is decided by precedence.  Every such choice is recorded.
-/

namespace Lalr

structure Candidates where
  shift : Option Action
  /-- Productions in ascending order. -/
  reductions : List ProductionId
  deriving DecidableEq, Inhabited

/-- The reduction items of a state, as productions with their lookaheads. -/
def State.reductions (g : Grammar) (lookaheads : Lookaheads) (state : State) :
    List (ProductionId × TerminalSet) :=
  (state.items.filter fun (core, _) => core.isReduction g).map fun (core, item) =>
    (core.production, lookaheads.ofItem item)

namespace Table

/-- Put a number into an ascending list, unless it is there. -/
def insertNumber (number : Nat) : List Nat → List Nat
  | [] => [number]
  | head :: tail =>
      if number < head then
        number :: head :: tail
      else if number = head then
        head :: tail
      else
        head :: insertNumber number tail

/-- The shift of a state on a terminal.  In the accepting state the end of input is accepted. -/
def shiftOn? (accepting : Bool) (state : State) (t : TerminalId) : Option Action :=
  if accepting && t == endTerminal then
    some .accept
  else
    (state.transition? (.terminal t)).map .shift

/-- The productions that can be reduced on a terminal, in ascending order. -/
def reductionsOn (reductions : List (ProductionId × TerminalSet)) (t : TerminalId) :
    List ProductionId :=
  ((reductions.filter (·.2.contains t)).map (·.1)).foldr insertNumber []

/-- The terminals on which a state can do anything. -/
def activeTerminals (accepting : Bool) (state : State)
    (reductions : List (ProductionId × TerminalSet)) : TerminalSet :=
  let shifts := IdSet.ofList (state.shifts.map (·.1))
  let accepted := if accepting then shifts.insert endTerminal else shifts
  reductions.foldl (fun set (_, lookaheads) => set ∪ lookaheads) accepted

def resolve (g : Grammar) (t : TerminalId) (shift : Action) (p : ProductionId) :
    Action × Justification :=
  match g.terminalPrecedence t, g.productionPrecedence p with
  | some ofTerminal, some ofProduction =>
      if ofProduction.level < ofTerminal.level then
        (shift, .shiftHigherPrecedence)
      else if ofTerminal.level < ofProduction.level then
        (.reduce p, .reduceHigherPrecedence)
      else
        match ofTerminal.associativity with
        | .left => (.reduce p, .leftAssociative)
        | .right => (shift, .rightAssociative)
        | .nonassoc => (shift, .nonAssociative)
  | _, _ => (shift, .missingPrecedence)

/-- The record of a choice between reductions. -/
def reduceConflict (id : StateId) (t : TerminalId) (least : ProductionId)
    (reductions : List ProductionId) : Conflict where
  state := id
  lookahead := t
  kind := .reduceReduce
  actions := reductions.map .reduce
  resolution := .reduce least
  justification := .firstDeclaredProduction

/-- The record of a choice between a shift and a reduction. -/
def shiftConflict (g : Grammar) (id : StateId) (t : TerminalId) (shift : Action)
    (p : ProductionId) : Conflict where
  state := id
  lookahead := t
  kind := .shiftReduce
  actions := [shift, .reduce p]
  resolution := (resolve g t shift p).1
  justification := (resolve g t shift p).2

/-- The action that is taken among candidates, and the conflicts met on the way. -/
def decideAction (g : Grammar) (id : StateId) (t : TerminalId) (candidates : Candidates) :
    Option Action × List Conflict :=
  match candidates.shift, candidates.reductions with
  | shift, [] => (shift, [])
  | none, [p] => (some (.reduce p), [])
  | none, p :: others => (some (.reduce p), [reduceConflict id t p (p :: others)])
  | some shift, [p] => (some (resolve g t shift p).1, [shiftConflict g id t shift p])
  | some shift, p :: others =>
      (some (resolve g t shift p).1,
        [reduceConflict id t p (p :: others), shiftConflict g id t shift p])

/-- The production that every action of a row reduces, if there is one. -/
def onlyReduction : List (TerminalId × Action) → Option ProductionId
  | (_, .reduce p) :: rest => if rest.all (·.2 == .reduce p) then some p else none
  | _ => none

/-- The row of state `id` and the conflicts met in filling it. -/
def fillRow (g : Grammar) (defaultReductions accepting : Bool) (lookaheads : Lookaheads)
    (id : StateId) (state : State) : Row × List Conflict :=
  let reductions := state.reductions g lookaheads
  let decided := (activeTerminals accepting state reductions).toList.map fun t =>
    (t, decideAction g id t ⟨shiftOn? accepting state t, reductionsOn reductions t⟩)
  let actions := decided.filterMap fun (t, action, _) => action.map (t, ·)
  ({ actions
     gotos := state.gotos
     defaultReduction := if defaultReductions then onlyReduction actions else none },
    decided.flatMap fun (_, _, conflicts) => conflicts)

def ofAutomaton (g : Grammar) (defaultReductions : Bool) (automaton : Automaton)
    (lookaheads : Lookaheads) : Table :=
  let accepting := automaton.accepting? g
  let filled := automaton.states.toList.zipIdx.map fun (state, id) =>
    fillRow g defaultReductions (accepting == some id) lookaheads id state
  ⟨(filled.map (·.1)).toArray, filled.flatMap (·.2)⟩

end Table

end Lalr
