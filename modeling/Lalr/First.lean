import Lalr.Grammar.Basic
import Lalr.IdSet

/-!
# Nullable nonterminals and FIRST sets

A nonterminal is nullable when it derives the empty string.  The FIRST set of a sequence of symbols
holds the terminals that can begin what the sequence derives.  Both are least solutions of monotone
equations over the productions, and are found by rounds: a round evaluates the equation of every
production once, and the rounds end as soon as one of them changes nothing.

Every round but the last adds a nonterminal to the nullable ones, or a terminal to the FIRST set of
some nonterminal.  This bounds the number of rounds.
-/

namespace Lalr

/-- Repeat a step until it changes nothing, at most `bound` times. -/
def stabilize {α : Type} [DecidableEq α] (step : α → α) : (bound : Nat) → α → α
  | 0, value => value
  | bound + 1, value =>
      let next := step value
      if next = value then value else stabilize step bound next

/-- Whether every symbol is a nonterminal of the given set. -/
def allNullable (nullable : IdSet) (symbols : Array Symbol) : Bool :=
  symbols.all fun
    | .terminal _ => false
    | .nonterminal n => nullable.contains n

/-- One round of the equation for nullable nonterminals. -/
def nullableRound (g : Grammar) (nullable : IdSet) : IdSet :=
  g.productions.foldl
    (fun nullable production =>
      if allNullable nullable production.right then nullable.insert production.left else nullable)
    nullable

def nullables (g : Grammar) : IdSet :=
  stabilize (nullableRound g) g.nonterminals.size ∅

/-- The nullable nonterminals of a grammar and the FIRST sets of its nonterminals. -/
structure FirstSets where
  nullable : IdSet
  sets : Array TerminalSet
  deriving DecidableEq

namespace FirstSets

def isNullable (first : FirstSets) (n : NonterminalId) : Bool := first.nullable.contains n

def ofNonterminal (first : FirstSets) (n : NonterminalId) : TerminalSet :=
  first.sets[n]?.getD ∅

/-- The FIRST set of a sequence, and whether the sequence derives the empty string. -/
def ofSequence (first : FirstSets) : List Symbol → TerminalSet × Bool
  | [] => (∅, true)
  | .terminal t :: _ => (IdSet.single t, false)
  | .nonterminal n :: rest =>
      if first.isNullable n then
        let (set, nullable) := first.ofSequence rest
        (first.ofNonterminal n ∪ set, nullable)
      else
        (first.ofNonterminal n, false)

/-- The same for the symbols of an array from a place on, as far as `count` symbols. -/
def ofSlice (first : FirstSets) (symbols : Array Symbol) :
    (count place : Nat) → TerminalSet × Bool
  | 0, _ => (∅, true)
  | count + 1, place =>
      match symbols[place]? with
      | none => (∅, true)
      | some (.terminal t) => (IdSet.single t, false)
      | some (.nonterminal n) =>
          if first.isNullable n then
            let (set, nullable) := first.ofSlice symbols count (place + 1)
            (first.ofNonterminal n ∪ set, nullable)
          else
            (first.ofNonterminal n, false)

/-- The FIRST set of the symbols of an array from a place to the end, without listing them. -/
def ofSuffix (first : FirstSets) (symbols : Array Symbol) (place : Nat) : TerminalSet × Bool :=
  first.ofSlice symbols (symbols.size - place) place

/-- One round of the equations for FIRST sets: the set of a left-hand side takes in that of the
right-hand side. -/
def round (g : Grammar) (first : FirstSets) : FirstSets :=
  g.productions.foldl
    (fun first production =>
      let set := (first.ofSuffix production.right 0).1
      { first with sets := first.sets.modify production.left (· ∪ set) })
    first

def ofGrammar (g : Grammar) : FirstSets :=
  stabilize (round g) (g.nonterminals.size * g.terminals.size)
    { nullable := nullables g, sets := Array.replicate g.nonterminals.size ∅ }

/-- Reading the array in place gives the FIRST set of the listed symbols. -/
theorem ofSuffix_eq (first : FirstSets) (symbols : Array Symbol) (place : Nat) :
    first.ofSuffix symbols place = first.ofSequence (symbols.toList.drop place) := by
  have slice : ∀ count place, symbols.size - place = count →
      first.ofSlice symbols count place = first.ofSequence (symbols.toList.drop place) := by
    intro count
    induction count with
    | zero =>
        intro place none_left
        have past : symbols.toList.length ≤ place := by
          rw [Array.length_toList]
          omega
        simp [ofSlice, List.drop_eq_nil_of_le past, ofSequence]
    | succ count ih =>
        intro place some_left
        have inside : place < symbols.toList.length := by
          rw [Array.length_toList]
          omega
        have here : symbols[place]? = some (symbols.toList[place]) := by
          rw [Array.length_toList] at inside
          simp [inside]
        rw [List.drop_eq_getElem_cons inside, ofSlice, here]
        cases symbols.toList[place] with
        | terminal t => rfl
        | nonterminal n =>
            simp only [ofSequence, ih (place + 1) (by omega)]
  exact slice _ place rfl

end FirstSets

end Lalr
