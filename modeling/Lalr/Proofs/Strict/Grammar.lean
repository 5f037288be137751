import Lalr.Proofs.Automaton.Construction
import Lalr.Proofs.First
import Lalr.Proofs.Grammar.Context
import Lalr.Proofs.Grammar.Lawful

/-!
# Strict lookups: cores and FIRST sets

The generator looks up productions, symbols, states and items by their numbers, and has an answer
even where nothing has the number.  The strict generator does the same work, but fails as a whole as
soon as one lookup misses, as a dot would be moved beyond the greatest place, or as a loop would be
cut short by its bound.  It is defined alongside the generator, phase by phase, and each phase is
shown to have the same result as the generator's.

This file deals with the questions asked about cores, and with FIRST sets.
-/

namespace Lalr

theorem mapM_eq_some {α β : Type} {look : α → Option β} {value : α → β} {entries : List α}
    (each : ∀ entry ∈ entries, look entry = some (value entry)) :
    entries.mapM look = some (entries.map value) := by
  induction entries with
  | nil => rfl
  | cons head tail ih =>
      rw [List.forall_mem_cons] at each
      rw [List.mapM_cons, each.1, ih each.2]
      rfl

theorem filterMapM_eq_some {α β : Type} {look : α → Option (Option β)} {value : α → Option β}
    {entries : List α} (each : ∀ entry ∈ entries, look entry = some (value entry)) :
    entries.filterMapM look = some (entries.filterMap value) := by
  induction entries with
  | nil => rfl
  | cons head tail ih =>
      rw [List.forall_mem_cons] at each
      rw [List.filterMapM_cons, each.1, ih each.2, List.filterMap_cons]
      cases value head <;> rfl

theorem flatMapM_eq_some {α β : Type} {look : α → Option (List β)} {value : α → List β}
    {entries : List α} (each : ∀ entry ∈ entries, look entry = some (value entry)) :
    entries.flatMapM look = some (entries.flatMap value) := by
  induction entries with
  | nil => rfl
  | cons head tail ih =>
      rw [List.forall_mem_cons] at each
      rw [List.flatMapM_cons, each.1, ih each.2, List.flatMap_cons]
      rfl

/-- A fold never fails if its steps do not fail where an invariant holds, and keep it. -/
theorem foldlM_eq_some {σ α : Type} {look : σ → α → Option σ} {step : σ → α → σ} (keep : σ → Prop)
    {entries : List α} (each : ∀ state, keep state → ∀ entry ∈ entries,
      look state entry = some (step state entry) ∧ keep (step state entry))
    {state : σ} (start : keep state) :
    entries.foldlM look state = some (entries.foldl step state) ∧
      keep (entries.foldl step state) := by
  induction entries generalizing state with
  | nil => exact ⟨rfl, start⟩
  | cons head tail ih =>
      obtain ⟨found, kept⟩ := each state start head (List.mem_cons_self ..)
      rw [List.foldlM_cons, found, List.foldl_cons]
      exact ih (fun state kept entry member => each state kept entry (List.mem_cons_of_mem _ member))
        kept

namespace Strict

variable (g : Grammar)

/-! ## Cores -/

def next (core : Core) : Option (Option Symbol) := do
  let production ← g.productions[core.production]?
  return production.right[core.dot]?

def rest (core : Core) : Option (List Symbol) := do
  let production ← g.productions[core.production]?
  return production.right.toList.drop (core.dot + 1)

def isReduction (core : Core) : Option Bool := do
  let production ← g.productions[core.production]?
  return core.dot == production.right.size

/-- The dot is moved on only if its new place does not exceed the limit. -/
def advance (core : Core) : Option Core :=
  if core.dot < numberLimit then some core.advance else none

variable {g} {core : Core}

theorem next_eq (isOf : core.IsOf g) : next g core = some (core.next g) := by
  obtain ⟨production, listed, _⟩ := isOf
  simp [next, Core.next, Grammar.right, listed]

theorem rest_eq (isOf : core.IsOf g) : rest g core = some (core.rest g) := by
  obtain ⟨production, listed, _⟩ := isOf
  simp [rest, Core.rest, Grammar.right, listed]

theorem isReduction_eq (isOf : core.IsOf g) : isReduction g core = some (core.isReduction g) := by
  obtain ⟨production, listed, _⟩ := isOf
  simp [isReduction, Core.isReduction, Grammar.right, listed]

end Strict

theorem Grammar.IsDefined.right_size_le {g : Grammar} (defined : g.IsDefined) {p : ProductionId}
    {production : Production} (listed : g.productions[p]? = some production) :
    production.right.size ≤ numberLimit := by
  by_cases accept : p = acceptProduction
  · rw [accept, defined.wellFormed.augmented] at listed
    cases listed
    exact Nat.le_of_ble_eq_true rfl
  · exact (defined.lawful.production listed accept).2.1

namespace Strict

variable {g : Grammar} {core : Core}

/-- A dot before a symbol can be moved, as right-hand sides are not longer than the limit. -/
theorem advance_eq (defined : g.IsDefined) {symbol : Symbol} (follows : core.next g = some symbol) :
    advance core = some core.advance := by
  obtain ⟨production, listed, here⟩ := Core.next_eq_some.1 follows
  have inside := (List.getElem?_eq_some_iff.1 here).1
  rw [Array.length_toList] at inside
  exact if_pos (Nat.lt_of_lt_of_le inside (defined.right_size_le listed))

/-! ## FIRST sets -/

/-- The FIRST set of a sequence, with the sets of its nonterminals looked up. -/
def ofSequence (first : FirstSets) : List Symbol → Option (TerminalSet × Bool)
  | [] => some (∅, true)
  | .terminal t :: _ => some (IdSet.single t, false)
  | .nonterminal n :: others => do
      let set ← first.sets[n]?
      if first.isNullable n then
        let (more, nullable) ← ofSequence first others
        return (set ∪ more, nullable)
      else
        return (set, false)

def firstRound (g : Grammar) (first : FirstSets) : Option FirstSets :=
  g.productions.toList.foldlM
    (fun first production => do
      let (set, _) ← ofSequence first production.right.toList
      let _ ← first.sets[production.left]?
      return { first with sets := first.sets.modify production.left (· ∪ set) })
    first

/-- Repeat a step until it changes nothing, which must be after at most `bound` changes. -/
def stabilize {α : Type} [DecidableEq α] (step : α → Option α) : (bound : Nat) → α → Option α
  | 0, value => do
      if (← step value) = value then return value else none
  | bound + 1, value => do
      let next ← step value
      if next = value then return value else stabilize step bound next

def ofGrammar (g : Grammar) : Option FirstSets := do
  let nullable ← stabilize (fun set => some (nullableRound g set)) g.nonterminals.size ∅
  stabilize (firstRound g) (g.nonterminals.size * g.terminals.size)
    { nullable, sets := Array.replicate g.nonterminals.size ∅ }

theorem ofSequence_eq {first : FirstSets} {symbols : List Symbol}
    (inside : ∀ n, .nonterminal n ∈ symbols → n < first.sets.size) :
    ofSequence first symbols = some (first.ofSequence symbols) := by
  induction symbols with
  | nil => rfl
  | cons head tail ih =>
      cases head with
      | terminal t => rfl
      | nonterminal n =>
          have found := Array.getElem?_eq_getElem (inside n (List.mem_cons_self ..))
          have others := ih fun m member => inside m (List.mem_cons_of_mem _ member)
          rw [ofSequence, found, others, FirstSets.ofSequence, FirstSets.ofNonterminal, found]
          cases first.isNullable n <;> rfl

theorem firstRound_eq (wellFormed : g.WellFormed) {first : FirstSets}
    (size : first.sets.size = g.nonterminals.size) :
    firstRound g first = some (FirstSets.round g first) ∧
      (FirstSets.round g first).sets.size = g.nonterminals.size := by
  rw [FirstSets.round_eq]
  refine foldlM_eq_some (fun first : FirstSets => first.sets.size = g.nonterminals.size) ?_ size
  intro first size production member
  obtain ⟨p, listed⟩ := List.mem_iff_getElem?.1 member
  rw [Array.getElem?_toList] at listed
  have sequence : ofSequence first production.right.toList =
      some (first.ofSequence production.right.toList) := by
    apply ofSequence_eq
    intro n mentioned
    rw [size]
    exact (wellFormed.nonterminal_declared listed mentioned).2
  have left : production.left < first.sets.size := by
    rw [size]
    exact wellFormed.left_lt listed
  constructor
  · rw [sequence, Array.getElem?_eq_getElem left]
    rfl
  · rw [FirstSets.roundStep, Array.size_modify]
    exact size

theorem stabilize_eq {α : Type} [DecidableEq α] {look : α → Option α} {step : α → α}
    (keep : α → Prop) (each : ∀ value, keep value → look value = some (step value) ∧ keep (step value))
    {bound : Nat} {value : α} (start : keep value)
    (fixed : step (Lalr.stabilize step bound value) = Lalr.stabilize step bound value) :
    stabilize look bound value = some (Lalr.stabilize step bound value) := by
  induction bound generalizing value with
  | zero =>
      rw [Lalr.stabilize] at fixed ⊢
      rw [stabilize, (each value start).1, Option.bind_eq_bind, Option.bind_some, if_pos fixed]
      rfl
  | succ bound ih =>
      obtain ⟨found, kept⟩ := each value start
      rw [stabilize, found, Option.bind_eq_bind, Option.bind_some]
      simp only [Lalr.stabilize] at fixed ⊢
      split at fixed
      · next same =>
          rw [if_pos same, if_pos same]
          rfl
      · next different =>
          rw [if_neg different, if_neg different]
          exact ih kept fixed

theorem ofGrammar_eq (wellFormed : g.WellFormed) : ofGrammar g = some (FirstSets.ofGrammar g) := by
  have nullable := stabilize_eq (fun _ => True) (fun _ _ => ⟨rfl, trivial⟩) trivial
    (nullableRound_nullables wellFormed)
  have fixed := FirstSets.round_ofGrammar wellFormed
  rw [ofGrammar, nullable, Option.bind_eq_bind, Option.bind_some]
  refine stabilize_eq (fun first => first.sets.size = g.nonterminals.size) ?_ ?_ fixed
  · intro first size
    exact firstRound_eq wellFormed size
  · exact Array.size_replicate

/-- What follows the symbol after a dot has a FIRST set. -/
theorem ofSequence_rest (wellFormed : g.WellFormed) (isOf : core.IsOf g) :
    ofSequence (.ofGrammar g) (core.rest g) =
      some ((FirstSets.ofGrammar g).ofSequence (core.rest g)) := by
  apply ofSequence_eq
  intro n member
  obtain ⟨production, listed, _⟩ := isOf
  rw [(FirstSets.Sound.ofGrammar g).size]
  rw [Core.rest, Core.right_of_listed listed] at member
  exact (wellFormed.nonterminal_declared listed (List.mem_of_mem_drop member)).2

end Strict

end Lalr
