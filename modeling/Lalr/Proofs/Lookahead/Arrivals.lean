import Lalr.Proofs.Lookahead.Exact
import Mathlib.Algebra.BigOperators.Group.Finset.Piecewise
import Mathlib.Algebra.Order.BigOperators.Group.Finset

/-!
# Counting what comes up spontaneously

Seeding adds sets to items, one after another.  It counts every time an item grows.  An item gets a
set from each item of its state that has the nonterminal after its dot, and may grow several times.
So the count is a sum over the items that get something: each is counted once for every set that
brings something new to it.  The number of these items is at most the count, and equals it just if
the first set that an item gets includes all its later ones.
-/

namespace Lalr

/-- How often a set grows when others are added to it, one after another. -/
def TerminalSet.growths : (known : TerminalSet) → List TerminalSet → Nat
  | _, [] => 0
  | known, set :: later =>
      (if known.isSuperset set then 0 else 1) + growths (known ∪ set) later

namespace TerminalSet

theorem growths_eq_zero_iff {known : TerminalSet} {sets : List TerminalSet} :
    growths known sets = 0 ↔ ∀ set ∈ sets, set ≤ known := by
  induction sets generalizing known with
  | nil => simp [growths]
  | cons set later ih =>
      by_cases included : set ≤ known
      · have same : known ∪ set = known :=
          le_antisymm (IdSet.union_le (le_refl _) included) (IdSet.le_union_left _ _)
        rw [growths, if_pos (IdSet.isSuperset_iff_le.2 included), same, Nat.zero_add, ih]
        simp [included]
      · rw [growths, if_neg (mt IdSet.isSuperset_iff_le.1 included)]
        simp [included]

/-- The empty set grows once if the first set to come brings all the others with it. -/
theorem growths_cons_eq_one_iff {set : TerminalSet} {later : List TerminalSet} (filled : set ≠ ∅) :
    growths ∅ (set :: later) = 1 ↔ ∀ other ∈ later, other ≤ set := by
  have new : ¬ (∅ : TerminalSet).isSuperset set = true := by
    rw [IdSet.isSuperset_iff_le]
    intro included
    exact filled (le_antisymm included (IdSet.empty_le set))
  have whole : (∅ : TerminalSet) ∪ set = set := by
    ext id
    simp
  rw [growths, if_neg new, whole, Nat.add_eq_left, growths_eq_zero_iff]

end TerminalSet

namespace Flow

variable {flow : Flow} {automaton : Automaton}

/-- The sets that come up, each with the item that gets it, in the order of the flow. -/
def arrivals (flow : Flow) : List (Nat × TerminalSet) :=
  flow.spontaneous.flatMap fun (group, set) => if set.isEmpty then [] else group.map (·, set)

/-- The sets that come up at one item. -/
def setsAt (arrivals : List (Nat × TerminalSet)) (item : Nat) : List TerminalSet :=
  arrivals.filterMap fun arrival => if arrival.1 = item then some arrival.2 else none

/-- Add a set to an item, and count it if the item grows. -/
def arrive (seeded : Nat × Lookaheads) (arrival : Nat × TerminalSet) : Nat × Lookaheads :=
  let (grown, lookaheads) := seeded.2.absorb arrival.1 arrival.2
  (if grown then seeded.1 + 1 else seeded.1, lookaheads)

theorem mem_arrivals {item : Nat} {set : TerminalSet} :
    (item, set) ∈ flow.arrivals ↔
      set ≠ ∅ ∧ ∃ group, (group, set) ∈ flow.spontaneous ∧ item ∈ group := by
  simp only [arrivals, List.mem_flatMap, Prod.exists]
  constructor
  · rintro ⟨group, other, listed, member⟩
    split at member
    · simp at member
    · next filled =>
        obtain ⟨place, inGroup, same⟩ := List.mem_map.1 member
        cases same
        exact ⟨mt IdSet.isEmpty_iff.2 filled, group, listed, inGroup⟩
  · rintro ⟨filled, group, listed, inGroup⟩
    refine ⟨group, set, listed, ?_⟩
    rw [if_neg (mt IdSet.isEmpty_iff.1 filled)]
    exact List.mem_map.2 ⟨item, inGroup, rfl⟩

theorem mem_setsAt {arrivals : List (Nat × TerminalSet)} {item : Nat} {set : TerminalSet} :
    set ∈ setsAt arrivals item ↔ (item, set) ∈ arrivals := by
  simp only [setsAt, List.mem_filterMap, Option.ite_none_right_eq_some, Option.some.injEq,
    Prod.exists]
  constructor
  · rintro ⟨_, _, member, rfl, rfl⟩
    exact member
  · intro member
    exact ⟨item, set, member, rfl, rfl⟩

theorem setsAt_ne_nil_iff {arrivals : List (Nat × TerminalSet)} {item : Nat} :
    setsAt arrivals item ≠ [] ↔ item ∈ arrivals.map (·.1) := by
  rw [List.mem_map]
  constructor
  · intro some_arrive
    obtain ⟨set, arrives⟩ := List.exists_mem_of_ne_nil _ some_arrive
    exact ⟨(item, set), mem_setsAt.1 arrives, rfl⟩
  · rintro ⟨⟨_, set⟩, arrives, rfl⟩
    exact List.ne_nil_of_mem (mem_setsAt.2 arrives)

theorem setsAt_cons (arrival : Nat × TerminalSet) (later : List (Nat × TerminalSet)) (item : Nat) :
    setsAt (arrival :: later) item =
      if arrival.1 = item then arrival.2 :: setsAt later item else setsAt later item := by
  rw [setsAt, List.filterMap_cons]
  split <;> simp_all [setsAt]

theorem arrive_of_included {arrival : Nat × TerminalSet} {seeded : Nat × Lookaheads}
    (included : arrival.2 ≤ seeded.2.ofItem arrival.1) : arrive seeded arrival = seeded := by
  simp [arrive, Lookaheads.absorb, IdSet.isSuperset_iff_le.2 included]

theorem sprout_eq_foldl (set : TerminalSet) (group : List Nat) (seeded : Nat × Lookaheads) :
    sprout set group seeded = (group.map (·, set)).foldl arrive seeded := by
  rw [List.foldl_map]
  rfl

theorem sprout_empty (group : List Nat) (seeded : Nat × Lookaheads) :
    sprout ∅ group seeded = seeded := by
  rw [sprout_eq_foldl, List.foldl_map]
  exact List.foldl_fixed' (fun item => @arrive_of_included (item, ∅) _ (IdSet.empty_le _)) group

/-- A group that gets nothing makes no difference. -/
theorem seed_eq_foldl (flow : Flow) (automaton : Automaton) (lookaheads : Lookaheads) :
    flow.seed automaton lookaheads =
      flow.arrivals.foldl arrive (0, started automaton lookaheads) := by
  have sprouts : ∀ (group : List Nat) (set : TerminalSet) (seeded : Nat × Lookaheads),
      sprout set group seeded =
        (if set.isEmpty then [] else group.map (·, set)).foldl arrive seeded := by
    intro group set seeded
    split
    · next empty =>
        rw [IdSet.isEmpty_iff.1 empty, sprout_empty]
        rfl
    · exact sprout_eq_foldl set group seeded
  rw [arrivals, List.foldl_flatMap]
  simp only [← sprouts]
  rfl

theorem ofItem_modify (lookaheads : Lookaheads) (target item : Nat) (set : TerminalSet) :
    Lookaheads.ofItem (lookaheads.modify target (· ∪ set)) item =
      if target = item ∧ item < lookaheads.size then lookaheads.ofItem item ∪ set
      else lookaheads.ofItem item :=
  Grows.getD_modify lookaheads target item set

/-- Before seeding, only what a parse starts from has a lookahead. -/
theorem ofItem_started {item : Nat} (other : startItem? automaton ≠ some item)
    (lookaheads : Lookaheads) :
    (started automaton lookaheads).ofItem item = lookaheads.ofItem item := by
  unfold started
  split
  · next first looked =>
      have different : first ≠ item := by
        rintro rfl
        exact other looked
      rw [ofItem_modify, if_neg fun same => different same.1]
  · rfl

/-- The count of arrivals is the sum, over all items, of how often the item grows. -/
theorem foldl_arrive_fst {arrivals : List (Nat × TerminalSet)} {count : Nat}
    {lookaheads : Lookaheads} (inside : ∀ item set, (item, set) ∈ arrivals → item < lookaheads.size) :
    (arrivals.foldl arrive (count, lookaheads)).1 = count +
      ∑ item ∈ Finset.range lookaheads.size,
        (lookaheads.ofItem item).growths (setsAt arrivals item) := by
  induction arrivals generalizing count lookaheads with
  | nil => simp [setsAt, TerminalSet.growths]
  | cons arrival later ih =>
      obtain ⟨target, set⟩ := arrival
      have here : target < lookaheads.size := inside target set (List.mem_cons_self ..)
      let grown : Lookaheads := lookaheads.modify target (· ∪ set)
      let new : Nat := if (lookaheads.ofItem target).isSuperset set then 0 else 1
      have size : grown.size = lookaheads.size := Array.size_modify
      have counted : arrive (count, lookaheads) (target, set) = (count + new, grown) := by
        simp only [arrive, Lookaheads.absorb_eq, new]
        cases (lookaheads.ofItem target).isSuperset set <;> rfl
      -- What the arrival adds to the count stands in the sum at its item.
      have each : ∀ item, (lookaheads.ofItem item).growths (setsAt ((target, set) :: later) item) =
          (if item = target then new else 0) + (grown.ofItem item).growths (setsAt later item) := by
        intro item
        rw [setsAt_cons, ofItem_modify]
        by_cases same : target = item
        · subst same
          simp [here, TerminalSet.growths, new]
        · simp [same, Ne.symm same]
      have inside' : ∀ item set, (item, set) ∈ later → item < grown.size := by
        intro item set member
        rw [size]
        exact inside item set (List.mem_cons_of_mem _ member)
      rw [List.foldl_cons, counted, ih inside', size]
      simp only [each]
      rw [Finset.sum_add_distrib, Finset.sum_ite_eq', if_pos (Finset.mem_range.2 here),
        Nat.add_assoc]

end Flow

namespace Automaton

/-- An item gets something spontaneously: it opens a nonterminal that follows the dot in an item of
its state, and what comes after the nonterminal there can begin with a terminal. -/
def Receives (g : Grammar) (automaton : Automaton) (item : Nat) : Prop :=
  ∃ id core n p t, automaton.HasCore id core ∧ core.nextNonterminal g = some n ∧
    g.Begins (core.rest g) t ∧ p ∈ g.alternatives n ∧ automaton.HasItem id ⟨p, 0⟩ item

variable {g : Grammar} {automaton : Automaton}

/-- The sets that come up at an item when seeding takes place. -/
def arrivedAt (g : Grammar) (automaton : Automaton) (item : Nat) : List TerminalSet :=
  Flow.setsAt (Flow.ofAutomaton g (.ofGrammar g) automaton).arrivals item

theorem mem_arrivedAt {item : Nat} {set : TerminalSet} :
    set ∈ automaton.arrivedAt g item ↔ (∃ t, set.contains t = true) ∧
      ∃ group, (group, set) ∈ (Flow.ofAutomaton g (.ofGrammar g) automaton).spontaneous ∧
        item ∈ group := by
  rw [arrivedAt, Flow.mem_setsAt, Flow.mem_arrivals, ne_eq, ← IdSet.isEmpty_iff, Bool.not_eq_true,
    IdSet.isEmpty_eq_false_iff]

/-- The items that get something are those at which a set comes up. -/
theorem receives_iff (wellFormed : g.WellFormed) {item : Nat} :
    automaton.Receives g item ↔ automaton.arrivedAt g item ≠ [] := by
  calc
    automaton.Receives g item ↔ ∃ t group set,
        (group, set) ∈ (Flow.ofAutomaton g (.ofGrammar g) automaton).spontaneous ∧
          item ∈ group ∧ set.contains t = true := by
      simp only [Flow.contains_spontaneous wellFormed]
      constructor
      · rintro ⟨id, core, n, p, t, found⟩
        exact ⟨t, id, core, n, p, found⟩
      · rintro ⟨t, id, core, n, p, found⟩
        exact ⟨id, core, n, p, t, found⟩
    _ ↔ ∃ set, set ∈ automaton.arrivedAt g item := by
      simp only [mem_arrivedAt]
      constructor
      · rintro ⟨t, group, set, listed, member, contained⟩
        exact ⟨set, ⟨t, contained⟩, group, listed, member⟩
      · rintro ⟨set, ⟨t, contained⟩, group, listed, member⟩
        exact ⟨t, group, set, listed, member, contained⟩
    _ ↔ automaton.arrivedAt g item ≠ [] :=
      ⟨fun ⟨_, member⟩ => List.ne_nil_of_mem member, List.exists_mem_of_ne_nil _⟩

/-- How often an item grows by what comes up there. -/
def growthsAt (g : Grammar) (automaton : Automaton) (item : Nat) : Nat :=
  (∅ : TerminalSet).growths (automaton.arrivedAt g item)

/-- What comes up is never empty, so that an item at which anything comes up grows. -/
theorem growthsAt_eq_zero_iff {item : Nat} :
    automaton.growthsAt g item = 0 ↔ automaton.arrivedAt g item = [] := by
  rw [growthsAt, TerminalSet.growths_eq_zero_iff, List.eq_nil_iff_forall_not_mem]
  constructor
  · intro included set arrived
    obtain ⟨⟨t, contained⟩, _⟩ := mem_arrivedAt.1 arrived
    have none_in := included set arrived t contained
    simp at none_in
  · intro none_arrives set arrived
    exact absurd arrived (none_arrives set)

theorem growthsAt_eq_one_iff {item : Nat} {first : TerminalSet} {later : List TerminalSet}
    (arrived : automaton.arrivedAt g item = first :: later) :
    automaton.growthsAt g item = 1 ↔ ∀ set ∈ later, set ≤ first := by
  have filled : first ≠ ∅ := by
    rintro rfl
    obtain ⟨⟨t, contained⟩, _⟩ := mem_arrivedAt.1 (arrived ▸ List.mem_cons_self ..)
    simp at contained
  rw [growthsAt, arrived, TerminalSet.growths_cons_eq_one_iff filled]

/-- What a parse starts from opens nothing, and so nothing comes up there. -/
theorem Canonical.arrivedAt_start (canonical : automaton.Canonical g) (wellFormed : g.WellFormed)
    {item : Nat} (looked : Flow.startItem? automaton = some item) :
    automaton.arrivedAt g item = [] := by
  by_contra arrived
  obtain ⟨id, core, n, p, _, _, follows, _, alternative, has⟩ := (receives_iff wellFormed).2 arrived
  obtain ⟨_, same⟩ := canonical.item_unique has (hasItem_start looked)
  exact wellFormed.ne_acceptProduction (Core.declares_of_nextNonterminal wellFormed follows)
    alternative (congrArg Core.production same)

theorem Canonical.arrivals_lt (canonical : automaton.Canonical g) (wellFormed : g.WellFormed)
    {item : Nat} {set : TerminalSet}
    (arrives : (item, set) ∈ (Flow.ofAutomaton g (.ofGrammar g) automaton).arrivals) :
    item < automaton.itemCount := by
  obtain ⟨_, group, listed, inGroup⟩ := Flow.mem_arrivals.1 arrives
  exact (canonical.within_flow wellFormed).spontaneous group set listed item inGroup

/-- The number that comes with a propagation counts how often items grow by what comes up. -/
theorem Canonical.spontaneous_eq_sum (canonical : automaton.Canonical g)
    (wellFormed : g.WellFormed) :
    (automaton.propagate g).spontaneous =
      ∑ item ∈ Finset.range automaton.itemCount, automaton.growthsAt g item := by
  have size : (Flow.started automaton automaton.noLookaheads).size = automaton.itemCount := by
    rw [(Flow.grows_started _ _).size, Canonical.size_noLookaheads]
  have counted : (automaton.propagate g).spontaneous =
      ((Flow.ofAutomaton g (.ofGrammar g) automaton).seed automaton automaton.noLookaheads).1 := rfl
  rw [counted, Flow.seed_eq_foldl, Flow.foldl_arrive_fst
    fun item set arrives => size.symm ▸ canonical.arrivals_lt wellFormed arrives, Nat.zero_add, size]
  refine Finset.sum_congr rfl fun item _ => ?_
  rw [growthsAt]
  show (Lookaheads.ofItem _ item).growths (automaton.arrivedAt g item) = _
  -- Only where the parse starts from is there anything at first, and nothing comes up there.
  by_cases start : Flow.startItem? automaton = some item
  · rw [canonical.arrivedAt_start wellFormed start]
    rfl
  · rw [Flow.ofItem_started start, Canonical.ofItem_noLookaheads]

end Automaton

/-- The count of what comes up spontaneously is a sum over the items that get something, in which an
item stands with the number of its sets that bring something new.  It is at least the number of these
items.  The two are equal just if at each of these items the first set includes all later ones. -/
theorem spontaneous_counts_growths {g : Grammar} (defined : g.IsDefined) :
    ∃ receiving : Finset Nat,
      (∀ item, item ∈ receiving ↔ (Automaton.build g).Receives g item) ∧
      ((Automaton.build g).propagate g).spontaneous =
        ∑ item ∈ receiving, (Automaton.build g).growthsAt g item ∧
      receiving.card ≤ ((Automaton.build g).propagate g).spontaneous ∧
      (receiving.card = ((Automaton.build g).propagate g).spontaneous ↔
        ∀ item first later, (Automaton.build g).arrivedAt g item = first :: later →
          ∀ set ∈ later, set ≤ first) := by
  have wellFormed := defined.wellFormed
  have canonical := Automaton.canonical_build wellFormed
  let receiving : Finset Nat :=
    (Finset.range (Automaton.build g).itemCount).filter ((Automaton.build g).growthsAt g · ≠ 0)
  have receives : ∀ item, item ∈ receiving ↔ (Automaton.build g).Receives g item := by
    intro item
    rw [Finset.mem_filter, Finset.mem_range, ne_eq, Automaton.growthsAt_eq_zero_iff, ← ne_eq,
      ← Automaton.receives_iff wellFormed, and_iff_right_iff_imp]
    rintro ⟨_, _, _, _, _, _, _, _, _, has⟩
    exact canonical.item_lt_itemCount has
  have sum : ((Automaton.build g).propagate g).spontaneous =
      ∑ item ∈ receiving, (Automaton.build g).growthsAt g item := by
    rw [canonical.spontaneous_eq_sum wellFormed, Finset.sum_filter_ne_zero]
  have once : ∀ item ∈ receiving, 1 ≤ (Automaton.build g).growthsAt g item := fun item member =>
    Nat.one_le_iff_ne_zero.2 (Finset.mem_filter.1 member).2
  refine ⟨receiving, receives, sum, ?_, ?_⟩
  · rw [sum, Finset.card_eq_sum_ones]
    exact Finset.sum_le_sum once
  · rw [sum, Finset.card_eq_sum_ones, Finset.sum_eq_sum_iff_of_le once]
    constructor
    · intro single item first later arrived
      have member : item ∈ receiving := by
        rw [receives, Automaton.receives_iff wellFormed, arrived]
        exact List.cons_ne_nil _ _
      exact (Automaton.growthsAt_eq_one_iff arrived).1 (single item member).symm
    · intro nested item member
      have arrives := (Automaton.receives_iff wellFormed).1 ((receives item).1 member)
      obtain ⟨first, later, arrived⟩ := List.exists_cons_of_ne_nil arrives
      exact ((Automaton.growthsAt_eq_one_iff arrived).2 (nested item first later arrived)).symm

/-- Two ways to go on after `A`: `S -> A b`, `S -> A c` and `A -> a`. -/
def Grammar.parting : Grammar where
  terminals := #[⟨"$end", none, none⟩, ⟨"a", none, none⟩, ⟨"b", none, none⟩, ⟨"c", none, none⟩]
  nonterminals := #[⟨"$start", none⟩, ⟨"S", none⟩, ⟨"A", none⟩]
  productions := #[
    ⟨startNonterminal, #[.nonterminal 1, .terminal endTerminal], none⟩,
    ⟨1, #[.nonterminal 2, .terminal 2], none⟩,
    ⟨1, #[.nonterminal 2, .terminal 3], none⟩,
    ⟨2, #[.terminal 1], none⟩]
  start := 1
  groups := #[[acceptProduction], [1, 2], [3]]

theorem Grammar.isDefined_parting : parting.IsDefined :=
  ⟨[.terminal "a", .terminal "b", .terminal "c", .nonterminal "S", .nonterminal "A",
    .rule "S" ["A", "b"] none, .rule "S" ["A", "c"] none, .rule "A" ["a"] none], by decide +kernel⟩

theorem Grammar.arrivals_parting :
    (Flow.ofAutomaton parting (.ofGrammar parting) (.build parting)).arrivals =
      [(1, .single 0), (2, .single 0), (3, .single 2), (3, .single 3)] := by
  decide +kernel

/-- The item `A -> . a` of the first state gets `b` and `c` one after the other, and is counted for
each of them. -/
theorem spontaneous_counts_growths_parting :
    Grammar.parting.IsDefined ∧
      ∃ receiving : Finset Nat,
        (∀ item, item ∈ receiving ↔ (Automaton.build .parting).Receives .parting item) ∧
        receiving.card < ((Automaton.build .parting).propagate .parting).spontaneous := by
  obtain ⟨receiving, receives, _, most, equal⟩ := spontaneous_counts_growths Grammar.isDefined_parting
  refine ⟨Grammar.isDefined_parting, receiving, receives, lt_of_le_of_ne most ?_⟩
  intro same
  have nested := equal.1 same 3 (.single 2) [.single 3] (by
    rw [Automaton.arrivedAt, Grammar.arrivals_parting]
    rfl)
  have contained := nested (.single 3) (List.mem_singleton_self _) 3 (by simp)
  simp at contained

/-- The count of what comes up spontaneously is not the number of items that get something. -/
theorem spontaneous_ne_card_receiving :
    ¬ ∀ g : Grammar, g.IsDefined → ∀ receiving : Finset Nat,
      (∀ item, item ∈ receiving ↔ (Automaton.build g).Receives g item) →
      ((Automaton.build g).propagate g).spontaneous = receiving.card := by
  intro counted
  have receives : ∀ item, item ∈ ({1, 2, 3} : Finset Nat) ↔
      (Automaton.build .parting).Receives .parting item := by
    intro item
    rw [Automaton.receives_iff Grammar.isDefined_parting.wellFormed, Automaton.arrivedAt,
      Grammar.arrivals_parting, Flow.setsAt_ne_nil_iff]
    simp
  have equal := counted .parting Grammar.isDefined_parting {1, 2, 3} receives
  revert equal
  decide +kernel

end Lalr
