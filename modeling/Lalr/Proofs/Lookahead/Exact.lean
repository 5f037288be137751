import Lalr.Proofs.Automaton.Items
import Lalr.Proofs.Automaton.ViablePrefix
import Lalr.Proofs.First
import Lalr.Proofs.Lookahead.Flow

/-!
# Lookaheads are exact

The lookaheads of an item are the terminals that can follow its left-hand side in a context whose
left part, with the symbols before the dot, leads to the item's state.

Nothing is spurious because the flow passes on only such terminals.  Nothing is missing because the
flow has an edge, or a spontaneous lookahead, for each rule by which a core becomes valid.
-/

namespace Lalr

variable {g : Grammar} {automaton : Automaton}

theorem State.mem_items_of_item? {state : State} {core : Core} {item : Nat}
    (looked : state.item? core = some item) : (core, item) ∈ state.items := by
  obtain ⟨place, earliest, rfl⟩ := Option.map_eq_some_iff.1 looked
  obtain ⟨inside, here, _⟩ := List.idxOf?_eq_some_iff.1 earliest
  refine State.mem_items.2 ⟨place, ?_, rfl⟩
  rw [List.getElem?_eq_getElem inside, here]

theorem Automaton.mem_states {state : State} :
    state ∈ automaton.states.toList ↔ ∃ id : StateId, automaton.states[id]? = some state := by
  simp only [List.mem_iff_getElem?, Array.getElem?_toList]

theorem Automaton.mem_zipIdx_states {entry : State × StateId} :
    entry ∈ automaton.states.toList.zipIdx ↔ automaton.states[entry.2]? = some entry.1 := by
  rw [List.mem_zipIdx_iff_getElem?, Array.getElem?_toList]

namespace Flow

theorem mem_openingItems (wellFormed : g.WellFormed) {items : List (Core × Nat)}
    {n : NonterminalId} {item : Nat} :
    item ∈ openingItems g items n ↔ ∃ p ∈ g.alternatives n, (⟨p, 0⟩, item) ∈ items := by
  simp only [openingItems, List.mem_filterMap, Prod.exists, Option.ite_none_right_eq_some,
    Option.some.injEq, Grammar.opens_iff wellFormed, Grammar.mem_openings]
  constructor
  · rintro ⟨⟨p, _⟩, number, member, ⟨rfl, alternative⟩, rfl⟩
    exact ⟨p, alternative, member⟩
  · rintro ⟨p, alternative, member⟩
    exact ⟨⟨p, 0⟩, item, member, ⟨rfl, alternative⟩, rfl⟩

theorem firstOfRest_eq (first : FirstSets) (core : Core) :
    firstOfRest g first core = first.ofSequence (core.rest g) :=
  FirstSets.ofSuffix_eq first _ _

theorem tabled_of_follows {state : State} {core : Core} (member : core ∈ state.cores)
    {n : NonterminalId} (follows : core.nextNonterminal g = some n) :
    tabled (openingTable g state) n = openingItems g state.items n :=
  tabled_openingTable (Grammar.mem_followers.2 ⟨by simp, core, member, follows⟩)

theorem mem_spontaneous {first : FirstSets} {group : List Nat} {set : TerminalSet} :
    (group, set) ∈ (ofAutomaton g first automaton).spontaneous ↔
      ∃ state ∈ automaton.states.toList, ∃ core ∈ state.cores, ∃ n,
        core.nextNonterminal g = some n ∧ openingItems g state.items n = group ∧
        (first.ofSequence (core.rest g)).1 = set := by
  simp only [ofAutomaton, spontaneousIn, spontaneousOf?, List.mem_flatMap, List.mem_filterMap,
    Option.map_eq_some_iff, Prod.mk.injEq, firstOfRest_eq]
  refine exists_congr fun state => and_congr_right' (exists_congr fun core =>
    and_congr_right fun member => exists_congr fun n => and_congr_right fun follows => ?_)
  rw [tabled_of_follows member follows]

theorem mem_openingEdges {first : FirstSets} {state : State} {core : Core}
    (member : core ∈ state.cores) {item : Nat} {edge : Nat × Nat} :
    edge ∈ openingEdges g first (tabled (openingTable g state)) core item ↔
      ∃ n, core.nextNonterminal g = some n ∧ (first.ofSequence (core.rest g)).2 = true ∧
        ∃ opening ∈ openingItems g state.items n, (item, opening) = edge := by
  rw [openingEdges, firstOfRest_eq]
  split
  · next none_follows => simp [none_follows]
  · next n follows =>
      rw [tabled_of_follows member follows, follows]
      split <;> simp_all

end Flow

namespace Automaton.Canonical

theorem movedItem?_eq_some (canonical : automaton.Canonical g) (wellFormed : g.WellFormed)
    {id : StateId} {state : State} (found : automaton.states[id]? = some state) {core : Core}
    {item : Nat} : Flow.movedItem? g automaton state core = some item ↔
      ∃ symbol target, core.next g = some symbol ∧ automaton.step? id symbol = some target ∧
        automaton.HasItem target core.advance item := by
  have stepped : ∀ symbol, automaton.step? id symbol = state.transition? symbol := by
    intro symbol
    rw [step?, found, Option.bind_some]
  simp only [Flow.movedItem?, Option.bind_eq_some_iff, Option.ite_none_left_eq_some]
  constructor
  · rintro ⟨symbol, next, _, target, led, reached, known, looked⟩
    exact ⟨symbol, target, next, (stepped symbol).trans led, reached, known,
      State.mem_items_of_item? looked⟩
  · rintro ⟨symbol, target, next, led, reached, known, numbered⟩
    refine ⟨symbol, next, (canonical.exists_next_of_step led).1, target,
      (stepped symbol).symm.trans led, reached, known, ?_⟩
    exact canonical.item?_eq_some wellFormed known (.inl (Nat.succ_ne_zero core.dot)) numbered

/-- The edges of the flow follow the rules by which cores become valid. -/
theorem mem_edges (canonical : automaton.Canonical g) (wellFormed : g.WellFormed)
    {source target : Nat} :
    (source, target) ∈ (Flow.ofAutomaton g (.ofGrammar g) automaton).edges ↔
      ∃ id core, automaton.HasItem id core source ∧
        ((∃ n, core.nextNonterminal g = some n ∧ g.Derives (core.rest g) [] ∧
            ∃ p ∈ g.alternatives n, automaton.HasItem id ⟨p, 0⟩ target) ∨
          ∃ symbol next, core.next g = some symbol ∧ automaton.step? id symbol = some next ∧
            automaton.HasItem next core.advance target) := by
  simp only [Flow.ofAutomaton, Flow.edgesFrom, Flow.edgesOf, List.mem_flatMap, List.mem_append,
    Option.mem_toList, Option.map_eq_some_iff, Prod.exists, Prod.mk.injEq, exists_eq_right_right]
  constructor
  · rintro ⟨state, member, core, item, numbered, edge⟩
    obtain ⟨id, found⟩ := mem_states.1 member
    have has : automaton.HasItem id core item := ⟨state, found, numbered⟩
    rcases edge with opened | ⟨moved, rfl⟩
    · obtain ⟨again, found', known⟩ := has.hasCore
      rw [found] at found'
      cases found'
      obtain ⟨n, follows, nullable, opening, listed, same⟩ := (Flow.mem_openingEdges known).1 opened
      obtain ⟨rfl, rfl⟩ := Prod.mk.inj same
      obtain ⟨p, alternative, numbered'⟩ := (Flow.mem_openingItems wellFormed).1 listed
      exact ⟨id, core, has, .inl ⟨n, follows, (FirstSets.ofSequence_nullable_iff wellFormed).1 nullable, p,
        alternative, state, found, numbered'⟩⟩
    · exact ⟨id, core, has, .inr ((canonical.movedItem?_eq_some wellFormed found).1 moved)⟩
  · rintro ⟨id, core, has, edge⟩
    obtain ⟨state, found, numbered⟩ := has
    refine ⟨state, mem_states.2 ⟨id, found⟩, core, source, numbered, ?_⟩
    rcases edge with ⟨n, follows, nullable, p, alternative, again, found', numbered'⟩ | moved
    · rw [found] at found'
      cases found'
      have known := State.mem_cores_of_mem_items numbered
      refine .inl ((Flow.mem_openingEdges known).2 ⟨n, follows, ?_⟩)
      refine ⟨(FirstSets.ofSequence_nullable_iff wellFormed).2 nullable, target, ?_, rfl⟩
      exact (Flow.mem_openingItems wellFormed).2 ⟨p, alternative, numbered'⟩
    · exact .inr ⟨(canonical.movedItem?_eq_some wellFormed found).2 moved, rfl⟩

end Automaton.Canonical

/-- Lookaheads come up by themselves where a nonterminal is followed by more of its production. -/
theorem Flow.contains_spontaneous (wellFormed : g.WellFormed) {item : Nat} {t : TerminalId} :
    (∃ group set, (group, set) ∈ (ofAutomaton g (.ofGrammar g) automaton).spontaneous ∧
        item ∈ group ∧ set.contains t = true) ↔
      ∃ id core n p, automaton.HasCore id core ∧ core.nextNonterminal g = some n ∧
        g.Begins (core.rest g) t ∧ p ∈ g.alternatives n ∧ automaton.HasItem id ⟨p, 0⟩ item := by
  constructor
  · rintro ⟨group, set, listed, member, contained⟩
    obtain ⟨state, inStates, core, known, n, follows, rfl, rfl⟩ := mem_spontaneous.1 listed
    obtain ⟨id, found⟩ := Automaton.mem_states.1 inStates
    obtain ⟨p, alternative, numbered⟩ := (mem_openingItems wellFormed).1 member
    exact ⟨id, core, n, p, ⟨state, found, known⟩, follows,
      (FirstSets.contains_ofSequence_iff wellFormed).1 contained, alternative, state, found,
      numbered⟩
  · rintro ⟨id, core, n, p, ⟨state, found, known⟩, follows, begins, alternative, has⟩
    obtain ⟨again, found', numbered⟩ := has
    rw [found] at found'
    cases found'
    have inStates := Automaton.mem_states.2 ⟨id, found⟩
    exact ⟨_, _, mem_spontaneous.2 ⟨state, inStates, core, known, n, follows, rfl, rfl⟩,
      (mem_openingItems wellFormed).2 ⟨p, alternative, numbered⟩,
      (FirstSets.contains_ofSequence_iff wellFormed).2 begins⟩

theorem Flow.respects_lt (automaton : Automaton) (wellFormed : g.WellFormed) :
    (ofAutomaton g (.ofGrammar g) automaton).Respects fun _ t => t < g.terminals.size := by
  constructor
  · intro group set listed item member t contained
    obtain ⟨id, core, n, p, _, follows, begins, _⟩ :=
      (contains_spontaneous wellFormed).1 ⟨group, set, listed, member, contained⟩
    rcases (Grammar.begins_iff_exposes.1 begins).terminal_mem with here | ⟨p, _, known, inside⟩
    · obtain ⟨production, known, _⟩ :=
        Core.next_eq_some.1 (Core.nextNonterminal_eq_some.1 follows)
      rw [Core.rest, Core.right_of_listed known] at here
      exact wellFormed.terminal_lt known (List.mem_of_mem_drop here)
    · exact wellFormed.terminal_lt known inside
  · exact fun _ _ _ _ kept => kept

namespace Automaton

/-- The terminal can follow the left-hand side of the core after a path to the state. -/
def Follows (g : Grammar) (automaton : Automaton) (id : StateId) (core : Core) (t : TerminalId) :
    Prop :=
  ∃ before after, automaton.follow? initialState before = some id ∧
    g.Valid before core after ∧ g.Begins after t

namespace Canonical

theorem within_flow (canonical : automaton.Canonical g) (wellFormed : g.WellFormed) :
    (Flow.ofAutomaton g (.ofGrammar g) automaton).Within automaton.itemCount := by
  constructor
  · intro group set listed item member
    obtain ⟨state, inStates, core, known, n, follows, rfl, rfl⟩ := Flow.mem_spontaneous.1 listed
    obtain ⟨id, found⟩ := mem_states.1 inStates
    obtain ⟨p, _, numbered⟩ := (Flow.mem_openingItems wellFormed).1 member
    exact canonical.item_lt_itemCount ⟨state, found, numbered⟩
  · intro source target edge
    obtain ⟨id, core, _, ⟨_, _, _, _, _, has⟩ | ⟨_, _, _, _, has⟩⟩ :=
      (canonical.mem_edges wellFormed).1 edge
    · exact canonical.item_lt_itemCount has
    · exact canonical.item_lt_itemCount has

/-- The flow moves only terminals that can follow. -/
theorem respects_follows (canonical : automaton.Canonical g) (wellFormed : g.WellFormed) :
    (Flow.ofAutomaton g (.ofGrammar g) automaton).Respects fun item t =>
      ∀ id core, automaton.HasItem id core item → automaton.Follows g id core t := by
  constructor
  · intro group set listed item member t contained id opened has
    obtain ⟨id', core, n, p, known, follows, begins, alternative, has'⟩ :=
      (Flow.contains_spontaneous wellFormed).1 ⟨group, set, listed, member, contained⟩
    obtain ⟨rfl, rfl⟩ := canonical.item_unique has has'
    obtain ⟨before, path⟩ := canonical.exists_path known.lt_size
    obtain ⟨after, valid⟩ := canonical.valid_of_hasCore path known
    exact ⟨before, core.rest g ++ after, path, valid.opening follows alternative,
      Grammar.begins_append.2 (.inl begins)⟩
  · intro source target edge t kept id reached has
    obtain ⟨id', core, known, ⟨n, follows, nullable, p, alternative, has'⟩ |
      ⟨symbol, next, after, stepped, has'⟩⟩ := (canonical.mem_edges wellFormed).1 edge
    · obtain ⟨rfl, rfl⟩ := canonical.item_unique has has'
      obtain ⟨before, after, path, valid, begins⟩ := kept _ core known
      exact ⟨before, core.rest g ++ after, path, valid.opening follows alternative,
        Grammar.begins_append.2 (.inr ⟨nullable, begins⟩)⟩
    · obtain ⟨rfl, rfl⟩ := canonical.item_unique has has'
      obtain ⟨before, rest, path, valid, begins⟩ := kept _ core known
      exact ⟨before ++ [symbol], rest, follow?_concat.2 ⟨_, path, stepped⟩, valid.advance after,
        begins⟩

theorem size_noLookaheads (automaton : Automaton) :
    automaton.noLookaheads.size = automaton.itemCount :=
  Array.size_replicate

theorem ofItem_noLookaheads (automaton : Automaton) (item : Nat) :
    automaton.noLookaheads.ofItem item = ∅ := by
  by_cases inside : item < automaton.itemCount <;>
    simp [Lookaheads.ofItem, noLookaheads, inside]

theorem all_noLookaheads (automaton : Automaton) (keep : Nat → TerminalId → Prop) :
    Lookaheads.All automaton.noLookaheads keep := by
  intro item t member
  simp [ofItem_noLookaheads] at member

theorem hasItem_start {item : Nat}
    (looked : Flow.startItem? automaton = some item) :
    automaton.HasItem initialState ⟨acceptProduction, 0⟩ item := by
  obtain ⟨state, found, here⟩ := Option.bind_eq_some_iff.1 looked
  exact ⟨state, found, State.mem_items_of_item? here⟩

theorem all_propagate {keep : Nat → TerminalId → Prop}
    (respects : (Flow.ofAutomaton g (.ofGrammar g) automaton).Respects keep)
    (start : ∀ item, Flow.startItem? automaton = some item → keep item endTerminal) :
    (automaton.propagate g).lookaheads.All keep :=
  Flow.all_passes respects (Flow.all_seed respects start (all_noLookaheads automaton keep))

theorem contains_propagate_start {item : Nat} (looked : Flow.startItem? automaton = some item)
    (inside : item < automaton.itemCount) :
    ((automaton.propagate g).lookaheads.ofItem item).contains endTerminal = true := by
  refine (Flow.grows_passes _ _ _).le item _ (Flow.contains_seed_start looked ?_)
  rwa [size_noLookaheads]

/-- In the end, every item has what comes up there by itself. -/
theorem le_propagate_spontaneous (canonical : automaton.Canonical g) (wellFormed : g.WellFormed)
    {group : List Nat} {set : TerminalSet}
    (listed : (group, set) ∈ (Flow.ofAutomaton g (.ofGrammar g) automaton).spontaneous) {item : Nat}
    (member : item ∈ group) : set ≤ (automaton.propagate g).lookaheads.ofItem item := by
  refine le_trans (Flow.le_seed ?_ listed member) ((Flow.grows_passes _ _ _).le item)
  rw [size_noLookaheads]
  exact canonical.within_flow wellFormed

theorem contains_propagate_spontaneous (canonical : automaton.Canonical g)
    (wellFormed : g.WellFormed) {id : StateId} {core : Core} {n : NonterminalId}
    {p : ProductionId} {t : TerminalId} {item : Nat} (known : automaton.HasCore id core)
    (follows : core.nextNonterminal g = some n) (begins : g.Begins (core.rest g) t)
    (alternative : p ∈ g.alternatives n) (has : automaton.HasItem id ⟨p, 0⟩ item) :
    ((automaton.propagate g).lookaheads.ofItem item).contains t = true := by
  obtain ⟨group, set, listed, member, contained⟩ := (Flow.contains_spontaneous wellFormed).2
    ⟨id, core, n, p, known, follows, begins, alternative, has⟩
  exact canonical.le_propagate_spontaneous wellFormed listed member t contained

theorem size_seed (flow : Flow) (automaton : Automaton) :
    (flow.seed automaton automaton.noLookaheads).2.size = automaton.itemCount := by
  rw [(Flow.grows_seed _ _ _).size, size_noLookaheads]

theorem within_seed (canonical : automaton.Canonical g) (wellFormed : g.WellFormed) :
    let flow := Flow.ofAutomaton g (.ofGrammar g) automaton
    flow.Within (flow.seed automaton automaton.noLookaheads).2.size := by
  intro flow
  rw [size_seed]
  exact canonical.within_flow wellFormed

theorem size_propagate (g : Grammar) (automaton : Automaton) :
    (automaton.propagate g).lookaheads.size = automaton.itemCount :=
  (Flow.grows_passes _ _ _).size.trans (size_seed _ _)

theorem seed_lt (automaton : Automaton) (wellFormed : g.WellFormed) :
    Lookaheads.All ((Flow.ofAutomaton g (.ofGrammar g) automaton).seed automaton
      automaton.noLookaheads).2 fun _ t => t < g.terminals.size :=
  Flow.all_seed (Flow.respects_lt automaton wellFormed) (fun _ _ => wellFormed.ending)
    (all_noLookaheads automaton _)

/-- In the end, lookaheads have moved along every edge. -/
theorem propagate_rest (canonical : automaton.Canonical g) (wellFormed : g.WellFormed)
    {source target : Nat}
    (edge : (source, target) ∈ (Flow.ofAutomaton g (.ofGrammar g) automaton).edges) :
    (automaton.propagate g).lookaheads.ofItem source ≤
      (automaton.propagate g).lookaheads.ofItem target := by
  refine Flow.passes_rest (Flow.respects_lt automaton wellFormed) (canonical.within_seed wellFormed)
    (seed_lt automaton wellFormed) ?_ source target edge
  rw [size_seed]
  omega

/-- Allowing more passes makes no difference. -/
theorem passes_seed (canonical : automaton.Canonical g) (wellFormed : g.WellFormed) (more : Nat) :
    let flow := Flow.ofAutomaton g (.ofGrammar g) automaton
    let seeded := (flow.seed automaton automaton.noLookaheads).2
    flow.passes (automaton.itemCount * g.terminals.size + 1 + more) seeded =
      flow.passes (automaton.itemCount * g.terminals.size + 1) seeded := by
  refine Flow.passes_add (Flow.respects_lt automaton wellFormed) more
    (canonical.within_seed wellFormed) (seed_lt automaton wellFormed) ?_
  rw [size_seed]
  omega

/-- A terminal that can follow is a lookahead. -/
theorem contains_propagate_of_valid (canonical : automaton.Canonical g)
    (wellFormed : g.WellFormed) {before after : List Symbol} {core : Core}
    (valid : g.Valid before core after) {id : StateId}
    (path : automaton.follow? initialState before = some id) {item : Nat}
    (has : automaton.HasItem id core item) {t : TerminalId} (begins : g.Begins after t) :
    ((automaton.propagate g).lookaheads.ofItem item).contains t = true := by
  -- By induction on validity: each of its rules is matched by something in the flow.
  induction valid generalizing id item with
  | start =>
      cases path
      obtain ⟨rest, derived⟩ := begins
      cases derived.of_terminal
      refine contains_propagate_start ?_ (canonical.item_lt_itemCount has)
      obtain ⟨state, found, numbered⟩ := has
      rw [Flow.startItem?, found, Option.bind_some]
      exact canonical.item?_eq_some wellFormed found (.inr rfl) numbered
  | @opening before after core n p outer follows alternative ih =>
      have known := canonical.hasCore_of_valid wellFormed outer path
      rcases Grammar.begins_append.1 begins with inside | ⟨nullable, later⟩
      · exact canonical.contains_propagate_spontaneous wellFormed known follows inside alternative
          has
      · obtain ⟨source, hasSource⟩ := known.exists_item
        have edge := (canonical.mem_edges wellFormed).2
          ⟨id, core, hasSource, .inl ⟨n, follows, nullable, p, alternative, has⟩⟩
        exact canonical.propagate_rest wellFormed edge t (ih path hasSource later)
  | @advance before after core symbol valid next ih =>
      obtain ⟨middle, shorter, stepped⟩ := follow?_concat.1 path
      obtain ⟨source, hasSource⟩ :=
        (canonical.hasCore_of_valid wellFormed valid shorter).exists_item
      have edge := (canonical.mem_edges wellFormed).2
        ⟨middle, core, hasSource, .inr ⟨symbol, id, next, stepped, has⟩⟩
      exact canonical.propagate_rest wellFormed edge t (ih shorter hasSource begins)

/-- The lookaheads of an item are the terminals that can follow. -/
theorem contains_propagate_iff (canonical : automaton.Canonical g) (wellFormed : g.WellFormed)
    {id : StateId} {core : Core} {item : Nat} (has : automaton.HasItem id core item)
    {t : TerminalId} :
    ((automaton.propagate g).lookaheads.ofItem item).contains t = true ↔
      automaton.Follows g id core t := by
  constructor
  · intro member
    refine all_propagate (canonical.respects_follows wellFormed) ?_ item t member id core has
    intro first looked id core has
    obtain ⟨rfl, rfl⟩ := canonical.item_unique has (hasItem_start looked)
    exact ⟨[], _, rfl, .start, Grammar.begins_terminal _ _⟩
  · rintro ⟨before, after, path, valid, begins⟩
    exact canonical.contains_propagate_of_valid wellFormed valid path has begins

end Canonical

end Automaton

/-- After propagation, a terminal is a lookahead of an item exactly if it can begin what follows the
left-hand side in some context whose left part, with the symbols before the dot, leads to the item's
state. -/
theorem lookaheads_exact (defined : g.IsDefined) {id : StateId} {state : State}
    (found : (Automaton.build g).states[id]? = some state) {core : Core} {item : Nat}
    (numbered : (core, item) ∈ state.items) :
    ∃ production, g.productions[core.production]? = some production ∧
      core.dot ≤ production.right.size ∧
      ∀ t, (((Automaton.build g).propagate g).lookaheads.ofItem item).contains t = true ↔
        ∃ front after, g.Context front production.left after ∧
          (Automaton.build g).follow? initialState
            (front ++ production.right.toList.take core.dot) = some id ∧
          g.Begins after t := by
  have wellFormed := defined.wellFormed
  have canonical := Automaton.canonical_build wellFormed
  have has : (Automaton.build g).HasItem id core item := ⟨state, found, numbered⟩
  obtain ⟨before, path⟩ := canonical.exists_path has.hasCore.lt_size
  obtain ⟨after, valid⟩ := canonical.valid_of_hasCore path has.hasCore
  obtain ⟨_, production, listed, inside, _⟩ := (Grammar.valid_iff wellFormed).1 valid
  refine ⟨production, listed, inside, ?_⟩
  intro t
  rw [canonical.contains_propagate_iff wellFormed has]
  constructor
  · rintro ⟨before, after, path, valid, begins⟩
    obtain ⟨front, again, listed', _, context, rfl⟩ := (Grammar.valid_iff wellFormed).1 valid
    rw [listed] at listed'
    cases listed'
    exact ⟨front, after, context, path, begins⟩
  · rintro ⟨front, after, context, path, begins⟩
    have valid := (Grammar.valid_iff wellFormed).2
      ⟨front, production, listed, inside, context, rfl⟩
    exact ⟨_, after, path, valid, begins⟩

theorem lookaheads_exact_brackets :
    (∃ front after, Grammar.brackets.Context front 1 after ∧
      (Automaton.build .brackets).follow? initialState (front ++ []) = some 2 ∧
      Grammar.brackets.Begins after 2) ∧
    ¬ ∃ front after, Grammar.brackets.Context front 1 after ∧
      (Automaton.build .brackets).follow? initialState (front ++ []) = some 2 ∧
      Grammar.brackets.Begins after endTerminal := by
  obtain ⟨production, listed, _, exact⟩ := @lookaheads_exact _ Grammar.isDefined_brackets 2
    { kernel := [⟨1, 1⟩], added := [⟨1, 0⟩, ⟨2, 0⟩], firstItem := 4,
      transitions := [(.nonterminal 1, 3), (.terminal 1, 2)] }
    (by decide +kernel) ⟨2, 0⟩ 6 (by decide)
  cases listed
  exact ⟨(exact 2).1 (by decide +kernel), fun follows => by
    have contained := (exact endTerminal).2 follows
    revert contained
    decide +kernel⟩

end Lalr
