import Lalr.Automaton.Build
import Lalr.Proofs.Closure
import Mathlib.Algebra.GroupWithZero.Nat
import Mathlib.Data.Finset.Powerset
import Mathlib.Data.List.Dedup

/-!
# The construction of an automaton

The builder pops states from its queue and interns the kernels that their transitions lead to.  Two
invariants describe it.  `Builder.Sound` holds at any time: the map of kernels knows exactly the
states, every state is closed, items are numbered in sequence, and the queue holds the states that
have not been popped.  `Builder.Invariant` holds between two pops: the popped states have all their
transitions, the others none, and every state but the first is the target of a transition.

A kernel is an ascending list of cores over the grammar, and no two states share one.  This limits
the number of states by that of sets of cores, so the bound on pops is never met before the queue
is empty.
-/

namespace Lalr

/-- The core belongs to a production of the grammar, with the dot inside or at the end. -/
def Core.IsOf (g : Grammar) (core : Core) : Prop :=
  ∃ production, g.productions[core.production]? = some production ∧
    core.dot ≤ production.right.size

theorem Core.IsOf.lt_size {g : Grammar} {core : Core} (isOf : core.IsOf g) :
    core.production < g.productions.size := by
  obtain ⟨production, listed, _⟩ := isOf
  exact (Array.getElem?_eq_some_iff.1 listed).1

/-- A kernel is a strictly ascending list of cores over the grammar. -/
structure Grammar.IsKernel (g : Grammar) (kernel : List Core) : Prop where
  ascending : kernel.Pairwise (compare · · = .lt)
  cores : ∀ core ∈ kernel, core.IsOf g

theorem Grammar.isKernel_goto (g : Grammar) (cores : List Core) (symbol : Symbol) :
    g.IsKernel (g.goto cores symbol) := by
  refine ⟨Core.pairwise_sortDistinct _, ?_⟩
  intro target member
  obtain ⟨core, _, next, rfl⟩ := mem_goto.1 member
  obtain ⟨production, listed, here⟩ := Core.next_eq_some.1 next
  refine ⟨production, listed, ?_⟩
  have inside := (List.getElem?_eq_some_iff.1 here).1
  rw [Array.length_toList] at inside
  exact inside

theorem Grammar.isOf_opening {g : Grammar} (wellFormed : g.WellFormed) {core : Core}
    {n : NonterminalId} (opened : core ∈ g.openings n) : core.IsOf g := by
  obtain ⟨front, alternative⟩ := mem_openings.1 opened
  obtain ⟨production, listed, _⟩ := wellFormed.alternatives.1 alternative
  exact ⟨production, listed, by omega⟩

namespace Builder

variable {g : Grammar} {popped : Nat} {builder : Builder}

/-- How many items each state has. -/
def lengths (states : Array State) : List Nat := states.toList.map (·.cores.length)

/-- What holds of a builder at any time. -/
structure Sound (g : Grammar) (popped : Nat) (builder : Builder) : Prop where
  kernels : ∀ {kernel : List Core} {id : StateId}, builder.kernels[kernel]? = some id ↔
    ∃ state, builder.states[id]? = some state ∧ state.kernel = kernel
  added : ∀ {id : StateId} {state : State}, builder.states[id]? = some state →
    state.added = g.expansion g.nonterminals.size ∅ state.kernel
  isKernel : ∀ {id : StateId} {state : State}, builder.states[id]? = some state → g.IsKernel state.kernel
  numbered : ∀ {id : StateId} {state : State}, builder.states[id]? = some state →
    state.firstItem = ((lengths builder.states).take id).sum
  counted : builder.itemCount = (lengths builder.states).sum
  popped_le : popped ≤ builder.states.size
  queue : builder.queue.toList = (List.range builder.states.size).drop popped
  pending : ∀ id, builder.queue.pending.contains id = true ↔ id ∈ builder.queue.toList

/-- The later builder has all states of the earlier one, and new ones without transitions. -/
structure Extends (small large : Builder) : Prop where
  size_le : small.states.size ≤ large.states.size
  old : ∀ {id : StateId} {state : State}, small.states[id]? = some state → large.states[id]? = some state
  new : ∀ {id : StateId} {state : State}, large.states[id]? = some state → small.states.size ≤ id →
    state.transitions = []

theorem Extends.refl (builder : Builder) : Extends builder builder := by
  refine ⟨Nat.le_refl _, fun found => found, ?_⟩
  intro id state found outside
  have inside := (Array.getElem?_eq_some_iff.1 found).1
  omega

theorem Extends.getElem? {small large : Builder} (extended : Extends small large) {id : StateId}
    (inside : id < small.states.size) : large.states[id]? = small.states[id]? := by
  have known := Array.getElem?_eq_getElem inside
  rw [known, extended.old known]

theorem Extends.trans {small middle large : Builder} (first : Extends small middle)
    (second : Extends middle large) : Extends small large := by
  refine ⟨first.size_le.trans second.size_le, fun found => second.old (first.old found), ?_⟩
  intro id state found outside
  by_cases late : middle.states.size ≤ id
  · exact second.new found late
  · have inside : id < middle.states.size := Nat.lt_of_not_le late
    have known := second.old (Array.getElem?_eq_getElem inside)
    rw [found] at known
    have same : state = middle.states[id] := Option.some.inj known
    rw [same]
    exact first.new (Array.getElem?_eq_getElem inside) outside

/-- The state that is made for a kernel. -/
def stateFor (g : Grammar) (kernel : List Core) (builder : Builder) : State :=
  ⟨kernel, g.expansion g.nonterminals.size ∅ kernel, builder.itemCount, []⟩

/-- The builder with a state for a further kernel. -/
def adding (g : Grammar) (kernel : List Core) (builder : Builder) : Builder where
  states := builder.states.push (builder.stateFor g kernel)
  itemCount := (builder.stateFor g kernel).endItem
  kernels := builder.kernels.insert kernel builder.states.size
  queue := (builder.queue.push builder.states.size).2

theorem intern_of_some {kernel : List Core} {id : StateId}
    (known : builder.kernels[kernel]? = some id) : builder.intern g kernel = (id, builder) := by
  simp [intern, known]

theorem intern_of_none {kernel : List Core} (unknown : builder.kernels[kernel]? = none) :
    builder.intern g kernel = (builder.states.size, builder.adding g kernel) := by
  simp [intern, unknown, adding, stateFor]

theorem getElem?_adding {kernel : List Core} {id : Nat} {state : State} :
    (builder.adding g kernel).states[id]? = some state ↔
      builder.states[id]? = some state ∨
        id = builder.states.size ∧ state = builder.stateFor g kernel := by
  simp only [adding, Array.getElem?_push]
  by_cases last : id = builder.states.size
  · simp [last, eq_comm]
  · simp [last]

theorem lengths_adding (kernel : List Core) :
    lengths (builder.adding g kernel).states =
      lengths builder.states ++ [(builder.stateFor g kernel).cores.length] := by
  simp [lengths, adding]

theorem length_lengths (states : Array State) : (lengths states).length = states.size := by
  simp [lengths]

theorem endItem_stateFor (kernel : List Core) :
    (builder.stateFor g kernel).endItem =
      builder.itemCount + (builder.stateFor g kernel).cores.length := by
  simp only [State.endItem, State.cores, stateFor, List.length_append]
  omega

theorem drop_range_succ {count size : Nat} (le : count ≤ size) :
    (List.range (size + 1)).drop count = (List.range size).drop count ++ [size] := by
  rw [List.range_succ, List.drop_append_of_le_length (by simpa using le)]

/-- The map of kernels still knows exactly the states. -/
theorem Sound.kernels_adding (sound : Sound g popped builder) {kernel : List Core}
    (unknown : builder.kernels[kernel]? = none) {other : List Core} {id : StateId} :
    (builder.adding g kernel).kernels[other]? = some id ↔
      ∃ state, (builder.adding g kernel).states[id]? = some state ∧ state.kernel = other := by
  rw [Builder.adding, Std.TreeMap.getElem?_insert]
  split
  · next equal =>
      have same : kernel = other := Std.LawfulEqOrd.eq_of_compare equal
      subst same
      constructor
      · intro found
        have last : builder.states.size = id := by simpa using found
        exact ⟨_, getElem?_adding.2 (.inr ⟨last.symm, rfl⟩), rfl⟩
      · rintro ⟨state, found, kernelEq⟩
        rcases getElem?_adding.1 found with old | ⟨last, _⟩
        · rw [sound.kernels.2 ⟨state, old, kernelEq⟩] at unknown
          cases unknown
        · rw [last]
  · next different =>
      rw [sound.kernels]
      constructor
      · rintro ⟨state, found, kernelEq⟩
        exact ⟨state, getElem?_adding.2 (.inl found), kernelEq⟩
      · rintro ⟨state, found, kernelEq⟩
        rcases getElem?_adding.1 found with old | ⟨_, rfl⟩
        · exact ⟨state, old, kernelEq⟩
        · have same : kernel = other := kernelEq
          rw [same] at different
          exact absurd Std.ReflCmp.compare_self different

theorem Sound.adding (sound : Sound g popped builder) {kernel : List Core}
    (isKernel : g.IsKernel kernel) (unknown : builder.kernels[kernel]? = none) :
    Sound g popped (builder.adding g kernel) := by
  have size : (builder.adding g kernel).states.size = builder.states.size + 1 := by
    simp [Builder.adding]
  have unqueued : builder.queue.pending.contains builder.states.size = false := by
    rw [← Bool.not_eq_true, sound.pending, sound.queue]
    intro member
    have inside := List.mem_of_mem_drop member
    simp at inside
  have queued : (builder.adding g kernel).queue.toList =
      builder.queue.toList ++ [builder.states.size] := WorkQueue.toList_push unqueued
  refine ⟨sound.kernels_adding unknown, ?added, ?isKernel, ?numbered, ?counted, ?popped_le, ?queue,
    ?pending⟩
  case added =>
    intro id state found
    rcases getElem?_adding.1 found with old | ⟨_, rfl⟩
    · exact sound.added old
    · rfl
  case isKernel =>
    intro id state found
    rcases getElem?_adding.1 found with old | ⟨_, rfl⟩
    · exact sound.isKernel old
    · exact isKernel
  case numbered =>
    intro id state found
    rw [lengths_adding]
    rcases getElem?_adding.1 found with old | ⟨rfl, rfl⟩
    · have inside := (Array.getElem?_eq_some_iff.1 old).1
      rw [List.take_append_of_le_length (by rw [length_lengths]; omega)]
      exact sound.numbered old
    · rw [← length_lengths builder.states, List.take_left]
      exact sound.counted
  case counted =>
    rw [lengths_adding, List.sum_append, List.sum_singleton, ← sound.counted]
    exact endItem_stateFor kernel
  case popped_le =>
    rw [size]
    exact Nat.le_succ_of_le sound.popped_le
  case queue => rw [queued, size, drop_range_succ sound.popped_le, sound.queue]
  case pending =>
    intro id
    rw [queued, List.mem_append, List.mem_singleton, ← sound.pending]
    simp only [Builder.adding, WorkQueue.push, unqueued, Bool.false_eq_true, if_false,
      Std.TreeSet.contains_insert, Bool.or_eq_true, beq_iff_eq]
    rw [compare_eq_iff_eq, or_comm, @eq_comm _ id]

theorem extends_adding (kernel : List Core) : Extends builder (builder.adding g kernel) := by
  refine ⟨by simp [adding], fun found => getElem?_adding.2 (.inl found), ?_⟩
  intro id state found outside
  rcases getElem?_adding.1 found with old | ⟨_, rfl⟩
  · have inside := (Array.getElem?_eq_some_iff.1 old).1
    omega
  · rfl

theorem Sound.intern (sound : Sound g popped builder) {kernel : List Core}
    (isKernel : g.IsKernel kernel) {id : StateId} {after : Builder}
    (interned : builder.intern g kernel = (id, after)) :
    Sound g popped after ∧ Extends builder after ∧
      (∃ state, after.states[id]? = some state ∧ state.kernel = kernel) ∧
      ∀ other, builder.states.size ≤ other → other < after.states.size → other = id := by
  cases known : builder.kernels[kernel]? with
  | some found =>
      rw [intern_of_some known] at interned
      cases interned
      refine ⟨sound, .refl builder, sound.kernels.1 known, ?_⟩
      intro other outside inside
      omega
  | none =>
      rw [intern_of_none known] at interned
      cases interned
      refine ⟨sound.adding isKernel known, extends_adding kernel,
        ⟨_, getElem?_adding.2 (.inr ⟨rfl, rfl⟩), rfl⟩, ?_⟩
      intro other outside inside
      simp only [Builder.adding, Array.size_push] at inside
      exact Nat.le_antisymm (Nat.le_of_lt_succ inside) outside

/-- Interning the kernels that moves lead to gives the transitions of a state. -/
theorem Sound.internAll (sound : Sound g popped builder) {cores : List Core}
    {symbols : List Symbol} {transitions : List (Symbol × StateId)} {after : Builder}
    (interned : builder.internAll g (g.moves cores) symbols = (transitions, after)) :
    Sound g popped after ∧ Extends builder after ∧ transitions.map (·.1) = symbols ∧
      (∀ symbol target, (symbol, target) ∈ transitions →
        ∃ state, after.states[target]? = some state ∧ state.kernel = g.goto cores symbol) ∧
      ∀ other, builder.states.size ≤ other → other < after.states.size →
        ∃ symbol, (symbol, other) ∈ transitions := by
  induction symbols generalizing builder transitions with
  | nil =>
      cases interned
      refine ⟨sound, .refl _, rfl, by simp, ?_⟩
      intro other outside inside
      omega
  | cons symbol rest ih =>
      cases first : builder.intern g (movesAcross (g.moves cores) symbol) with
      | mk target middle =>
          cases others : middle.internAll g (g.moves cores) rest with
          | mk later final =>
              simp only [Builder.internAll, first, others, Prod.mk.injEq] at interned
              obtain ⟨rfl, rfl⟩ := interned
              obtain ⟨middleSound, extended, ⟨state, found, kernelEq⟩, onlyNew⟩ :=
                sound.intern (g.isKernel_goto cores symbol) first
              obtain ⟨finalSound, further, domain, targets, fresh⟩ := ih middleSound others
              refine ⟨finalSound, extended.trans further, by simp [domain], ?_, ?_⟩
              · intro other reached member
                rcases List.mem_cons.1 member with same | member
                · cases same
                  exact ⟨state, further.old found, kernelEq⟩
                · exact targets other reached member
              · intro other outside inside
                by_cases late : middle.states.size ≤ other
                · obtain ⟨across, member⟩ := fresh other late inside
                  exact ⟨across, List.mem_cons_of_mem _ member⟩
                · have same := onlyNew other outside (Nat.lt_of_not_le late)
                  rw [same]
                  exact ⟨symbol, List.mem_cons_self ..⟩

/-- What holds of a builder between two pops. -/
structure Invariant (g : Grammar) (popped : Nat) (builder : Builder) : Prop
    extends Sound g popped builder where
  initial : ∃ state, builder.states[initialState]? = some state ∧
    state.kernel = [⟨acceptProduction, 0⟩]
  expanded : ∀ {id : StateId} {state : State}, builder.states[id]? = some state → id < popped →
    state.transitions.map (·.1) = outgoing (g.moves state.cores) ∧
      ∀ symbol target, (symbol, target) ∈ state.transitions →
        ∃ reached, builder.states[target]? = some reached ∧
          reached.kernel = g.goto state.cores symbol
  waiting : ∀ {id : StateId} {state : State}, builder.states[id]? = some state → popped ≤ id →
    state.transitions = []
  reached : ∀ id < builder.states.size, id ≠ initialState → ∃ source < id, ∃ state,
    builder.states[source]? = some state ∧ ∃ symbol, (symbol, id) ∈ state.transitions

def withTransitions (transitions : List (Symbol × StateId)) (state : State) : State :=
  { state with transitions }

/-- The builder with the transitions of one state written down. -/
def writing (id : StateId) (transitions : List (Symbol × StateId)) (builder : Builder) : Builder :=
  { builder with states := builder.states.modify id (withTransitions transitions) }

section Writing

variable {id other : StateId} {state : State} {transitions : List (Symbol × StateId)}

@[simp]
theorem size_writing : (builder.writing id transitions).states.size = builder.states.size :=
  Array.size_modify

theorem getElem?_writing_self (found : builder.states[id]? = some state) :
    (builder.writing id transitions).states[id]? = some (withTransitions transitions state) := by
  rw [writing, Array.getElem?_modify, if_pos rfl, found]
  rfl

theorem getElem?_writing_of_ne (different : other ≠ id) :
    (builder.writing id transitions).states[other]? = builder.states[other]? := by
  rw [writing, Array.getElem?_modify, if_neg different.symm]

/-- A state keeps all but its transitions. -/
theorem getElem?_of_writing (found : (builder.writing id transitions).states[other]? = some state) :
    ∃ old, builder.states[other]? = some old ∧ state.kernel = old.kernel ∧
      state.added = old.added ∧ state.firstItem = old.firstItem := by
  by_cases same : other = id
  · subst same
    rw [writing, Array.getElem?_modify, if_pos rfl, Option.map_eq_some_iff] at found
    obtain ⟨old, known, rfl⟩ := found
    exact ⟨old, known, rfl, rfl, rfl⟩
  · rw [getElem?_writing_of_ne same] at found
    exact ⟨state, found, rfl, rfl, rfl⟩

theorem exists_writing (known : builder.states[other]? = some state) :
    ∃ new, (builder.writing id transitions).states[other]? = some new ∧
      new.kernel = state.kernel := by
  by_cases same : other = id
  · subst same
    exact ⟨_, getElem?_writing_self known, rfl⟩
  · exact ⟨state, (getElem?_writing_of_ne same).trans known, rfl⟩

theorem lengths_writing :
    lengths (builder.writing id transitions).states = lengths builder.states := by
  apply List.ext_getElem?
  intro place
  simp only [lengths, writing, List.getElem?_map, Array.getElem?_toList, Array.getElem?_modify]
  split
  · cases builder.states[place]? <;> rfl
  · rfl

theorem Sound.writing (sound : Sound g popped builder) :
    Sound g popped (builder.writing id transitions) := by
  refine ⟨?kernels, ?added, ?isKernel, ?numbered, ?counted, ?popped_le, ?queue, sound.pending⟩
  case kernels =>
    intro kernel other
    refine sound.kernels.trans ?_
    constructor
    · rintro ⟨old, known, rfl⟩
      exact exists_writing known
    · rintro ⟨state, found, rfl⟩
      obtain ⟨old, known, sameKernel, _⟩ := getElem?_of_writing found
      exact ⟨old, known, sameKernel.symm⟩
  case added =>
    intro other state found
    obtain ⟨old, known, sameKernel, sameAdded, _⟩ := getElem?_of_writing found
    rw [sameAdded, sameKernel]
    exact sound.added known
  case isKernel =>
    intro other state found
    obtain ⟨old, known, sameKernel, _⟩ := getElem?_of_writing found
    rw [sameKernel]
    exact sound.isKernel known
  case numbered =>
    intro other state found
    obtain ⟨old, known, _, _, sameFirst⟩ := getElem?_of_writing found
    rw [sameFirst, lengths_writing]
    exact sound.numbered known
  case counted =>
    rw [lengths_writing]
    exact sound.counted
  case popped_le =>
    rw [size_writing]
    exact sound.popped_le
  case queue =>
    rw [size_writing]
    exact sound.queue

end Writing

theorem Sound.pop (sound : Sound g popped builder) {id : StateId} {queue : WorkQueue StateId}
    (taken : builder.queue.pop = some (id, queue)) :
    id = popped ∧ popped < builder.states.size ∧ Sound g (popped + 1) { builder with queue } := by
  have listed := WorkQueue.toList_of_pop taken
  rw [sound.queue] at listed
  have inside : popped < builder.states.size := by
    by_contra outside
    rw [List.drop_eq_nil_of_le (by simpa using outside)] at listed
    cases listed
  rw [List.drop_eq_getElem_cons (by simpa using inside), List.getElem_range,
    List.cons.injEq] at listed
  obtain ⟨same, rest⟩ := listed
  refine ⟨same.symm, inside, sound.kernels, sound.added, sound.isKernel, sound.numbered,
    sound.counted, inside, rest.symm, ?_⟩
  intro other
  have erased : queue.pending = builder.queue.pending.erase id := by
    unfold WorkQueue.pop at taken
    split at taken
    · cases taken
      rfl
    · split at taken
      · cases taken
      · cases taken
        rfl
  have members : other ∈ builder.queue.toList ↔ other = id ∨ other ∈ queue.toList := by
    rw [WorkQueue.toList_of_pop taken, List.mem_cons]
  have once : id ∉ queue.toList := by
    rw [← rest, ← same]
    intro again
    obtain ⟨place, bound, here⟩ := List.getElem_of_mem again
    rw [List.getElem_drop, List.getElem_range] at here
    have beyond : popped + 1 + place = popped := here
    omega
  simp only [erased, Std.TreeSet.contains_erase, Bool.and_eq_true, bne_iff_ne, ne_eq,
    compare_eq_iff_eq, sound.pending, members]
  constructor
  · rintro ⟨different, equal | member⟩
    · exact absurd equal.symm different
    · exact member
  · intro member
    refine ⟨?_, .inr member⟩
    rintro rfl
    exact once member

/-- What is done to the popped state before its transitions are written down: the kernels that its
moves lead to are interned. -/
structure Turn (g : Grammar) (popped : Nat) (builder : Builder) (state : State)
    (transitions : List (Symbol × StateId)) (after : Builder) : Prop where
  here : builder.states[popped]? = some state
  before : Sound g (popped + 1) builder
  interned : builder.internAll g (g.moves state.cores) (outgoing (g.moves state.cores)) =
    (transitions, after)
  sound : Sound g (popped + 1) after
  extended : Extends builder after
  symbols : transitions.map (·.1) = outgoing (g.moves state.cores)
  targets : ∀ symbol target, (symbol, target) ∈ transitions →
    ∃ reached, after.states[target]? = some reached ∧ reached.kernel = g.goto state.cores symbol
  fresh : ∀ other, builder.states.size ≤ other → other < after.states.size →
    ∃ symbol, (symbol, other) ∈ transitions

/-- Expanding the popped state is a turn, after which the transitions are written down. -/
theorem Sound.exists_turn (sound : Sound g popped builder) {id : StateId}
    {queue : WorkQueue StateId} (taken : builder.queue.pop = some (id, queue)) :
    id = popped ∧ ∃ state transitions after,
      Turn g popped { builder with queue } state transitions after ∧
        expand g id { builder with queue } = after.writing popped transitions := by
  obtain ⟨rfl, inside, before⟩ := sound.pop taken
  refine ⟨rfl, builder.states[id], ?_⟩
  have here : builder.states[id]? = some builder.states[id] := Array.getElem?_eq_getElem inside
  generalize builder.states[id] = state at here
  cases interned : ({ builder with queue } : Builder).internAll g (g.moves state.cores)
      (outgoing (g.moves state.cores)) with
  | mk transitions after =>
      obtain ⟨afterSound, extended, symbols, targets, fresh⟩ := before.internAll interned
      refine ⟨transitions, after,
        ⟨here, before, interned, afterSound, extended, symbols, targets, fresh⟩, ?_⟩
      simp only [expand, here, interned]
      rfl

namespace Turn

variable {queue : WorkQueue StateId} {state : State} {transitions : List (Symbol × StateId)}
  {after : Builder}

theorem inside (turn : Turn g popped builder state transitions after) :
    popped < builder.states.size := turn.before.popped_le

/-- What a state leads to stays known. -/
theorem exists_reached {large : Builder} (extended : Extends builder large) {id : StateId}
    {kernel : List Core}
    (reached : ∃ old, builder.states[id]? = some old ∧ old.kernel = kernel) :
    ∃ new, (large.writing popped transitions).states[id]? = some new ∧ new.kernel = kernel := by
  obtain ⟨old, known, rfl⟩ := reached
  exact exists_writing (extended.old known)

theorem expanded (turn : Turn g popped { builder with queue } state transitions after)
    (invariant : Invariant g popped builder) {id : StateId} {new : State}
    (found : (after.writing popped transitions).states[id]? = some new) (early : id < popped + 1) :
    new.transitions.map (·.1) = outgoing (g.moves new.cores) ∧
      ∀ symbol target, (symbol, target) ∈ new.transitions →
        ∃ reached, (after.writing popped transitions).states[target]? = some reached ∧
          reached.kernel = g.goto new.cores symbol := by
  by_cases last : id = popped
  · subst last
    rw [getElem?_writing_self (turn.extended.old turn.here)] at found
    cases found
    exact ⟨turn.symbols, fun symbol target member =>
      exists_reached (.refl after) (turn.targets symbol target member)⟩
  · have earlier : id < popped := Nat.lt_of_le_of_ne (Nat.le_of_lt_succ early) last
    rw [getElem?_writing_of_ne last, turn.extended.getElem? (earlier.trans turn.inside)] at found
    obtain ⟨symbols, targets⟩ := invariant.expanded found earlier
    exact ⟨symbols, fun symbol target member =>
      exists_reached turn.extended (targets symbol target member)⟩

theorem waiting (turn : Turn g popped { builder with queue } state transitions after)
    (invariant : Invariant g popped builder) {id : StateId} {new : State}
    (found : (after.writing popped transitions).states[id]? = some new) (late : popped + 1 ≤ id) :
    new.transitions = [] := by
  rw [getElem?_writing_of_ne (Nat.ne_of_gt late)] at found
  by_cases old : id < builder.states.size
  · rw [turn.extended.getElem? old] at found
    exact invariant.waiting found (Nat.le_of_succ_le late)
  · exact turn.extended.new found (Nat.le_of_not_lt old)

theorem reached (turn : Turn g popped { builder with queue } state transitions after)
    (invariant : Invariant g popped builder) {id : StateId}
    (within : id < (after.writing popped transitions).states.size) (positive : id ≠ initialState) :
    ∃ source < id, ∃ new, (after.writing popped transitions).states[source]? = some new ∧
      ∃ symbol, (symbol, id) ∈ new.transitions := by
  by_cases known : id < builder.states.size
  · obtain ⟨source, less, old, found, symbol, leads⟩ := invariant.reached id known positive
    refine ⟨source, less, old, ?_, symbol, leads⟩
    -- The popped state has had no transitions before.
    have other : source ≠ popped := by
      rintro rfl
      rw [invariant.waiting found (Nat.le_refl _)] at leads
      cases leads
    rw [getElem?_writing_of_ne other, turn.extended.old found]
  · have new : builder.states.size ≤ id := Nat.le_of_not_lt known
    rw [size_writing] at within
    exact ⟨popped, turn.inside.trans_le new, _,
      getElem?_writing_self (turn.extended.old turn.here), turn.fresh id new within⟩

end Turn

/-- Expanding the popped state keeps the invariant. -/
theorem Invariant.expand (invariant : Invariant g popped builder) {id : StateId}
    {queue : WorkQueue StateId} (taken : builder.queue.pop = some (id, queue)) :
    Invariant g (popped + 1) (expand g id { builder with queue }) := by
  obtain ⟨rfl, state, transitions, after, turn, expandEq⟩ := invariant.toSound.exists_turn taken
  rw [expandEq]
  refine ⟨turn.sound.writing, ?initial, ?expanded, ?waiting, ?reached⟩
  case initial => exact Turn.exists_reached turn.extended invariant.initial
  case expanded => exact turn.expanded invariant
  case waiting => exact turn.waiting invariant
  case reached => exact fun other within positive => turn.reached invariant within positive

theorem sound_empty (g : Grammar) : Sound g 0 empty := by
  have vacant : ∀ {id : StateId} {state : State}, ¬ empty.states[id]? = some state := by
    simp [empty]
  refine ⟨?kernels, fun found => absurd found vacant, fun found => absurd found vacant,
    fun found => absurd found vacant, rfl, Nat.le_refl _, rfl, ?pending⟩
  case kernels => simp [empty]
  case pending => simp [empty, WorkQueue.empty, WorkQueue.toList]

theorem invariant_start (wellFormed : g.WellFormed) : Invariant g 0 (start g) := by
  have isKernel : g.IsKernel [⟨acceptProduction, 0⟩] := by
    refine ⟨List.pairwise_singleton _ _, ?_⟩
    intro core member
    rw [List.mem_singleton.1 member]
    exact ⟨_, wellFormed.augmented, Nat.zero_le _⟩
  have unknown : empty.kernels[[(⟨acceptProduction, 0⟩ : Core)]]? = none := by simp [empty]
  have startEq : start g = empty.adding g [⟨acceptProduction, 0⟩] := by
    rw [start, intern_of_none unknown]
  have only : ∀ {id : StateId} {state : State}, (start g).states[id]? = some state →
      id = initialState ∧ state = empty.stateFor g [⟨acceptProduction, 0⟩] := by
    intro id state found
    rw [startEq] at found
    rcases getElem?_adding.1 found with old | last
    · simp [empty] at old
    · exact last
  rw [startEq] at only ⊢
  refine ⟨(sound_empty g).adding isKernel unknown, ?initial, ?expanded, ?waiting, ?reached⟩
  case initial => exact ⟨_, getElem?_adding.2 (.inr ⟨rfl, rfl⟩), rfl⟩
  case expanded =>
    intro id state _ early
    exact absurd early (Nat.not_lt_zero _)
  case waiting =>
    intro id state found _
    rw [(only found).2]
    rfl
  case reached =>
    intro id within positive
    exact absurd (only (Array.getElem?_eq_getElem within)).1 positive

/-- Running either empties the queue or uses up the bound.  What else every expansion keeps holds in
the end, too. -/
theorem Invariant.run {keep : Builder → Prop}
    (keeps : ∀ {popped : Nat} {builder : Builder} {id : StateId} {queue : WorkQueue StateId},
      Invariant g popped builder → keep builder → builder.queue.pop = some (id, queue) →
      keep (Builder.expand g id { builder with queue }))
    (invariant : Invariant g popped builder) (kept : keep builder) (bound : Nat) :
    ∃ final, Invariant g final (run g bound builder) ∧ keep (run g bound builder) ∧
      (final = (run g bound builder).states.size ∨ final = popped + bound) := by
  induction bound generalizing popped builder with
  | zero => exact ⟨popped, invariant, kept, .inr rfl⟩
  | succ bound ih =>
      rw [Builder.run]
      cases taken : builder.queue.pop with
      | none =>
          refine ⟨popped, invariant, kept, .inl ?_⟩
          have vacant := WorkQueue.pop_eq_none_iff.1 taken
          rw [invariant.queue, List.drop_eq_nil_iff, List.length_range] at vacant
          exact Nat.le_antisymm invariant.popped_le vacant
      | some next =>
          obtain ⟨id, queue⟩ := next
          obtain ⟨final, ended, still, reached⟩ :=
            ih (invariant.expand taken) (keeps invariant kept taken)
          exact ⟨final, ended, still, reached.imp_right fun used => by omega⟩

theorem run_of_ended (ended : builder.queue.pop = none) (bound : Nat) :
    run g bound builder = builder := by
  cases bound with
  | zero => rfl
  | succ bound => rw [run, ended]

theorem run_add (first second : Nat) :
    run g (first + second) builder = run g second (run g first builder) := by
  induction first generalizing builder with
  | zero => rw [Nat.zero_add, run]
  | succ first ih =>
      rw [Nat.succ_add, run, run]
      cases taken : builder.queue.pop with
      | none => exact (run_of_ended taken second).symm
      | some next => exact ih

/-- Two runs that both empty the queue end alike. -/
theorem run_unique {first second : Nat} (ended : (run g first builder).queue.pop = none)
    (ended' : (run g second builder).queue.pop = none) :
    run g first builder = run g second builder := by
  rcases Nat.le_total first second with less | less
  · obtain ⟨more, rfl⟩ := Nat.exists_eq_add_of_le less
    rw [run_add, run_of_ended ended]
  · obtain ⟨more, rfl⟩ := Nat.exists_eq_add_of_le less
    rw [run_add, run_of_ended ended']

/-- All cores of a state are cores over the grammar. -/
theorem Sound.isOf (wellFormed : g.WellFormed) (sound : Sound g popped builder) {id : StateId}
    {state : State} (found : builder.states[id]? = some state) :
    ∀ core ∈ state.cores, core.IsOf g := by
  rw [State.cores, sound.added found]
  exact Grammar.closure_induction (sound.isKernel found).cores
    fun _ _ _ _ _ opened => Grammar.isOf_opening wellFormed opened

end Builder

end Lalr
