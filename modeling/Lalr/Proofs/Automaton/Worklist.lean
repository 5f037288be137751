import Lalr.Proofs.Automaton.Path
import Mathlib.Data.Set.Function

/-!
# The order of the work

The construction of an automaton takes one state after another from its queue, and goes on until none
waits.  While it finds the transitions of one state it may add others, which join the queue.  Between
two turns, the queue holds the states from the first that has not been expanded to the last, each of
them once.  So states are popped in the order of their numbers, and no state comes back.

The loop ends because every turn pops a further state, and because the kernels of all states are
different ascending lists of cores over one grammar, of which there is a limited number.
-/

namespace Lalr

variable {g : Grammar}

namespace Builder

/-- The builders between two turns of the loop, with the states that have been popped before. -/
inductive AfterPops (g : Grammar) : List StateId → Builder → Prop
  | start : AfterPops g [] (start g)
  | turn {popped : List StateId} {builder : Builder} {id : StateId} {queue : WorkQueue StateId}
      (before : AfterPops g popped builder) (taken : builder.queue.pop = some (id, queue)) :
      AfterPops g (popped ++ [id]) (expand g id { builder with queue })

/-- The kernels of the states, in the order of these. -/
def stateKernels (builder : Builder) : List (List Core) := builder.states.toList.map State.kernel

/-- What holds of a builder between two turns, when the given number of states has been expanded. -/
structure InOrder (g : Grammar) (expanded : Nat) (builder : Builder) : Prop where
  expanded_le : expanded ≤ builder.states.size
  queue : builder.queue.toList = List.range' expanded (builder.states.size - expanded)
  once : builder.queue.toList.Nodup
  pending : ∀ id, builder.queue.pending.contains id = true ↔ id ∈ builder.queue.toList
  known : ∀ (kernel : List Core) (id : StateId), builder.kernels[kernel]? = some id ↔
    ∃ state, builder.states[id]? = some state ∧ state.kernel = kernel
  distinct : builder.stateKernels.Nodup
  numbers : Set.BijOn (fun kernel : List Core => builder.kernels[kernel]?)
    {kernel | kernel ∈ builder.stateKernels} (some '' Set.Iio builder.states.size)
  closed : ∀ {id : StateId} {state : State}, builder.states[id]? = some state →
    state.cores = g.closure state.kernel
  complete : ∀ {id : StateId} {state : State}, builder.states[id]? = some state → id < expanded →
    (∀ symbol, (∃ target, (symbol, target) ∈ state.transitions) ↔
      symbol ≠ .terminal endTerminal ∧ ∃ core ∈ state.cores, core.next g = some symbol) ∧
    ∀ symbol target, (symbol, target) ∈ state.transitions →
      builder.kernels[g.goto state.cores symbol]? = some target
  waiting : ∀ {id : StateId} {state : State}, builder.states[id]? = some state → expanded ≤ id →
    state.transitions = []
  ascending : ∀ {id : StateId} {state : State}, builder.states[id]? = some state →
    state.kernel.Pairwise fun core later => core.production < later.production ∨
      core.production = later.production ∧ core.dot < later.dot
  inside : ∀ {id : StateId} {state : State}, builder.states[id]? = some state →
    ∀ core ∈ state.kernel, ∃ production, g.productions[core.production]? = some production ∧
      core.dot ≤ production.right.size

variable {popped : Nat} {builder : Builder}

theorem Sound.nodup_kernels (sound : Sound g popped builder) :
    builder.stateKernels.Nodup := by
  rw [stateKernels, List.Nodup, List.pairwise_iff_getElem]
  intro id other inside inside' before same
  simp only [List.length_map, Array.length_toList] at inside inside'
  simp only [List.getElem_map, Array.getElem_toList] at same
  have first := sound.kernels.2 ⟨_, Array.getElem?_eq_getElem inside, same⟩
  rw [sound.kernels.2 ⟨_, Array.getElem?_eq_getElem inside', rfl⟩] at first
  exact absurd (Option.some.inj first) (Nat.ne_of_gt before)

theorem Sound.mem_stateKernels (sound : Sound g popped builder) {kernel : List Core} :
    kernel ∈ builder.stateKernels ↔ ∃ id, builder.kernels[kernel]? = some id := by
  simp only [stateKernels, sound.kernels, List.mem_iff_getElem?, List.getElem?_map,
    Option.map_eq_some_iff, Array.getElem?_toList]

theorem Sound.bijOn_kernels (sound : Sound g popped builder) :
    Set.BijOn (fun kernel : List Core => builder.kernels[kernel]?)
      {kernel | kernel ∈ builder.stateKernels} (some '' Set.Iio builder.states.size) := by
  refine ⟨?_, ?_, ?_⟩
  · intro kernel member
    obtain ⟨id, found⟩ := sound.mem_stateKernels.1 member
    obtain ⟨state, here, _⟩ := sound.kernels.1 found
    exact ⟨id, (Array.getElem?_eq_some_iff.1 here).1, found.symm⟩
  · intro kernel member other _ same
    obtain ⟨id, found⟩ := sound.mem_stateKernels.1 member
    obtain ⟨state, here, rfl⟩ := sound.kernels.1 found
    obtain ⟨state', here', rfl⟩ := sound.kernels.1 (same.symm.trans found)
    rw [here] at here'
    cases here'
    rfl
  · rintro _ ⟨id, inside, rfl⟩
    have found := sound.kernels.2 ⟨_, Array.getElem?_eq_getElem inside, rfl⟩
    exact ⟨_, sound.mem_stateKernels.2 ⟨id, found⟩, found⟩

theorem Invariant.inOrder (invariant : Invariant g popped builder) : InOrder g popped builder := by
  have queue : builder.queue.toList = List.range' popped (builder.states.size - popped) := by
    rw [invariant.queue, List.range_eq_range', List.drop_range', Nat.zero_add, Nat.mul_one]
  refine {
    expanded_le := invariant.popped_le
    queue
    once := ?once
    pending := invariant.pending
    known := fun _ _ => invariant.kernels
    distinct := invariant.toSound.nodup_kernels
    numbers := invariant.toSound.bijOn_kernels
    closed := ?closed
    complete := ?complete
    waiting := invariant.waiting
    ascending := fun found => (invariant.isKernel found).ascending.imp Core.lt_iff.1
    inside := fun found => (invariant.isKernel found).cores }
  case once =>
    rw [queue]
    exact List.nodup_range'
  case closed =>
    intro id state found
    rw [State.cores, invariant.added found]
    rfl
  case complete =>
    intro id state found early
    obtain ⟨symbols, targets⟩ := invariant.expanded found early
    exact ⟨Automaton.exists_transition_iff symbols,
      fun symbol target member => invariant.kernels.2 (targets symbol target member)⟩

namespace AfterPops

variable {popped : List StateId}

/-- A turn pops the first state that has not been expanded. -/
theorem invariant (wellFormed : g.WellFormed) (after : AfterPops g popped builder) :
    popped = List.range popped.length ∧ Invariant g popped.length builder := by
  induction after with
  | start => exact ⟨rfl, invariant_start wellFormed⟩
  | @turn popped builder id queue before taken ih =>
      obtain ⟨inOrder, invariant⟩ := ih
      have next : id = popped.length := (invariant.toSound.pop taken).1
      rw [List.length_append, List.length_singleton]
      refine ⟨?_, invariant.expand taken⟩
      rw [List.range_succ, ← inOrder, next]

theorem eq_run (after : AfterPops g popped builder) :
    run g popped.length (Builder.start g) = builder := by
  induction after with
  | start => rfl
  | turn before taken ih =>
      rw [List.length_append, run_add, ih, List.length_singleton, run, taken]
      rfl

/-- However many turns are allowed, the loop goes through builders. -/
theorem run (after : AfterPops g popped builder) (bound : Nat) :
    ∃ later, AfterPops g (popped ++ later) (Builder.run g bound builder) := by
  induction bound generalizing popped builder with
  | zero => exact ⟨[], by rwa [List.append_nil]⟩
  | succ bound ih =>
      rw [Builder.run]
      cases taken : builder.queue.pop with
      | none => exact ⟨[], by rwa [List.append_nil]⟩
      | some next =>
          obtain ⟨later, goesOn⟩ := ih (after.turn taken)
          rw [List.append_assoc] at goesOn
          exact ⟨_, goesOn⟩

end AfterPops

end Builder

/-- The bound on pops that the construction allows leaves enough for a builder to go on. -/
theorem Builder.AfterPops.exists_rest (wellFormed : g.WellFormed) {popped : List StateId}
    {builder : Builder} (after : AfterPops g popped builder) :
    ∃ more, (Automaton.build g).states = (Builder.run g more builder).states := by
  obtain ⟨_, invariant⟩ := after.invariant wellFormed
  have enough : popped.length ≤ 1 <<< g.coreCount := by
    rw [Nat.one_shiftLeft]
    exact invariant.popped_le.trans invariant.toSound.size_le
  obtain ⟨more, split⟩ := Nat.exists_eq_add_of_le enough
  refine ⟨more, ?_⟩
  rw [← after.eq_run, ← run_add, ← split]
  rfl

/-- No more states are popped than there are in the end. -/
theorem Builder.AfterPops.length_le (wellFormed : g.WellFormed) {popped : List StateId}
    {builder : Builder} (after : AfterPops g popped builder) :
    popped.length ≤ (Automaton.build g).states.size := by
  obtain ⟨more, built⟩ := after.exists_rest wellFormed
  obtain ⟨later, final⟩ := after.run more
  obtain ⟨_, ended⟩ := final.invariant wellFormed
  rw [built]
  rw [List.length_append] at ended
  exact (Nat.le_add_right _ _).trans ended.popped_le

/-- A kernel that has been interned keeps its number. -/
theorem Builder.AfterPops.kernel_build (wellFormed : g.WellFormed) {popped : List StateId}
    {builder : Builder} (after : AfterPops g popped builder) {id : StateId} {kernel : List Core}
    (interned : ∃ state, builder.states[id]? = some state ∧ state.kernel = kernel) :
    ∃ state, (Automaton.build g).states[id]? = some state ∧ state.kernel = kernel := by
  obtain ⟨more, built⟩ := after.exists_rest wellFormed
  obtain ⟨_, invariant⟩ := after.invariant wellFormed
  let knows (builder : Builder) : Prop :=
    ∃ state, builder.states[id]? = some state ∧ state.kernel = kernel
  have keeps : ∀ {popped : Nat} {builder : Builder} {next : StateId} {queue : WorkQueue StateId},
      Invariant g popped builder → knows builder → builder.queue.pop = some (next, queue) →
      knows (Builder.expand g next { builder with queue }) := by
    intro popped builder next queue invariant known taken
    obtain ⟨_, _, _, _, turn, expandEq⟩ := invariant.toSound.exists_turn taken
    rw [expandEq]
    exact Turn.exists_reached turn.extended known
  obtain ⟨_, _, known, _⟩ := invariant.run keeps interned more
  rwa [built]

/-- In the end all states have been popped. -/
theorem Builder.exists_afterPops_all (wellFormed : g.WellFormed) :
    ∃ builder, AfterPops g (List.range (Automaton.build g).states.size) builder ∧
      builder.queue.pop = none ∧ (Automaton.build g).states = builder.states := by
  have ended := run_start_ended wellFormed
  obtain ⟨popped, final⟩ := AfterPops.start.run (1 <<< g.coreCount)
  rw [List.nil_append] at final
  obtain ⟨inOrder, invariant⟩ := final.invariant wellFormed
  have all : popped.length = (Automaton.build g).states.size := by
    have empty := WorkQueue.pop_eq_none_iff.1 ended
    rw [invariant.queue, List.drop_eq_nil_iff, List.length_range] at empty
    exact Nat.le_antisymm invariant.popped_le empty
  rw [← all, ← inOrder]
  exact ⟨_, final, ended, rfl⟩

/-- Between two turns of the construction, the states wait in the order of their numbers from the
first that has not been expanded on, and the kernels are numbered by their states.  However far the
construction has come, it has popped no more states than the automaton has; and it does come to pop
all of them, in their order, when none waits any more. -/
theorem worklist_visits_in_order (defined : g.IsDefined) :
    (∀ popped builder, Builder.AfterPops g popped builder →
      popped = List.range popped.length ∧ popped.length ≤ (Automaton.build g).states.size ∧
        Builder.InOrder g popped.length builder) ∧
    ∃ builder, Builder.AfterPops g (List.range (Automaton.build g).states.size) builder ∧
      builder.queue.pop = none ∧ (Automaton.build g).states = builder.states := by
  have wellFormed := defined.wellFormed
  refine ⟨?_, Builder.exists_afterPops_all wellFormed⟩
  intro popped builder after
  obtain ⟨inOrder, invariant⟩ := after.invariant wellFormed
  exact ⟨inOrder, after.length_le wellFormed, invariant.inOrder⟩

/-- The five states of the brackets are popped in their order. -/
theorem worklist_visits_in_order_brackets :
    Grammar.brackets.IsDefined ∧
      ∃ builder, Builder.AfterPops .brackets [0, 1, 2, 3, 4] builder ∧
        builder.queue.pop = none ∧ Builder.InOrder .brackets 5 builder := by
  obtain ⟨each, builder, after, ended, _⟩ := worklist_visits_in_order Grammar.isDefined_brackets
  have size : (Automaton.build .brackets).states.size = 5 := by decide +kernel
  rw [size] at after
  exact ⟨Grammar.isDefined_brackets, builder, after, ended, (each _ _ after).2.2⟩

end Lalr
