import Lalr.Proofs.Automaton.Construction

/-!
# The canonical collection

This file sums up what the construction of an automaton achieves.  Every state is the closure of its
kernel; its transitions are those that its cores allow, and lead to the states with the kernels that
moving the dots gives; every state is reached from the initial one; and items are numbered in
sequence.  `Automaton.Canonical` collects these facts, and all that is known of an automaton later
on is derived from them.
-/

namespace Lalr

namespace Grammar

variable {g : Grammar}

/-- The cores over the productions of a grammar. -/
def allCores (g : Grammar) : List Core :=
  g.productions.toList.zipIdx.flatMap fun (production, p) =>
    (List.range (production.right.size + 1)).map (⟨p, ·⟩)

theorem mem_allCores {core : Core} (isOf : core.IsOf g) : core ∈ g.allCores := by
  obtain ⟨production, listed, inside⟩ := isOf
  refine List.mem_flatMap.2 ⟨(production, core.production), ?_, ?_⟩
  · rw [List.mem_zipIdx_iff_getElem?]
    simpa using listed
  · exact List.mem_map.2 ⟨core.dot, List.mem_range.2 (Nat.lt_succ_of_le inside), rfl⟩

theorem length_allCores (g : Grammar) : g.allCores.length = g.coreCount := by
  have counted : ∀ (productions : List Production) (place count : Nat),
      count + ((productions.zipIdx place).flatMap fun (production, p) =>
        (List.range (production.right.size + 1)).map (Core.mk p ·)).length =
        productions.foldl (fun count production => count + production.right.size + 1) count := by
    intro productions
    induction productions with
    | nil => exact fun _ _ => rfl
    | cons head tail ih =>
        intro place count
        rw [List.foldl_cons, ← ih (place + 1)]
        simp only [List.zipIdx_cons, List.flatMap_cons, List.length_append, List.length_map,
          List.length_range]
        omega
  rw [coreCount, ← Array.foldl_toList, ← counted g.productions.toList 0 0, Nat.zero_add]
  rfl

theorem IsKernel.nodup {kernel : List Core} (isKernel : g.IsKernel kernel) : kernel.Nodup := by
  refine isKernel.ascending.imp ?_
  rintro core _ less rfl
  have equal : compare core core = .eq := Std.ReflCmp.compare_self
  rw [equal] at less
  cases less

/-- An ascending list is determined by its members. -/
theorem IsKernel.ext {first second : List Core} (left : g.IsKernel first)
    (right : g.IsKernel second) (same : first.toFinset = second.toFinset) : first = second := by
  have permuted : first.Perm second := by
    rw [List.perm_ext_iff_of_nodup left.nodup right.nodup]
    intro core
    rw [← List.mem_toFinset, same, List.mem_toFinset]
  refine permuted.eq_of_pairwise ?_ left.ascending right.ascending
  intro core other _ _ less greater
  have reversed := Std.OrientedCmp.gt_of_lt greater
  rw [less] at reversed
  cases reversed

end Grammar

/-- No more states come up than there are sets of cores. -/
theorem Builder.Sound.size_le {g : Grammar} {popped : Nat} {builder : Builder}
    (sound : builder.Sound g popped) : builder.states.size ≤ 2 ^ g.coreCount := by
  let kernelAt : Nat → Finset Core := fun id => ((builder.states[id]?.map (·.kernel)).getD []).toFinset
  have injective : Set.InjOn kernelAt (Finset.range builder.states.size) := by
    intro id inside other inside' same
    rw [Finset.coe_range, Set.mem_Iio] at inside inside'
    have found := Array.getElem?_eq_getElem inside
    have found' := Array.getElem?_eq_getElem inside'
    simp only [kernelAt, found, found', Option.map_some, Option.getD_some] at same
    have equal := (sound.isKernel found).ext (sound.isKernel found') same
    have first := sound.kernels.2 ⟨_, found, equal⟩
    rw [sound.kernels.2 ⟨_, found', rfl⟩] at first
    exact (Option.some.inj first).symm
  have within : ∀ id ∈ Finset.range builder.states.size,
      kernelAt id ∈ g.allCores.toFinset.powerset := by
    intro id inside
    have found := Array.getElem?_eq_getElem (Finset.mem_range.1 inside)
    rw [Finset.mem_powerset]
    intro core member
    simp only [kernelAt, found, Option.map_some, Option.getD_some, List.mem_toFinset] at member ⊢
    exact Grammar.mem_allCores ((sound.isKernel found).cores core member)
  calc
    builder.states.size = (Finset.range builder.states.size).card := (Finset.card_range _).symm
    _ ≤ g.allCores.toFinset.powerset.card := Finset.card_le_card_of_injOn kernelAt within injective
    _ = 2 ^ g.allCores.toFinset.card := Finset.card_powerset _
    _ ≤ 2 ^ g.allCores.length := Nat.pow_le_pow_right (by decide) (List.toFinset_card_le _)
    _ = 2 ^ g.coreCount := by rw [Grammar.length_allCores]

/-- When the construction ends, all states have been popped.  What the first state has and every
expansion keeps holds then. -/
theorem Builder.run_start {g : Grammar} (wellFormed : g.WellFormed) {keep : Builder → Prop}
    (start : keep (Builder.start g))
    (keeps : ∀ {popped : Nat} {builder : Builder} {id : StateId} {queue : WorkQueue StateId},
      Invariant g popped builder → keep builder → builder.queue.pop = some (id, queue) →
      keep (Builder.expand g id { builder with queue })) :
    Invariant g ((Builder.start g).run g (1 <<< g.coreCount)).states.size
        ((Builder.start g).run g (1 <<< g.coreCount)) ∧
      keep ((Builder.start g).run g (1 <<< g.coreCount)) := by
  obtain ⟨popped, invariant, kept, ended⟩ :=
    (Builder.invariant_start wellFormed).run keeps start (1 <<< g.coreCount)
  refine ⟨?_, kept⟩
  rcases ended with empty | used
  · rwa [empty] at invariant
  · have most := invariant.toSound.size_le
    have least := invariant.popped_le
    rw [Nat.one_shiftLeft, Nat.zero_add] at used
    rw [used] at invariant least
    have same := Nat.le_antisymm most least
    rwa [← same] at invariant

theorem Builder.build_induction {g : Grammar} (wellFormed : g.WellFormed) {keep : Builder → Prop}
    (start : keep (Builder.start g))
    (keeps : ∀ {popped : Nat} {builder : Builder} {id : StateId} {queue : WorkQueue StateId},
      Invariant g popped builder → keep builder → builder.queue.pop = some (id, queue) →
      keep (Builder.expand g id { builder with queue })) :
    ∃ builder, (Automaton.build g).states = builder.states ∧
      Invariant g builder.states.size builder ∧ keep builder :=
  ⟨_, rfl, Builder.run_start wellFormed start keeps⟩

/-- The construction ends because no state waits any more. -/
theorem Builder.run_start_ended {g : Grammar} (wellFormed : g.WellFormed) :
    ((Builder.start g).run g (1 <<< g.coreCount)).queue.pop = none := by
  have invariant := (@Builder.run_start g wellFormed (fun _ => True) trivial
    fun _ _ _ => trivial).1
  rw [WorkQueue.pop_eq_none_iff, invariant.queue]
  simp

namespace Automaton

/-- The automaton is the canonical collection of the grammar. -/
structure Canonical (g : Grammar) (automaton : Automaton) : Prop where
  initial : ∃ state, automaton.states[initialState]? = some state ∧
    state.kernel = [⟨acceptProduction, 0⟩]
  cores : ∀ {id : StateId} {state : State}, automaton.states[id]? = some state →
    state.cores = g.closure state.kernel
  isKernel : ∀ {id : StateId} {state : State}, automaton.states[id]? = some state →
    g.IsKernel state.kernel
  kernels : ∀ {id other : StateId} {state state' : State}, automaton.states[id]? = some state →
    automaton.states[other]? = some state' → state.kernel = state'.kernel → id = other
  symbols : ∀ {id : StateId} {state : State}, automaton.states[id]? = some state →
    state.transitions.map (·.1) = Builder.outgoing (g.moves state.cores)
  targets : ∀ {id : StateId} {state : State}, automaton.states[id]? = some state →
    ∀ symbol target, (symbol, target) ∈ state.transitions →
      ∃ reached, automaton.states[target]? = some reached ∧
        reached.kernel = g.goto state.cores symbol
  reached : ∀ id < automaton.states.size, id ≠ initialState → ∃ source < id, ∃ state,
    automaton.states[source]? = some state ∧ ∃ symbol, (symbol, id) ∈ state.transitions
  numbered : ∀ {id : StateId} {state : State}, automaton.states[id]? = some state →
    state.firstItem = ((Builder.lengths automaton.states).take id).sum

/-- The construction of a well-formed grammar's automaton gives its canonical collection. -/
theorem canonical_build {g : Grammar} (wellFormed : g.WellFormed) : (build g).Canonical g := by
  obtain ⟨builder, states, invariant, _⟩ :=
    @Builder.build_induction g wellFormed (fun _ => True) trivial fun _ _ _ => trivial
  have expanded : ∀ {id : StateId} {state : State}, builder.states[id]? = some state →
      id < builder.states.size := fun found => (Array.getElem?_eq_some_iff.1 found).1
  have built : build g = ⟨builder.states⟩ := congrArg Automaton.mk states
  rw [built]
  refine {
    initial := invariant.initial
    cores := ?cores
    isKernel := invariant.isKernel
    kernels := ?kernels
    symbols := fun found => (invariant.expanded found (expanded found)).1
    targets := fun found => (invariant.expanded found (expanded found)).2
    reached := invariant.reached
    numbered := invariant.numbered }
  case cores =>
    intro id state found
    rw [State.cores, invariant.added found]
    rfl
  case kernels =>
    intro id other state state' found found' same
    have first := invariant.kernels.2 ⟨state, found, same⟩
    rw [invariant.kernels.2 ⟨state', found', rfl⟩] at first
    exact (Option.some.inj first).symm

end Automaton

end Lalr
