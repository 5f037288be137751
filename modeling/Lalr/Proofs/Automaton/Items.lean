import Lalr.Proofs.Automaton.Path
import Mathlib.Algebra.Order.BigOperators.Group.List
import Mathlib.Algebra.Order.Group.Nat

/-!
# Numbered items

The items of an automaton are numbered through all its states, so that a number stands for one core
in one state.  A core can be looked up in a state by its number if the dot has moved, or if the
parse starts from it: such a core is in the kernel, which holds it once.
-/

namespace Lalr

theorem State.mem_items {state : State} {core : Core} {item : Nat} :
    (core, item) ∈ state.items ↔
      ∃ place, state.cores[place]? = some core ∧ item = state.firstItem + place := by
  rw [State.items, List.mk_mem_zipIdx_iff_le_and_getElem?_sub]
  constructor
  · rintro ⟨first, here⟩
    exact ⟨item - state.firstItem, here, by omega⟩
  · rintro ⟨place, here, rfl⟩
    exact ⟨Nat.le_add_right _ _, by rwa [Nat.add_sub_cancel_left]⟩

theorem State.mem_cores_of_mem_items {state : State} {entry : Core × Nat}
    (numbered : entry ∈ state.items) : entry.1 ∈ state.cores := by
  obtain ⟨place, here, _⟩ := State.mem_items.1 numbered
  exact List.mem_of_getElem? here

theorem State.map_fst_items (state : State) : state.items.map (·.1) = state.cores :=
  List.zipIdx_map_fst _ _

theorem State.map_snd_items (state : State) :
    state.items.map (·.2) = List.range' state.firstItem state.cores.length :=
  List.zipIdx_map_snd _ _

namespace Automaton

variable {g : Grammar} {automaton : Automaton}

/-- The number is that of an item of the state with the given core. -/
def HasItem (automaton : Automaton) (id : StateId) (core : Core) (item : Nat) : Prop :=
  ∃ state, automaton.states[id]? = some state ∧ (core, item) ∈ state.items

theorem HasItem.hasCore {id : StateId} {core : Core} {item : Nat}
    (has : automaton.HasItem id core item) : automaton.HasCore id core := by
  obtain ⟨state, found, numbered⟩ := has
  exact ⟨state, found, State.mem_cores_of_mem_items numbered⟩

theorem HasCore.exists_item {id : StateId} {core : Core} (has : automaton.HasCore id core) :
    ∃ item, automaton.HasItem id core item := by
  obtain ⟨state, found, member⟩ := has
  obtain ⟨place, here⟩ := List.mem_iff_getElem?.1 member
  exact ⟨_, state, found, State.mem_items.2 ⟨place, here, rfl⟩⟩

/-- The number of items in the states before a given one. -/
def itemsBefore (automaton : Automaton) (id : StateId) : Nat :=
  ((Builder.lengths automaton.states).take id).sum

theorem monotone_itemsBefore (automaton : Automaton) : Monotone automaton.itemsBefore :=
  List.monotone_sum_take _

theorem itemsBefore_succ {id : StateId} {state : State}
    (found : automaton.states[id]? = some state) :
    automaton.itemsBefore (id + 1) = automaton.itemsBefore id + state.cores.length := by
  obtain ⟨inside, here⟩ := Array.getElem?_eq_some_iff.1 found
  have bound : id < (Builder.lengths automaton.states).length := by
    rwa [Builder.length_lengths]
  rw [itemsBefore, itemsBefore, List.sum_take_succ _ _ bound]
  simp [Builder.lengths, here]

namespace Canonical

theorem itemCount_eq (canonical : automaton.Canonical g) :
    automaton.itemCount = automaton.itemsBefore automaton.states.size := by
  obtain ⟨first, known, _⟩ := canonical.initial
  have nonempty : 0 < automaton.states.size := (Array.getElem?_eq_some_iff.1 known).1
  have last : automaton.states[automaton.states.size - 1]? =
      some automaton.states[automaton.states.size - 1] :=
    Array.getElem?_eq_getElem (by omega)
  have whole := itemsBefore_succ last
  rw [Nat.sub_add_cancel nonempty] at whole
  rw [itemCount, Array.back?_eq_getElem?, last, whole]
  have start : _ = automaton.itemsBefore _ := canonical.numbered last
  simp only [Option.map_some, Option.getD_some, State.endItem, State.cores, List.length_append,
    start]
  omega

theorem item_bounds (canonical : automaton.Canonical g) {id : StateId} {core : Core} {item : Nat}
    (has : automaton.HasItem id core item) :
    automaton.itemsBefore id ≤ item ∧ item < automaton.itemsBefore (id + 1) := by
  obtain ⟨state, found, numbered⟩ := has
  obtain ⟨place, here, rfl⟩ := State.mem_items.1 numbered
  have inside := (List.getElem?_eq_some_iff.1 here).1
  have start : state.firstItem = automaton.itemsBefore id := canonical.numbered found
  rw [itemsBefore_succ found, start]
  omega

theorem item_lt_itemCount (canonical : automaton.Canonical g) {id : StateId} {core : Core}
    {item : Nat} (has : automaton.HasItem id core item) : item < automaton.itemCount := by
  rw [canonical.itemCount_eq]
  exact (canonical.item_bounds has).2.trans_le
    (automaton.monotone_itemsBefore has.hasCore.lt_size)

/-- A number stands for one core in one state. -/
theorem item_unique (canonical : automaton.Canonical g) {id id' : StateId} {core core' : Core}
    {item : Nat} (has : automaton.HasItem id core item) (has' : automaton.HasItem id' core' item) :
    id = id' ∧ core = core' := by
  have bounds := canonical.item_bounds has
  have bounds' := canonical.item_bounds has'
  have ordered : ∀ {low high : StateId}, automaton.itemsBefore high ≤ item →
      item < automaton.itemsBefore (low + 1) → high ≤ low := by
    intro low high least most
    by_contra less
    have mono := automaton.monotone_itemsBefore (Nat.succ_le_of_lt (Nat.lt_of_not_le less))
    exact absurd (least.trans_lt most) (Nat.not_lt.2 mono)
  have same : id = id' := Nat.le_antisymm (ordered bounds.1 bounds'.2) (ordered bounds'.1 bounds.2)
  subst same
  obtain ⟨state, found, numbered⟩ := has
  obtain ⟨again, found', numbered'⟩ := has'
  rw [found] at found'
  cases found'
  obtain ⟨place, here, rfl⟩ := State.mem_items.1 numbered
  obtain ⟨place', here', equal⟩ := State.mem_items.1 numbered'
  rw [← Nat.add_left_cancel equal, here] at here'
  exact ⟨rfl, Option.some.inj here'⟩

theorem numbers_take (canonical : automaton.Canonical g) {count : Nat}
    (inside : count ≤ automaton.states.size) :
    (automaton.states.toList.take count).flatMap (fun state => state.items.map (·.2)) =
      List.range (automaton.itemsBefore count) := by
  induction count with
  | zero => rfl
  | succ count ih =>
      have here : automaton.states[count]? = some automaton.states[count] :=
        Array.getElem?_eq_getElem inside
      have first : automaton.states[count].firstItem = automaton.itemsBefore count :=
        canonical.numbered here
      rw [List.take_add_one, List.flatMap_append, ih (Nat.le_of_succ_le inside),
        Array.getElem?_toList, here, Option.toList_some, List.flatMap_singleton,
        State.map_snd_items, first, itemsBefore_succ here, List.range_eq_range',
        List.range_eq_range', ← List.range'_append_1, Nat.zero_add]

/-- The items of all states have all numbers, each of them once. -/
theorem numbers_eq_range (canonical : automaton.Canonical g) :
    automaton.states.toList.flatMap (fun state => state.items.map (·.2)) =
      List.range automaton.itemCount := by
  have whole := canonical.numbers_take (Nat.le_refl _)
  rwa [← Array.length_toList, List.take_length, Array.length_toList, ← canonical.itemCount_eq]
    at whole

/-- What closing adds has the dot in front, and is not what a parse starts from. -/
theorem of_mem_added (canonical : automaton.Canonical g) (wellFormed : g.WellFormed)
    {id : StateId} {state : State} (found : automaton.states[id]? = some state) {core : Core}
    (member : core ∈ state.added) : core.dot = 0 ∧ core.production ≠ acceptProduction := by
  have whole := canonical.cores found
  rw [State.cores, Grammar.closure, List.append_cancel_left_eq] at whole
  rw [whole] at member
  obtain ⟨outer, _, n, follows, opened⟩ := Grammar.mem_expansion_opening member
  obtain ⟨front, alternative⟩ := Grammar.mem_openings.1 opened
  exact ⟨front, wellFormed.ne_acceptProduction
    (Core.declares_of_nextNonterminal wellFormed follows) alternative⟩

/-- A kernel has what a parse starts from, or cores whose dot has moved. -/
theorem of_mem_kernel (canonical : automaton.Canonical g) {id : StateId} {state : State}
    (found : automaton.states[id]? = some state) {core : Core} (member : core ∈ state.kernel) :
    core.dot ≠ 0 ∨ core.production = acceptProduction := by
  by_cases first : id = initialState
  · obtain ⟨start, known, kernelEq⟩ := canonical.initial
    rw [first, known] at found
    cases found
    rw [kernelEq, List.mem_singleton] at member
    exact .inr (by rw [member])
  · obtain ⟨source, _, before, here, symbol, led⟩ :=
      canonical.reached id (Array.getElem?_eq_some_iff.1 found).1 first
    obtain ⟨reached, known, kernelEq⟩ := canonical.targets here symbol id led
    rw [found] at known
    cases known
    rw [kernelEq] at member
    obtain ⟨core, _, _, rfl⟩ := mem_goto.1 member
    exact .inl (Nat.succ_ne_zero _)

/-- A core that only the kernel can hold is found under its number. -/
theorem item?_eq_some (canonical : automaton.Canonical g) (wellFormed : g.WellFormed)
    {id : StateId} {state : State} (found : automaton.states[id]? = some state) {core : Core}
    {item : Nat} (inKernel : core.dot ≠ 0 ∨ core.production = acceptProduction)
    (numbered : (core, item) ∈ state.items) : state.item? core = some item := by
  have notAdded : core ∉ state.added := by
    intro member
    obtain ⟨front, other⟩ := canonical.of_mem_added wellFormed found member
    rcases inKernel with moved | accept
    · exact moved front
    · exact other accept
  obtain ⟨place, here, rfl⟩ := State.mem_items.1 numbered
  have kernelPlace : ∀ {place : Nat}, state.cores[place]? = some core →
      state.kernel[place]? = some core := by
    intro place here
    by_cases inside : place < state.kernel.length
    · rwa [State.cores, List.getElem?_append_left inside] at here
    · rw [State.cores, List.getElem?_append_right (Nat.not_lt.1 inside)] at here
      exact absurd (List.mem_of_getElem? here) notAdded
  obtain ⟨first, earliest⟩ : ∃ first, state.cores.idxOf? core = some first :=
    Option.isSome_iff_exists.1 (List.isSome_idxOf?.2 (List.mem_of_getElem? here))
  obtain ⟨bound, equal, _⟩ := List.idxOf?_eq_some_iff.1 earliest
  have foundFirst : state.cores[first]? = some core := by
    rw [List.getElem?_eq_getElem bound, equal]
  -- The kernel holds the core once, so the earliest place is the place that was numbered.
  have same : first = place := by
    have firstInside := (List.getElem?_eq_some_iff.1 (kernelPlace foundFirst)).1
    apply (List.getElem?_inj firstInside (canonical.isKernel found).nodup).1
    rw [kernelPlace foundFirst, kernelPlace here]
  rw [State.item?, earliest, same]
  rfl

end Canonical

end Automaton

end Lalr
