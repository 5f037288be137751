import Lalr.Proofs.Lookahead.Arrivals

/-!
# Lookaheads come to rest

Passes over the edges are repeated until one of them changes nothing.  This is a loop without a bound
of its own; it ends because every pass but the last enlarges some set, and the sets hold terminals of
one grammar only.  Where it has ended, every edge is satisfied and everything that comes up is there.
So propagation that starts from these lookaheads finds nothing to add: seeding counts nothing, and
the first pass is the last.
-/

namespace Lalr

namespace Flow

variable {flow : Flow} {lookaheads : Lookaheads}

theorem length_passes_le (flow : Flow) (bound : Nat) (lookaheads : Lookaheads) :
    (flow.passes bound lookaheads).length ≤ bound := by
  induction bound generalizing lookaheads with
  | zero => exact Nat.le_refl _
  | succ bound ih =>
      simp only [passes, List.length_cons]
      split
      · exact Nat.succ_le_succ (ih _)
      · exact Nat.succ_le_succ (Nat.zero_le _)

/-- With a sufficient bound, the passes are those of the loop without a bound. -/
theorem repeats_passes {limit : Nat} (respects : flow.Respects fun _ t => t < limit) {bound : Nat}
    (within : flow.Within lookaheads.size) (limited : lookaheads.All fun _ t => t < limit)
    (enough : lookaheads.size * limit < bound + (Grows.filled limit lookaheads).card) :
    Repeats flow.pass lookaheads (flow.passes bound lookaheads) := by
  refine passes_induction (motive := fun bound lookaheads =>
    Repeats flow.pass lookaheads (flow.passes bound lookaheads)) respects ?_ ?_ within limited enough
  · intro bound lookaheads unchanged
    simp only [passes, unchanged, Bool.false_eq_true, if_false]
    exact .last unchanged
  · intro bound lookaheads changed later
    simp only [passes, changed, if_true]
    exact .again changed later

theorem pass_still {lookaheads : Lookaheads} (quiet : (flow.pass lookaheads).1 = false) :
    (flow.pass lookaheads).2 = lookaheads :=
  (passOver_unchanged quiet).2.1

/-- A pass that notes a change enlarges the set of some item. -/
theorem exists_lt_of_changed (within : flow.Within lookaheads.size)
    (changed : (flow.pass lookaheads).1 = true) : ∃ item < lookaheads.size,
      lookaheads.ofItem item < (flow.pass lookaheads).2.ofItem item :=
  (grows_pass flow lookaheads).exists_lt (passOver_changed within.edges changed).symm

/-! ## Starting from lookaheads at rest -/

theorem passOver_of_satisfied {edges : List (Nat × Nat)} (satisfied : ∀ source target,
    (source, target) ∈ edges → lookaheads.ofItem source ≤ lookaheads.ofItem target) :
    passOver edges (false, lookaheads) = (false, lookaheads) := by
  induction edges with
  | nil => rfl
  | cons edge rest ih =>
      obtain ⟨source, target⟩ := edge
      have included := satisfied source target (List.mem_cons_self ..)
      rw [passOver_cons, IdSet.isSuperset_iff_le.2 included, Lookaheads.modify_of_le included]
      exact ih fun first second member => satisfied first second (List.mem_cons_of_mem _ member)

/-- The lookaheads have what comes up and what the start has, and satisfy all edges. -/
structure AtRest (flow : Flow) (automaton : Automaton) (lookaheads : Lookaheads) : Prop where
  start : ∀ item, startItem? automaton = some item →
    (lookaheads.ofItem item).contains endTerminal = true
  spontaneous : ∀ group set, (group, set) ∈ flow.spontaneous → ∀ item ∈ group,
    set ≤ lookaheads.ofItem item
  edges : ∀ source target, (source, target) ∈ flow.edges →
    lookaheads.ofItem source ≤ lookaheads.ofItem target

namespace AtRest

variable {automaton : Automaton}

theorem pass_eq (atRest : AtRest flow automaton lookaheads) :
    flow.pass lookaheads = (false, lookaheads) :=
  passOver_of_satisfied atRest.edges

theorem started_eq (atRest : AtRest flow automaton lookaheads) :
    started automaton lookaheads = lookaheads := by
  unfold started
  split
  · next item looked =>
      refine Lookaheads.modify_of_le fun t member => ?_
      have same : endTerminal = t := by simpa using member
      exact same ▸ atRest.start item looked
  · rfl

/-- Seeding adds nothing and counts nothing. -/
theorem seed_eq (atRest : AtRest flow automaton lookaheads) :
    flow.seed automaton lookaheads = (0, lookaheads) := by
  rw [seed_eq_foldl, atRest.started_eq]
  refine List.foldlRecOn (motive := fun seeded => seeded = (0, lookaheads)) _ _ rfl ?_
  rintro _ rfl ⟨item, set⟩ arrives
  obtain ⟨_, group, listed, member⟩ := mem_arrivals.1 arrives
  exact arrive_of_included (atRest.spontaneous group set listed item member)

theorem startingFrom_eq {g : Grammar} {first : FirstSets}
    (atRest : AtRest (ofAutomaton g first automaton) automaton lookaheads) :
    Propagation.startingFrom g first automaton lookaheads =
      ⟨[lookaheads], lookaheads, (ofAutomaton g first automaton).edges.length, 0⟩ := by
  simp only [Propagation.startingFrom, atRest.seed_eq, passes, atRest.pass_eq,
    Bool.false_eq_true, if_false, List.getLastD_cons, List.getLastD_nil]

end AtRest

end Flow

namespace Automaton.Canonical

variable {g : Grammar} {automaton : Automaton}

/-- The passes of a propagation are those of the loop without a bound. -/
theorem repeats_propagate (canonical : automaton.Canonical g) (wellFormed : g.WellFormed) :
    let flow := Flow.ofAutomaton g (.ofGrammar g) automaton
    Repeats flow.pass (flow.seed automaton automaton.noLookaheads).2
      (automaton.propagate g).snapshots := by
  refine Flow.repeats_passes (Flow.respects_lt automaton wellFormed)
    (canonical.within_seed wellFormed) (seed_lt automaton wellFormed) ?_
  rw [size_seed]
  omega

theorem atRest_propagate (canonical : automaton.Canonical g) (wellFormed : g.WellFormed) :
    Flow.AtRest (Flow.ofAutomaton g (.ofGrammar g) automaton) automaton
      (automaton.propagate g).lookaheads where
  start _ looked :=
    contains_propagate_start looked (canonical.item_lt_itemCount (hasItem_start looked))
  spontaneous _ _ listed _ member := canonical.le_propagate_spontaneous wellFormed listed member
  edges _ _ edge := canonical.propagate_rest wellFormed edge

/-- Propagation that starts from its own result makes one pass and adds nothing. -/
theorem startingFrom_propagate (canonical : automaton.Canonical g) (wellFormed : g.WellFormed) :
    let spread := automaton.propagate g
    Propagation.startingFrom g (.ofGrammar g) automaton spread.lookaheads =
      ⟨[spread.lookaheads], spread.lookaheads, spread.edges, 0⟩ :=
  (canonical.atRest_propagate wellFormed).startingFrom_eq

end Automaton.Canonical

end Lalr
