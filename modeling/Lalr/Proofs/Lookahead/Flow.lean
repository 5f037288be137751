import Lalr.Lookahead
import Lalr.Proofs.Saturation

/-!
# The flow of lookaheads reaches its least fixed point

Lookaheads are seeded with what comes up by itself and then moved along edges until a pass changes
nothing.  The result is closed under the flow and contains nothing that the flow does not force.
That the passes come to rest before their number is used up is a matter of counting: a pass that
reports a change has added a terminal to some item.
-/

namespace Lalr

namespace Lookaheads

theorem modify_of_le {lookaheads : Lookaheads} {item : Nat} {set : TerminalSet}
    (included : set ≤ lookaheads.ofItem item) :
    lookaheads.modify item (· ∪ set) = lookaheads := by
  refine (Grows.antisymm (.modify lookaheads item set) ⟨by simp, ?_⟩).symm
  intro place
  rw [Grows.getD_modify]
  split
  · next here =>
      rw [← here.1]
      exact IdSet.union_le (le_refl _) included
  · exact le_refl _

theorem absorb_eq (lookaheads : Lookaheads) (item : Nat) (set : TerminalSet) :
    lookaheads.absorb item set =
      (!(lookaheads.ofItem item).isSuperset set, lookaheads.modify item (· ∪ set)) := by
  unfold absorb
  by_cases included : (lookaheads.ofItem item).isSuperset set = true
  · rw [if_pos included, included, modify_of_le (IdSet.isSuperset_iff_le.1 included)]
    rfl
  · rw [if_neg included, Bool.not_eq_true] at *
    rw [included]
    rfl

/-- Every lookahead of every item has the property. -/
def All (lookaheads : Lookaheads) (keep : Nat → TerminalId → Prop) : Prop :=
  ∀ item t, (lookaheads.ofItem item).contains t = true → keep item t

theorem All.modify {lookaheads : Lookaheads} {keep : Nat → TerminalId → Prop}
    (all : lookaheads.All keep) {item : Nat} {set : TerminalSet}
    (kept : ∀ t, set.contains t = true → keep item t) :
    All (lookaheads.modify item (· ∪ set)) keep := by
  intro place t member
  rw [ofItem, Grows.getD_modify] at member
  split at member
  · next here =>
      rw [IdSet.contains_union, Bool.or_eq_true] at member
      rcases member with old | new
      · exact all place t old
      · exact here.1 ▸ kept t new
  · exact all place t member

end Lookaheads

namespace Flow

variable {flow : Flow} {automaton : Automaton}

/-- The items that lookaheads flow to are below the given number. -/
structure Within (flow : Flow) (size : Nat) : Prop where
  spontaneous : ∀ group set, (group, set) ∈ flow.spontaneous → ∀ item ∈ group, item < size
  edges : ∀ source target, (source, target) ∈ flow.edges → target < size

/-- The property of items and terminals is passed on by the flow. -/
structure Respects (flow : Flow) (keep : Nat → TerminalId → Prop) : Prop where
  spontaneous : ∀ group set, (group, set) ∈ flow.spontaneous → ∀ item ∈ group,
    ∀ t, set.contains t = true → keep item t
  edges : ∀ source target, (source, target) ∈ flow.edges → ∀ t, keep source t → keep target t

/-! ## Seeds -/

/-- Add a set to the items of a group. -/
def spread (set : TerminalSet) (group : List Nat) (lookaheads : Lookaheads) : Lookaheads :=
  group.foldl (fun lookaheads item => lookaheads.modify item (· ∪ set)) lookaheads

theorem sprout_snd (set : TerminalSet) (group : List Nat) (seeded : Nat × Lookaheads) :
    (sprout set group seeded).2 = spread set group seeded.2 := by
  unfold sprout spread
  induction group generalizing seeded with
  | nil => rfl
  | cons item rest ih =>
      rw [List.foldl_cons, ih, List.foldl_cons]
      simp only [Lookaheads.absorb_eq]

theorem grows_spread (set : TerminalSet) (group : List Nat) (lookaheads : Lookaheads) :
    Grows lookaheads (spread set group lookaheads) := by
  unfold spread
  induction group generalizing lookaheads with
  | nil => exact .refl _
  | cons item rest ih => exact (Grows.modify lookaheads item set).trans (ih _)

theorem le_spread {set : TerminalSet} {group : List Nat} {lookaheads : Lookaheads} {item : Nat}
    (member : item ∈ group) (inside : item < lookaheads.size) :
    set ≤ (spread set group lookaheads).ofItem item := by
  induction group generalizing lookaheads with
  | nil => simp at member
  | cons head rest ih =>
      have further := grows_spread set rest (lookaheads.modify head (· ∪ set))
      rcases List.mem_cons.1 member with rfl | later
      · refine le_trans ?_ (further.le item)
        rw [Grows.getD_modify, if_pos ⟨rfl, inside⟩]
        exact IdSet.le_union_right _ _
      · exact ih later (by simpa using inside)

/-- The lookaheads with which seeding starts. -/
def started (automaton : Automaton) (lookaheads : Lookaheads) : Lookaheads :=
  match startItem? automaton with
  | some item => lookaheads.modify item (· ∪ IdSet.single endTerminal)
  | none => lookaheads

theorem seed_snd (flow : Flow) (automaton : Automaton) (lookaheads : Lookaheads) :
    (flow.seed automaton lookaheads).2 =
      flow.spontaneous.foldl (fun lookaheads (group, set) => spread set group lookaheads)
        (started automaton lookaheads) := by
  have steps : ∀ (entries : List (List Nat × TerminalSet)) (seeded : Nat × Lookaheads),
      (entries.foldl (fun seeded (group, set) => sprout set group seeded) seeded).2 =
        entries.foldl (fun lookaheads (group, set) => spread set group lookaheads) seeded.2 := by
    intro entries
    induction entries with
    | nil => exact fun _ => rfl
    | cons head rest ih =>
        intro seeded
        rw [List.foldl_cons, ih, sprout_snd]
        rfl
  exact steps flow.spontaneous _

theorem grows_started (automaton : Automaton) (lookaheads : Lookaheads) :
    Grows lookaheads (started automaton lookaheads) := by
  unfold started
  split
  · exact .modify _ _ _
  · exact .refl _

private theorem grows_spreads (entries : List (List Nat × TerminalSet)) (lookaheads : Lookaheads) :
    Grows lookaheads
      (entries.foldl (fun lookaheads (group, set) => spread set group lookaheads) lookaheads) := by
  induction entries generalizing lookaheads with
  | nil => exact .refl _
  | cons head rest ih => exact (grows_spread head.2 head.1 lookaheads).trans (ih _)

theorem grows_seed (flow : Flow) (automaton : Automaton) (lookaheads : Lookaheads) :
    Grows lookaheads (flow.seed automaton lookaheads).2 := by
  rw [seed_snd]
  exact (grows_started automaton lookaheads).trans (grows_spreads _ _)

theorem le_seed {lookaheads : Lookaheads} (within : flow.Within lookaheads.size)
    {group : List Nat} {set : TerminalSet} (listed : (group, set) ∈ flow.spontaneous) {item : Nat}
    (member : item ∈ group) : set ≤ (flow.seed automaton lookaheads).2.ofItem item := by
  have inside := within.spontaneous group set listed item member
  rw [← (grows_started automaton lookaheads).size] at inside
  rw [seed_snd]
  revert listed inside
  generalize flow.spontaneous = entries
  generalize started automaton lookaheads = lookaheads
  intro listed inside
  induction entries generalizing lookaheads with
  | nil => simp at listed
  | cons head rest ih =>
      rw [List.foldl_cons]
      rcases List.mem_cons.1 listed with rfl | later
      · exact (le_spread member inside).trans ((grows_spreads rest _).le item)
      · refine ih _ later ?_
        rw [(grows_spread head.2 head.1 lookaheads).size]
        exact inside

theorem contains_seed_start {lookaheads : Lookaheads} {item : Nat}
    (start : startItem? automaton = some item) (inside : item < lookaheads.size) :
    ((flow.seed automaton lookaheads).2.ofItem item).contains endTerminal = true := by
  rw [seed_snd]
  refine (grows_spreads flow.spontaneous _).le item _ ?_
  rw [started, start, Grows.getD_modify, if_pos ⟨rfl, inside⟩]
  simp

theorem all_seed {lookaheads : Lookaheads} {keep : Nat → TerminalId → Prop}
    (respects : flow.Respects keep)
    (start : ∀ item, startItem? automaton = some item → keep item endTerminal)
    (all : lookaheads.All keep) : (flow.seed automaton lookaheads).2.All keep := by
  have startedAll : (started automaton lookaheads).All keep := by
    unfold started
    split
    · next item found =>
        refine all.modify ?_
        intro t member
        have same : endTerminal = t := by simpa using member
        exact same ▸ start item found
    · exact all
  rw [seed_snd]
  refine List.foldlRecOn (motive := fun lookaheads => Lookaheads.All lookaheads keep) _ _
    startedAll ?_
  rintro lookaheads kept ⟨group, set⟩ listed
  refine List.foldlRecOn (motive := fun lookaheads => Lookaheads.All lookaheads keep) _ _ kept ?_
  intro lookaheads kept item member
  exact kept.modify (respects.spontaneous group set listed item member)

/-! ## Passes -/

theorem relax_eq (changed : Bool) (lookaheads : Lookaheads) (source target : Nat) :
    relax changed lookaheads source target =
      (changed || !(lookaheads.ofItem target).isSuperset (lookaheads.ofItem source),
        lookaheads.modify target (· ∪ lookaheads.ofItem source)) := by
  unfold relax
  split
  · next same =>
      subst same
      rw [Lookaheads.modify_of_le (le_refl _), IdSet.isSuperset_iff_le.2 (le_refl _)]
      simp
  · simp only [Lookaheads.absorb_eq]

/-- A pass over some of the edges. -/
def passOver (edges : List (Nat × Nat)) (noted : Bool × Lookaheads) : Bool × Lookaheads :=
  edges.foldl
    (fun (changed, lookaheads) (source, target) => relax changed lookaheads source target) noted

theorem passOver_cons (source target : Nat) (rest : List (Nat × Nat)) (changed : Bool)
    (lookaheads : Lookaheads) :
    passOver ((source, target) :: rest) (changed, lookaheads) =
      passOver rest
        (changed || !(lookaheads.ofItem target).isSuperset (lookaheads.ofItem source),
          lookaheads.modify target (· ∪ lookaheads.ofItem source)) := by
  show passOver rest (relax changed lookaheads source target) = _
  rw [relax_eq]

theorem grows_passOver (edges : List (Nat × Nat)) (noted : Bool × Lookaheads) :
    Grows noted.2 (passOver edges noted).2 := by
  induction edges generalizing noted with
  | nil => exact .refl _
  | cons edge rest ih =>
      obtain ⟨source, target⟩ := edge
      obtain ⟨changed, lookaheads⟩ := noted
      rw [passOver_cons]
      exact (Grows.modify lookaheads target _).trans (ih (_, _))

theorem passOver_unchanged {edges : List (Nat × Nat)} {changed : Bool} {lookaheads : Lookaheads}
    (quiet : (passOver edges (changed, lookaheads)).1 = false) :
    changed = false ∧ (passOver edges (changed, lookaheads)).2 = lookaheads ∧
      ∀ source target, (source, target) ∈ edges →
        lookaheads.ofItem source ≤ lookaheads.ofItem target := by
  induction edges generalizing changed lookaheads with
  | nil => exact ⟨quiet, rfl, by simp⟩
  | cons edge rest ih =>
      obtain ⟨source, target⟩ := edge
      rw [passOver_cons] at quiet ⊢
      obtain ⟨unnoted, same, satisfied⟩ := ih quiet
      simp only [Bool.or_eq_false_iff, Bool.not_eq_false'] at unnoted
      have included := IdSet.isSuperset_iff_le.1 unnoted.2
      rw [Lookaheads.modify_of_le included] at same satisfied ⊢
      refine ⟨unnoted.1, same, ?_⟩
      intro first second member
      rcases List.mem_cons.1 member with equal | later
      · cases equal
        exact included
      · exact satisfied first second later

/-- A pass that notes a change has made one. -/
theorem passOver_changed {edges : List (Nat × Nat)} {lookaheads : Lookaheads}
    (inside : ∀ source target, (source, target) ∈ edges → target < lookaheads.size)
    (noted : (passOver edges (false, lookaheads)).1 = true) :
    (passOver edges (false, lookaheads)).2 ≠ lookaheads := by
  induction edges with
  | nil => simp [passOver] at noted
  | cons edge rest ih =>
      obtain ⟨source, target⟩ := edge
      rw [passOver_cons] at noted ⊢
      by_cases included : lookaheads.ofItem source ≤ lookaheads.ofItem target
      · rw [Lookaheads.modify_of_le included, IdSet.isSuperset_iff_le.2 included] at noted ⊢
        exact ih (fun first second member => inside first second (List.mem_cons_of_mem _ member))
          noted
      · -- The edge enlarges its target, and later edges take nothing away.
        intro same
        apply included
        have later := (grows_passOver rest
          (false || !(lookaheads.ofItem target).isSuperset (lookaheads.ofItem source),
            lookaheads.modify target (· ∪ lookaheads.ofItem source))).le target
        rw [same, Grows.getD_modify,
          if_pos ⟨rfl, inside source target (List.mem_cons_self ..)⟩] at later
        exact (IdSet.le_union_right _ _).trans later

theorem all_passOver {edges : List (Nat × Nat)} {keep : Nat → TerminalId → Prop}
    (passedOn : ∀ source target, (source, target) ∈ edges → ∀ t, keep source t → keep target t)
    {changed : Bool} {lookaheads : Lookaheads} (all : lookaheads.All keep) :
    (passOver edges (changed, lookaheads)).2.All keep := by
  induction edges generalizing changed lookaheads with
  | nil => exact all
  | cons edge rest ih =>
      obtain ⟨source, target⟩ := edge
      rw [passOver_cons]
      refine ih (fun first second member => passedOn first second (List.mem_cons_of_mem _ member))
        (all.modify ?_)
      intro t member
      exact passedOn source target (List.mem_cons_self ..) t (all source t member)

theorem pass_eq (flow : Flow) (lookaheads : Lookaheads) :
    flow.pass lookaheads = passOver flow.edges (false, lookaheads) := rfl

theorem grows_pass (flow : Flow) (lookaheads : Lookaheads) :
    Grows lookaheads (flow.pass lookaheads).2 :=
  grows_passOver flow.edges (false, lookaheads)

theorem all_passes {keep : Nat → TerminalId → Prop} (respects : flow.Respects keep)
    {bound : Nat} {lookaheads : Lookaheads} (all : lookaheads.All keep) :
    ((flow.passes bound lookaheads).getLastD lookaheads).All keep := by
  induction bound generalizing lookaheads with
  | zero => exact all
  | succ bound ih =>
      have passed : (flow.pass lookaheads).2.All keep := all_passOver respects.edges all
      simp only [passes, List.getLastD_cons]
      split
      · exact ih passed
      · exact passed

theorem grows_passes (flow : Flow) (bound : Nat) (lookaheads : Lookaheads) :
    Grows lookaheads ((flow.passes bound lookaheads).getLastD lookaheads) := by
  induction bound generalizing lookaheads with
  | zero => exact .refl _
  | succ bound ih =>
      have grown := grows_pass flow lookaheads
      simp only [passes, List.getLastD_cons]
      split
      · exact grown.trans (ih _)
      · exact grown

/-- Passes come to rest within their bound.  So what holds if a pass changes nothing, and what
holds before a pass if it holds after it, holds from the beginning. -/
theorem passes_induction {limit : Nat} (respects : flow.Respects fun _ t => t < limit)
    {motive : Nat → Lookaheads → Prop}
    (quiet : ∀ bound lookaheads, (flow.pass lookaheads).1 = false → motive (bound + 1) lookaheads)
    (noted : ∀ bound lookaheads, (flow.pass lookaheads).1 = true →
      motive bound (flow.pass lookaheads).2 → motive (bound + 1) lookaheads)
    {bound : Nat} {lookaheads : Lookaheads} (within : flow.Within lookaheads.size)
    (limited : lookaheads.All fun _ t => t < limit)
    (enough : lookaheads.size * limit < bound + (Grows.filled limit lookaheads).card) :
    motive bound lookaheads := by
  induction bound generalizing lookaheads with
  | zero =>
      have most := Grows.card_filled_le limit lookaheads
      omega
  | succ bound ih =>
      cases changed : (flow.pass lookaheads).1 with
      | false => exact quiet bound lookaheads changed
      | true =>
          have grown := grows_pass flow lookaheads
          have kept : (flow.pass lookaheads).2.All fun _ t => t < limit :=
            all_passOver respects.edges limited
          -- The pass has added a terminal, which counts against the bound.
          have more := Grows.card_filled_lt grown (passOver_changed within.edges changed).symm kept
          apply noted bound lookaheads changed
          apply ih
          · rwa [grown.size]
          · exact kept
          · rw [grown.size]
            omega

/-- The passes end at lookaheads that satisfy every edge. -/
theorem passes_rest {limit : Nat} (respects : flow.Respects fun _ t => t < limit) {bound : Nat}
    {lookaheads : Lookaheads} (within : flow.Within lookaheads.size)
    (limited : lookaheads.All fun _ t => t < limit)
    (enough : lookaheads.size * limit < bound + (Grows.filled limit lookaheads).card) :
    ∀ source target, (source, target) ∈ flow.edges →
      ((flow.passes bound lookaheads).getLastD lookaheads).ofItem source ≤
        ((flow.passes bound lookaheads).getLastD lookaheads).ofItem target := by
  refine passes_induction (motive := fun bound lookaheads => ∀ source target,
    (source, target) ∈ flow.edges →
      ((flow.passes bound lookaheads).getLastD lookaheads).ofItem source ≤
        ((flow.passes bound lookaheads).getLastD lookaheads).ofItem target)
    respects ?_ ?_ within limited enough
  · intro bound lookaheads unchanged
    obtain ⟨_, same, satisfied⟩ := passOver_unchanged unchanged
    simp only [passes, List.getLastD_cons, unchanged]
    rw [pass_eq, same]
    exact satisfied
  · intro bound lookaheads changed later
    simp only [passes, List.getLastD_cons, changed, if_true]
    exact later

/-- When the passes come to rest, a larger bound makes no difference. -/
theorem passes_add {limit : Nat} (respects : flow.Respects fun _ t => t < limit) {bound : Nat}
    (more : Nat) {lookaheads : Lookaheads} (within : flow.Within lookaheads.size)
    (limited : lookaheads.All fun _ t => t < limit)
    (enough : lookaheads.size * limit < bound + (Grows.filled limit lookaheads).card) :
    flow.passes (bound + more) lookaheads = flow.passes bound lookaheads := by
  refine passes_induction (motive := fun bound lookaheads =>
    flow.passes (bound + more) lookaheads = flow.passes bound lookaheads)
    respects ?_ ?_ within limited enough
  · intro bound lookaheads unchanged
    rw [Nat.succ_add]
    simp [passes, unchanged]
  · intro bound lookaheads changed later
    rw [Nat.succ_add]
    simp only [passes, changed, if_true, later]

end Flow

end Lalr
