import Lalr.Proofs.Lookahead.Rest
import Lalr.Proofs.Strict.Automaton

/-!
# Propagation in place

The items of an automaton carry their lookaheads with them, and propagation writes to the items.  To
move lookaheads along an edge, the set of the source is taken out of its item, added to the set of
the target, and put back.  Passes are made until one of them notes no change, however many it takes.

What this does to the lookaheads is what the flow does to them.  Nothing else in the automaton is
touched, the passes come to an end, and a second propagation leaves the automaton as it is.
-/

namespace Lalr

/-- An item of a state, with its lookaheads. -/
@[ext]
structure Item where
  core : Core
  lookaheads : TerminalSet
  deriving DecidableEq

/-- An automaton whose items carry lookaheads. -/
structure Labelled extends Automaton where
  items : Array Item
  deriving DecidableEq

/-- The numbers that sum up a propagation. -/
structure Statistics where
  passes : Nat
  edges : Nat
  spontaneous : Nat
  deriving DecidableEq

/-- A newly built automaton, in which no item has lookaheads. -/
def Automaton.unlabelled (automaton : Automaton) : Labelled :=
  { automaton with items := ((Strict.arena automaton.states).map (⟨·, ∅⟩)).toArray }

namespace Labelled

def cores (labelled : Labelled) : Array Core := labelled.items.map (·.core)

def lookaheads (labelled : Labelled) : Lookaheads := labelled.items.map (·.lookaheads)

def change (labelled : Labelled) (item : Nat) (f : TerminalSet → TerminalSet) : Labelled :=
  { labelled with
    items := labelled.items.modify item fun entry => { entry with lookaheads := f entry.lookaheads } }

/-- Add lookaheads to an item, and say whether there was a new one among them. -/
def absorb (labelled : Labelled) (item : Nat) (set : TerminalSet) : Bool × Labelled :=
  if (labelled.lookaheads.ofItem item).isSuperset set then
    (false, labelled)
  else
    (true, labelled.change item (· ∪ set))

/-- Move lookaheads along an edge, and say whether the target has grown. -/
def relax (labelled : Labelled) (source target : Nat) : Bool × Labelled :=
  if source = target then
    (false, labelled)
  else
    let set := labelled.lookaheads.ofItem source
    let passed := (labelled.change source fun _ => ∅).absorb target set
    (passed.1, passed.2.change source fun _ => set)

def pass (edges : List (Nat × Nat)) (labelled : Labelled) : Bool × Labelled :=
  edges.foldl
    (fun noted (source, target) =>
      let passed := noted.2.relax source target
      (noted.1 || passed.1, passed.2))
    (false, labelled)

/-- The flow between the items. -/
def flow (g : Grammar) (labelled : Labelled) : Flow :=
  .ofAutomaton g (.ofGrammar g) labelled.toAutomaton

def started (labelled : Labelled) : Labelled :=
  match Flow.startItem? labelled.toAutomaton with
  | some item => labelled.change item (·.insert endTerminal)
  | none => labelled

def arrive (seeded : Nat × Labelled) (arrival : Nat × TerminalSet) : Nat × Labelled :=
  let (grown, labelled) := seeded.2.absorb arrival.1 arrival.2
  (if grown then seeded.1 + 1 else seeded.1, labelled)

/-- Let lookaheads come up by themselves, and count how often an item grows. -/
def seed (g : Grammar) (labelled : Labelled) : Nat × Labelled :=
  (labelled.flow g).arrivals.foldl arrive (0, labelled.started)

/-- Propagation, as it ends with the automaton after each pass and with its statistics.  There is no
bound on the number of passes. -/
structure Propagates (g : Grammar) (labelled : Labelled) (snapshots : List Labelled)
    (statistics : Statistics) : Prop where
  passes : Repeats (pass (labelled.flow g).edges) (labelled.seed g).2 snapshots
  counts : statistics =
    ⟨snapshots.length, (labelled.flow g).edges.length, (labelled.seed g).1⟩

theorem Propagates.iff {g : Grammar} {labelled : Labelled} {snapshots others : List Labelled}
    {statistics numbers : Statistics} (propagates : labelled.Propagates g snapshots statistics) :
    labelled.Propagates g others numbers ↔ others = snapshots ∧ numbers = statistics := by
  constructor
  · intro again
    have same := again.passes.unique propagates.passes
    subst same
    exact ⟨rfl, again.counts.trans propagates.counts.symm⟩
  · rintro ⟨rfl, rfl⟩
    exact propagates

/-! ## What stays the same -/

/-- The states with their transitions and the cores of the items are the same. -/
structure SameShape (before after : Labelled) : Prop where
  automaton : after.toAutomaton = before.toAutomaton
  cores : after.cores = before.cores

variable {before middle after labelled : Labelled}

namespace SameShape

theorem refl (labelled : Labelled) : SameShape labelled labelled := ⟨rfl, rfl⟩

theorem trans (first : SameShape before middle) (second : SameShape middle after) :
    SameShape before after :=
  ⟨second.automaton.trans first.automaton, second.cores.trans first.cores⟩

theorem size_eq (same : SameShape before after) : after.items.size = before.items.size := by
  simpa [Labelled.cores] using congrArg Array.size same.cores

/-- Without a difference in the lookaheads there is none at all. -/
theorem eq (same : SameShape before after) (lookaheads : after.lookaheads = before.lookaheads) :
    after = before := by
  obtain ⟨automaton, items⟩ := before
  obtain ⟨automaton', items'⟩ := after
  obtain rfl : automaton' = automaton := same.automaton
  have cores : items'.map (·.core) = items.map (·.core) := same.cores
  have labels : items'.map (·.lookaheads) = items.map (·.lookaheads) := lookaheads
  congr 1
  refine Array.ext same.size_eq fun place inside inside' => ?_
  have core := congrArg (·[place]?) cores
  have label := congrArg (·[place]?) labels
  simp only [Array.getElem?_map, Array.getElem?_eq_getElem inside, Array.getElem?_eq_getElem inside',
    Option.map_some, Option.some.injEq] at core label
  exact Item.ext core label

theorem flow_eq (same : SameShape before after) (g : Grammar) : after.flow g = before.flow g := by
  rw [flow, flow, same.automaton]

end SameShape

theorem sameShape_change (labelled : Labelled) (item : Nat) (f : TerminalSet → TerminalSet) :
    SameShape labelled (labelled.change item f) := by
  refine ⟨rfl, Array.ext_getElem? fun place => ?_⟩
  simp only [cores, change, Array.getElem?_map, Array.getElem?_modify]
  split
  · simp [Option.map_map, Function.comp_def]
  · rfl

theorem sameShape_absorb (labelled : Labelled) (item : Nat) (set : TerminalSet) :
    SameShape labelled (labelled.absorb item set).2 := by
  unfold absorb
  split
  · exact .refl _
  · exact sameShape_change labelled item (· ∪ set)

theorem sameShape_relax (labelled : Labelled) (source target : Nat) :
    SameShape labelled (labelled.relax source target).2 := by
  unfold relax
  split
  · exact .refl _
  · have taken := sameShape_change labelled source fun _ => ∅
    have absorbed := sameShape_absorb (labelled.change source fun _ => ∅) target
      (labelled.lookaheads.ofItem source)
    exact (taken.trans absorbed).trans
      (sameShape_change _ source fun _ => labelled.lookaheads.ofItem source)

theorem sameShape_pass (edges : List (Nat × Nat)) (labelled : Labelled) :
    SameShape labelled (pass edges labelled).2 := by
  refine List.foldlRecOn (motive := fun noted : Bool × Labelled => SameShape labelled noted.2) _ _
    (.refl _) ?_
  rintro noted same ⟨source, target⟩ _
  exact same.trans (sameShape_relax noted.2 source target)

theorem sameShape_started (labelled : Labelled) : SameShape labelled labelled.started := by
  unfold started
  split
  · exact sameShape_change _ _ _
  · exact .refl _

theorem sameShape_seed (g : Grammar) (labelled : Labelled) :
    SameShape labelled (labelled.seed g).2 := by
  refine List.foldlRecOn (motive := fun seeded : Nat × Labelled => SameShape labelled seeded.2) _ _
    labelled.sameShape_started ?_
  rintro seeded same ⟨item, set⟩ _
  exact same.trans (sameShape_absorb seeded.2 item set)

/-! ## What happens to the lookaheads -/

theorem size_lookaheads (labelled : Labelled) : labelled.lookaheads.size = labelled.items.size :=
  Array.size_map

theorem lookaheads_change (labelled : Labelled) (item : Nat) (f : TerminalSet → TerminalSet) :
    (labelled.change item f).lookaheads = labelled.lookaheads.modify item f := by
  refine Array.ext_getElem? fun place => ?_
  simp only [lookaheads, change, Array.getElem?_map, Array.getElem?_modify]
  split
  · simp [Option.map_map, Function.comp_def]
  · rfl

theorem absorb_fst (labelled : Labelled) (item : Nat) (set : TerminalSet) :
    (labelled.absorb item set).1 = !(labelled.lookaheads.ofItem item).isSuperset set := by
  unfold absorb
  split <;> simp_all

theorem lookaheads_absorb (labelled : Labelled) (item : Nat) (set : TerminalSet) :
    (labelled.absorb item set).2.lookaheads = labelled.lookaheads.modify item (· ∪ set) := by
  unfold absorb
  split
  · next included => exact (Lookaheads.modify_of_le (IdSet.isSuperset_iff_le.1 included)).symm
  · exact lookaheads_change labelled item (· ∪ set)

/-- While the set of an item is out of its place, the other items can change as if it were there. -/
theorem modify_between {lookaheads : Lookaheads} {source target : Nat} (different : source ≠ target)
    (f : TerminalSet → TerminalSet) :
    ((lookaheads.modify source fun _ => ∅).modify target f).modify source
        (fun _ => lookaheads.ofItem source) = lookaheads.modify target f := by
  refine Array.ext_getElem? fun place => ?_
  simp only [Array.getElem?_modify]
  by_cases here : source = place
  · subst here
    cases known : lookaheads[source]? <;> simp [Lookaheads.ofItem, different.symm, known]
  · simp [here]

theorem relax_fst (labelled : Labelled) (source target : Nat) :
    (labelled.relax source target).1 =
      !(labelled.lookaheads.ofItem target).isSuperset (labelled.lookaheads.ofItem source) := by
  unfold relax
  split
  · next same => rw [same, IdSet.isSuperset_iff_le.2 (le_refl _), Bool.not_true]
  · next different =>
      -- Without its own set the source is still another item than the target.
      have known : Lookaheads.ofItem (labelled.lookaheads.modify source fun _ => ∅) target =
          labelled.lookaheads.ofItem target := by
        simp [Lookaheads.ofItem, Array.getElem?_modify, different]
      simp only [absorb_fst, lookaheads_change, known]

theorem lookaheads_relax (labelled : Labelled) (source target : Nat) :
    (labelled.relax source target).2.lookaheads =
      labelled.lookaheads.modify target (· ∪ labelled.lookaheads.ofItem source) := by
  unfold relax
  split
  · next same => exact (Lookaheads.modify_of_le (same ▸ le_refl _)).symm
  · next different =>
      simp only [lookaheads_change, lookaheads_absorb]
      exact modify_between different _

theorem pass_lookaheads (flow : Flow) (labelled : Labelled) :
    flow.pass labelled.lookaheads =
      ((pass flow.edges labelled).1, (pass flow.edges labelled).2.lookaheads) := by
  show _ = Prod.map id lookaheads (pass flow.edges labelled)
  unfold Flow.pass pass
  rw [← List.foldl_hom (Prod.map id lookaheads)]
  · rfl
  · rintro noted ⟨source, target⟩
    simp only [Prod.map, Flow.relax_eq, relax_fst, lookaheads_relax, id]

theorem started_lookaheads (labelled : Labelled) :
    Flow.started labelled.toAutomaton labelled.lookaheads = labelled.started.lookaheads := by
  unfold started Flow.started
  cases Flow.startItem? labelled.toAutomaton with
  | none => rfl
  | some item => exact (lookaheads_change labelled item (·.insert endTerminal)).symm

theorem seed_lookaheads (g : Grammar) (labelled : Labelled) :
    (labelled.flow g).seed labelled.toAutomaton labelled.lookaheads =
      ((labelled.seed g).1, (labelled.seed g).2.lookaheads) := by
  show _ = Prod.map id lookaheads (labelled.seed g)
  rw [Flow.seed_eq_foldl, started_lookaheads, seed, ← List.foldl_hom (Prod.map id lookaheads)]
  · rfl
  · rintro seeded ⟨item, set⟩
    simp only [Flow.arrive, arrive, Prod.map, Lookaheads.absorb_eq, absorb_fst, lookaheads_absorb, id]

section Pass

variable {flow : Flow}

theorem grows_pass (flow : Flow) (labelled : Labelled) :
    Grows labelled.lookaheads (pass flow.edges labelled).2.lookaheads := by
  have grown := Flow.grows_pass flow labelled.lookaheads
  rwa [pass_lookaheads] at grown

/-- A pass that notes no change makes none. -/
theorem pass_still (quiet : (pass flow.edges labelled).1 = false) :
    (pass flow.edges labelled).2 = labelled := by
  have same := @Flow.pass_still flow labelled.lookaheads
  rw [pass_lookaheads] at same
  exact (sameShape_pass flow.edges labelled).eq (same quiet)

/-- A pass that notes a change enlarges the lookaheads of some item. -/
theorem exists_lt_of_changed (within : flow.Within labelled.items.size)
    (changed : (pass flow.edges labelled).1 = true) : ∃ item < labelled.items.size,
      labelled.lookaheads.ofItem item < (pass flow.edges labelled).2.lookaheads.ofItem item := by
  rw [← size_lookaheads] at within ⊢
  have larger := Flow.exists_lt_of_changed within
  rw [pass_lookaheads] at larger
  exact larger changed

end Pass

/-! ## Starting from lookaheads at rest -/

section AtRest

variable {g : Grammar}
  (atRest : (labelled.flow g).AtRest labelled.toAutomaton labelled.lookaheads)
include atRest

theorem seed_of_atRest : labelled.seed g = (0, labelled) := by
  have viewed := (seed_lookaheads g labelled).symm.trans atRest.seed_eq
  obtain ⟨none_counted, same⟩ := Prod.mk.inj viewed
  exact Prod.ext none_counted ((sameShape_seed g labelled).eq same)

theorem pass_of_atRest : pass (labelled.flow g).edges labelled = (false, labelled) := by
  have viewed := (pass_lookaheads _ labelled).symm.trans atRest.pass_eq
  have quiet : (pass (labelled.flow g).edges labelled).1 = false := (Prod.mk.inj viewed).1
  exact Prod.ext quiet (pass_still quiet)

/-- From lookaheads at rest, propagation makes a single pass, which changes nothing. -/
theorem propagates_of_atRest :
    labelled.Propagates g [labelled] ⟨1, (labelled.flow g).edges.length, 0⟩ where
  passes := by
    have quiet := pass_of_atRest atRest
    have once : Repeats (pass (labelled.flow g).edges) labelled
        [(pass (labelled.flow g).edges labelled).2] := .last (by rw [quiet])
    rw [seed_of_atRest atRest]
    rwa [quiet] at once
  counts := by rw [seed_of_atRest atRest, List.length_singleton]

end AtRest

/-- What a propagation that starts from the given automaton comes to. -/
structure Settles (g : Grammar) (fresh : Labelled) (snapshots : List Labelled) (settled : Labelled)
    (statistics : Statistics) : Prop where
  bounded : statistics.passes ≤ fresh.items.size * g.terminals.size + 1
  /-- From the seeds on, a pass takes no lookahead away from any item. -/
  grow : ((fresh.seed g).2 :: snapshots).IsChain fun before after =>
    Grows before.lookaheads after.lookaheads
  /-- Every pass but the last enlarges the lookaheads of an item. -/
  enlarge : ((fresh.seed g).2 :: snapshots.dropLast).IsChain fun before after =>
    ∃ item < fresh.items.size, before.lookaheads.ofItem item < after.lookaheads.ofItem item
  /-- The last pass changes nothing. -/
  still : ((fresh.seed g).2 :: snapshots.dropLast).getLast? = some settled
  last : snapshots.getLast? = some settled
  unchanged : ∀ snapshot ∈ snapshots, SameShape fresh snapshot
  again : ∀ others numbers, settled.Propagates g others numbers ↔
    others = [settled] ∧ numbers = ⟨1, statistics.edges, 0⟩
  /-- Lookaheads that are kept apart from the items go the same way, passes within a bound. -/
  apart : Propagation.startingFrom g (.ofGrammar g) fresh.toAutomaton fresh.lookaheads =
    ⟨snapshots.map lookaheads, settled.lookaheads, statistics.edges, statistics.spontaneous⟩
  againApart : Propagation.startingFrom g (.ofGrammar g) fresh.toAutomaton settled.lookaheads =
    ⟨[settled.lookaheads], settled.lookaheads, statistics.edges, 0⟩

end Labelled

namespace Automaton.Canonical

variable {g : Grammar} {automaton : Automaton}

theorem size_unlabelled (canonical : automaton.Canonical g) :
    automaton.unlabelled.items.size = automaton.itemCount := by
  rw [canonical.itemCount_eq, itemsBefore, ← Builder.length_lengths, List.take_length]
  simp [unlabelled, Strict.arena, Builder.lengths, List.length_flatMap]

theorem lookaheads_unlabelled (canonical : automaton.Canonical g) :
    automaton.unlabelled.lookaheads = automaton.noLookaheads := by
  rw [noLookaheads, ← canonical.size_unlabelled]
  refine Array.ext (by simp [Labelled.lookaheads]) fun place inside inside' => ?_
  simp [Labelled.lookaheads, unlabelled]

theorem seed_unlabelled (canonical : automaton.Canonical g) :
    (automaton.unlabelled.seed g).1 = (automaton.propagate g).spontaneous ∧
      (automaton.unlabelled.seed g).2.lookaheads =
        ((Flow.ofAutomaton g (.ofGrammar g) automaton).seed automaton automaton.noLookaheads).2 := by
  have viewed := Labelled.seed_lookaheads g automaton.unlabelled
  rw [canonical.lookaheads_unlabelled] at viewed
  obtain ⟨counted, seeded⟩ := Prod.mk.inj viewed.symm
  exact ⟨counted, seeded⟩

/-- Propagation in place comes to an end. -/
theorem exists_propagates (canonical : automaton.Canonical g) (wellFormed : g.WellFormed) :
    ∃ snapshots statistics, automaton.unlabelled.Propagates g snapshots statistics := by
  obtain ⟨snapshots, repeats⟩ := (canonical.repeats_propagate wellFormed).of_map
    Labelled.lookaheads (Labelled.pass_lookaheads _) canonical.seed_unlabelled.2
  exact ⟨snapshots, _, repeats, rfl⟩

variable {snapshots : List Labelled} {statistics : Statistics}

theorem map_lookaheads_eq (canonical : automaton.Canonical g) (wellFormed : g.WellFormed)
    (propagates : automaton.unlabelled.Propagates g snapshots statistics) :
    snapshots.map Labelled.lookaheads = (automaton.propagate g).snapshots := by
  have viewed := propagates.passes.map Labelled.lookaheads (Labelled.pass_lookaheads _)
  rw [canonical.seed_unlabelled.2] at viewed
  exact viewed.unique (canonical.repeats_propagate wellFormed)

theorem settles (canonical : automaton.Canonical g) (wellFormed : g.WellFormed)
    (propagates : automaton.unlabelled.Propagates g snapshots statistics) :
    ∃ settled, Labelled.Settles g automaton.unlabelled snapshots settled statistics := by
  obtain ⟨passes, rfl⟩ := propagates
  let flow := Flow.ofAutomaton g (.ofGrammar g) automaton
  have seeded := Labelled.sameShape_seed g automaton.unlabelled
  have keeps : ∀ labelled, Labelled.SameShape automaton.unlabelled labelled →
      Labelled.SameShape automaton.unlabelled (Labelled.pass flow.edges labelled).2 :=
    fun labelled same => same.trans (Labelled.sameShape_pass _ labelled)
  -- Seen as lookaheads, the snapshots are those of the passes within a bound, and so is the end.
  have apart := canonical.map_lookaheads_eq wellFormed ⟨passes, rfl⟩
  obtain ⟨settled, last⟩ := Option.isSome_iff_exists.1 (List.getLast?_isSome.2 passes.ne_nil)
  have same := passes.keeps keeps seeded settled (List.mem_of_getLast? last)
  have spread : settled.lookaheads = (automaton.propagate g).lookaheads := by
    have ending : (automaton.propagate g).lookaheads = (automaton.propagate g).snapshots.getLastD
        (flow.seed automaton automaton.noLookaheads).2 := rfl
    rw [ending, ← apart, List.getLastD_eq_getLast?, List.getLast?_map, last]
    rfl
  have atRest : (settled.flow g).AtRest settled.toAutomaton settled.lookaheads := by
    rw [same.flow_eq, same.automaton, spread]
    exact canonical.atRest_propagate wellFormed
  refine ⟨settled, ?bounded, ?grow, ?enlarge, ?still, last, ?unchanged, ?again, ?apart, ?againApart⟩
  case bounded =>
    rw [canonical.size_unlabelled, ← List.length_map Labelled.lookaheads, apart]
    exact Flow.length_passes_le _ _ _
  case grow => exact passes.isChain (Labelled.grows_pass flow)
  case enlarge =>
    refine passes.isChain_dropLast keeps ?_ seeded
    intro labelled same changed
    rw [← same.size_eq]
    refine Labelled.exists_lt_of_changed ?_ changed
    rw [same.size_eq, canonical.size_unlabelled]
    exact canonical.within_flow wellFormed
  case still =>
    rw [← passes.getLast?_eq fun _ => Labelled.pass_still]
    exact last
  case unchanged => exact passes.keeps keeps seeded
  case again =>
    intro others numbers
    rw [(Labelled.propagates_of_atRest atRest).iff, same.flow_eq]
  case apart =>
    rw [canonical.lookaheads_unlabelled, spread, apart, canonical.seed_unlabelled.1]
    rfl
  case againApart =>
    rw [spread]
    exact canonical.startingFrom_propagate wellFormed

end Automaton.Canonical

/-- Propagation over a newly built automaton comes to an end, in just one way.  It makes no more passes
than there are pairs of items and terminals, and one.  Passes take no lookahead away; all but the
last enlarge the lookaheads of some item, and the last changes nothing.  States, transitions and
cores stay as they are.  A second propagation makes a single pass and changes nothing. -/
theorem lookaheads_settle {g : Grammar} (defined : g.IsDefined) :
    ∃ snapshots settled statistics,
      (∀ others numbers, (Automaton.build g).unlabelled.Propagates g others numbers ↔
        others = snapshots ∧ numbers = statistics) ∧
      Labelled.Settles g (Automaton.build g).unlabelled snapshots settled statistics := by
  have wellFormed := defined.wellFormed
  have canonical := Automaton.canonical_build wellFormed
  obtain ⟨snapshots, statistics, propagates⟩ := canonical.exists_propagates wellFormed
  obtain ⟨settled, settles⟩ := canonical.settles wellFormed propagates
  exact ⟨snapshots, settled, statistics, fun _ _ => propagates.iff, settles⟩

/-- Lookaheads of nested brackets need two passes that change something, where there might be 27. -/
theorem lookaheads_settle_brackets :
    Grammar.brackets.IsDefined ∧ ∃ snapshots settled,
      (Automaton.build .brackets).unlabelled.Propagates .brackets snapshots ⟨3, 5, 4⟩ ∧
      Labelled.Settles .brackets (Automaton.build .brackets).unlabelled snapshots settled
        ⟨3, 5, 4⟩ := by
  obtain ⟨snapshots, settled, statistics, only, settles⟩ :=
    lookaheads_settle Grammar.isDefined_brackets
  have propagates := (only snapshots statistics).2 ⟨rfl, rfl⟩
  have length := congrArg Propagation.passes settles.apart
  have numbers : statistics = ⟨3, 5, 4⟩ := by
    rw [Propagation.passes, Propagation.passes, List.length_map] at length
    rw [propagates.counts, ← length]
    decide +kernel
  exact ⟨Grammar.isDefined_brackets, snapshots, settled, numbers ▸ propagates, numbers ▸ settles⟩

end Lalr
