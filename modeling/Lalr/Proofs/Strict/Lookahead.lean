import Lalr.Proofs.Automaton.Discovery
import Lalr.Proofs.Lookahead.Exact
import Lalr.Proofs.Strict.Automaton

/-!
# Strict lookups: lookaheads

An index has the number of every item under its state and its core.  The strict flow finds in it the
openings that an item sends lookaheads to, in the item's own state, and the item with the dot moved
on, in the state that the symbol leads to.  A closed state has these openings, in the order of the
grammar, and a transition leads to a state with the moved core; so no entry is ever missing.
-/

namespace Lalr

/-- The numbers of all items, under their states and cores. -/
def Automaton.index (automaton : Automaton) : List ((StateId × Core) × Nat) :=
  automaton.states.toList.zipIdx.flatMap fun (state, id) =>
    state.items.map fun (core, item) => ((id, core), item)

namespace Strict

variable (g : Grammar)

def index (automaton : Automaton) : Option (List ((StateId × Core) × Nat)) :=
  automaton.states.toList.zipIdx.flatMapM fun (state, id) => do
    return (← items automaton.states state).map fun (core, item) => ((id, core), item)

/-! ## The flow -/

section Flow

variable (first : FirstSets) (index : List ((StateId × Core) × Nat))

/-- What an item gives to the openings of the nonterminal after its dot: what comes up in them, and
the edges to them. -/
def opened (id : StateId) (core : Core) (item : Nat) :
    Option (Option (List Nat × TerminalSet) × List (Nat × Nat)) := do
  match ← nextNonterminal g core with
  | none => return (none, [])
  | some n =>
      let (set, nullable) ← ofSequence first (← rest g core)
      let group ← (g.openings n).mapM fun opening => index.lookup (id, opening)
      return (some (group, set), if nullable then group.map (item, ·) else [])

/-- The item with the dot moved on.  If there is a transition, that item must exist. -/
def movedItem (state : State) (core : Core) : Option (Option Nat) := do
  match ← next g core with
  | none => return none
  | some symbol =>
      if symbol = .terminal endTerminal then
        return none
      else
        match state.transition? symbol with
        | none => return none
        | some target => return some (← index.lookup (target, ← advance core))

def flowOf (state : State) (id : StateId) (core : Core) (item : Nat) :
    Option (Option (List Nat × TerminalSet) × List (Nat × Nat)) := do
  let (spontaneous, edges) ← opened g first index id core item
  let moved ← movedItem g index state core
  return (spontaneous, edges ++ (moved.map (item, ·)).toList)

def flowFrom (states : Array State) (state : State) (id : StateId) :
    Option (List (List Nat × TerminalSet) × List (Nat × Nat)) := do
  let parts ← (← items states state).mapM fun (core, item) => flowOf g first index state id core item
  return (parts.filterMap (·.1), parts.flatMap (·.2))

def flow (automaton : Automaton) : Option Flow := do
  let parts ← automaton.states.toList.zipIdx.mapM fun (state, id) =>
    flowFrom g first index automaton.states state id
  return ⟨parts.flatMap (·.1), parts.flatMap (·.2)⟩

end Flow

/-! ## Passes -/

def absorb (lookaheads : Lookaheads) (item : Nat) (set : TerminalSet) :
    Option (Bool × Lookaheads) := do
  let old ← lookaheads[item]?
  if old.isSuperset set then
    return (false, lookaheads)
  else
    return (true, lookaheads.modify item (· ∪ set))

def sprout (set : TerminalSet) (group : List Nat) (seeded : Nat × Lookaheads) :
    Option (Nat × Lookaheads) :=
  group.foldlM
    (fun (count, lookaheads) item => do
      let (grown, lookaheads) ← absorb lookaheads item set
      return (if grown then count + 1 else count, lookaheads))
    seeded

def seed (flow : Flow) (start : Nat) (lookaheads : Lookaheads) : Option (Nat × Lookaheads) := do
  let _ ← lookaheads[start]?
  flow.spontaneous.foldlM (fun seeded (group, set) => sprout set group seeded)
    (0, lookaheads.modify start (·.insert endTerminal))

def relax (changed : Bool) (lookaheads : Lookaheads) (source target : Nat) :
    Option (Bool × Lookaheads) := do
  if source = target then
    return (changed, lookaheads)
  else
    let (grown, lookaheads) ← absorb lookaheads target (← lookaheads[source]?)
    return (changed || grown, lookaheads)

def pass (flow : Flow) (lookaheads : Lookaheads) : Option (Bool × Lookaheads) :=
  flow.edges.foldlM
    (fun (changed, lookaheads) (source, target) => relax changed lookaheads source target)
    (false, lookaheads)

/-- Pass over the edges until nothing changes, which must be within `bound` passes. -/
def passes (flow : Flow) : (bound : Nat) → Lookaheads → Option (List Lookaheads)
  | 0, _ => none
  | bound + 1, lookaheads => do
      let (changed, lookaheads) ← pass flow lookaheads
      if changed then
        return lookaheads :: (← passes flow bound lookaheads)
      else
        return [lookaheads]

def propagate (first : FirstSets) (automaton : Automaton) : Option Propagation := do
  let index ← index automaton
  let flow ← flow g first index automaton
  let start ← index.lookup (initialState, ⟨acceptProduction, 0⟩)
  let (spontaneous, seeded) ← seed flow start automaton.noLookaheads
  let snapshots ← passes flow (automaton.itemCount * g.terminals.size + 1) seeded
  return {
    snapshots
    lookaheads := snapshots.getLastD seeded
    edges := flow.edges.length
    spontaneous }

end Strict

variable {g : Grammar} {automaton : Automaton}

namespace Automaton

theorem mem_index {id : StateId} {core : Core} {item : Nat} :
    ((id, core), item) ∈ automaton.index ↔ automaton.HasItem id core item := by
  simp only [index, HasItem, List.mem_flatMap, List.mem_map, Prod.exists, Prod.mk.injEq,
    mem_zipIdx_states]
  constructor
  · rintro ⟨state, _, found, _, _, numbered, ⟨rfl, rfl⟩, rfl⟩
    exact ⟨state, found, numbered⟩
  · rintro ⟨state, found, numbered⟩
    exact ⟨state, id, found, core, item, numbered, ⟨rfl, rfl⟩, rfl⟩

namespace Canonical

theorem item_inj (canonical : automaton.Canonical g) (defined : g.IsDefined) {id : StateId}
    {core : Core} {item item' : Nat} (has : automaton.HasItem id core item)
    (has' : automaton.HasItem id core item') : item = item' := by
  obtain ⟨state, found, numbered⟩ := has
  obtain ⟨again, found', numbered'⟩ := has'
  rw [found] at found'
  cases found'
  obtain ⟨place, here, rfl⟩ := State.mem_items.1 numbered
  obtain ⟨place', here', rfl⟩ := State.mem_items.1 numbered'
  have once := canonical.nodup_cores defined.wellFormed defined.lawful found
  have inside := (List.getElem?_eq_some_iff.1 here).1
  rw [(List.getElem?_inj inside once).1 (here.trans here'.symm)]

/-- Every item is found in the index. -/
theorem lookup_index (canonical : automaton.Canonical g) (defined : g.IsDefined) {id : StateId}
    {core : Core} {item : Nat} (has : automaton.HasItem id core item) :
    automaton.index.lookup (id, core) = some item := by
  cases looked : automaton.index.lookup (id, core) with
  | none =>
      have absent := List.lookup_eq_none_iff.1 looked _ (mem_index.2 has)
      simp at absent
  | some other =>
      have listed := mem_index.1 (mem_of_lookup looked)
      rw [canonical.item_inj defined listed has]

/-- A state has the openings of a nonterminal that follows a dot, in the order of the grammar. -/
theorem filter_opens_cores (canonical : automaton.Canonical g) (wellFormed : g.WellFormed)
    {id : StateId} {state : State} (found : automaton.states[id]? = some state) {core : Core}
    (member : core ∈ state.cores) {n : NonterminalId} (follows : core.nextNonterminal g = some n) :
    state.cores.filter (·.opens g n) = g.openings n := by
  rw [canonical.cores found] at member ⊢
  refine Grammar.filter_opens_closure wellFormed ?_ member follows
  intro other inKernel opened
  obtain ⟨front, alternative⟩ := Grammar.mem_openings.1 opened
  rcases canonical.of_mem_kernel found inKernel with moved | accept
  · exact moved front
  · have declared := Core.declares_of_nextNonterminal wellFormed follows
    exact wellFormed.ne_acceptProduction declared alternative accept

end Canonical

end Automaton

namespace Strict

/-! ## Nothing fails -/

theorem items_of_canonical (canonical : automaton.Canonical g) {id : StateId} {state : State}
    (found : automaton.states[id]? = some state) :
    items automaton.states state = some state.items :=
  items_eq found (canonical.numbered found)

theorem index_eq (canonical : automaton.Canonical g) : index automaton = some automaton.index := by
  apply flatMapM_eq_some
  rintro ⟨state, id⟩ member
  rw [Automaton.mem_zipIdx_states] at member
  simp only [items_of_canonical canonical member]
  rfl

theorem lookup_openings (canonical : automaton.Canonical g) (defined : g.IsDefined) {id : StateId}
    {state : State} (found : automaton.states[id]? = some state) {core : Core}
    (member : core ∈ state.cores) {n : NonterminalId} (follows : core.nextNonterminal g = some n) :
    (g.openings n).mapM (fun opening => automaton.index.lookup (id, opening)) =
      some (Flow.openingItems g state.items n) := by
  -- The items that are openings, with their cores.
  let group := state.items.filter fun entry => entry.1.opens g n
  have cores : group.map (·.1) = g.openings n := by
    rw [← canonical.filter_opens_cores defined.wellFormed found member follows,
      ← state.map_fst_items, List.filter_map]
    rfl
  have numbers : Flow.openingItems g state.items n = group.map (·.2) := by
    rw [Flow.openingItems, ← List.filterMap_eq_map, List.filterMap_filter]
    rfl
  have each : ∀ entry ∈ group, automaton.index.lookup (id, entry.1) = some entry.2 := by
    intro entry listed
    exact canonical.lookup_index defined ⟨state, found, (List.mem_filter.1 listed).1⟩
  rw [← cores, numbers, List.mapM_map]
  exact mapM_eq_some each

theorem opened_eq (canonical : automaton.Canonical g) (defined : g.IsDefined) {id : StateId}
    {state : State} (found : automaton.states[id]? = some state) {core : Core}
    (member : core ∈ state.cores) (item : Nat) :
    opened g (.ofGrammar g) automaton.index id core item =
      some (Flow.spontaneousOf? g (.ofGrammar g) (Flow.tabled (Flow.openingTable g state)) core,
        Flow.openingEdges g (.ofGrammar g) (Flow.tabled (Flow.openingTable g state)) core item) := by
  have isOf := canonical.isOf_of_hasCore defined.wellFormed ⟨state, found, member⟩
  rw [opened, nextNonterminal_eq isOf, Flow.spontaneousOf?, Flow.openingEdges, Flow.firstOfRest_eq]
  cases follows : core.nextNonterminal g with
  | none => rfl
  | some n =>
      have group := lookup_openings canonical defined found member follows
      rw [rest_eq isOf]
      simp only [Option.bind_eq_bind, Option.bind_some, ofSequence_rest defined.wellFormed isOf,
        group, Option.map_some, Flow.tabled_of_follows member follows]
      rfl

theorem movedItem_eq (canonical : automaton.Canonical g) (defined : g.IsDefined) {id : StateId}
    {state : State} (found : automaton.states[id]? = some state) {core : Core}
    (member : core ∈ state.cores) :
    movedItem g automaton.index state core = some (Flow.movedItem? g automaton state core) := by
  have isOf := canonical.isOf_of_hasCore defined.wellFormed ⟨state, found, member⟩
  rw [movedItem, next_eq isOf, Option.bind_eq_bind, Option.bind_some]
  cases follows : core.next g with
  | none => simp [Flow.movedItem?, follows]
  | some symbol =>
      by_cases ending : symbol = .terminal endTerminal
      · simp [Flow.movedItem?, follows, ending]
      · cases led : state.transition? symbol with
        | none => simp [Flow.movedItem?, follows, ending, led]
        | some target =>
            obtain ⟨reached, stepped, has⟩ :=
              canonical.hasCore_advance ⟨state, found, member⟩ follows ending
            have same : automaton.step? id symbol = some target := by
              rw [Automaton.step?, found, Option.bind_some, led]
            rw [stepped] at same
            cases same
            obtain ⟨item, numbered⟩ := has.exists_item
            have moved := (canonical.movedItem?_eq_some defined.wellFormed found).2
              ⟨symbol, target, follows, stepped, numbered⟩
            have looked := canonical.lookup_index defined numbered
            simp only [ending, if_false, led, advance_eq defined follows, moved,
              Option.bind_eq_bind, Option.bind_some, looked]
            rfl

theorem flowOf_eq (canonical : automaton.Canonical g) (defined : g.IsDefined) {id : StateId}
    {state : State} (found : automaton.states[id]? = some state) {core : Core}
    (member : core ∈ state.cores) (item : Nat) :
    flowOf g (.ofGrammar g) automaton.index state id core item =
      some (Flow.spontaneousOf? g (.ofGrammar g) (Flow.tabled (Flow.openingTable g state)) core,
        Flow.edgesOf g (.ofGrammar g) automaton state (Flow.tabled (Flow.openingTable g state)) core
          item) := by
  rw [flowOf, opened_eq canonical defined found member, movedItem_eq canonical defined found member]
  rfl

theorem flowFrom_eq (canonical : automaton.Canonical g) (defined : g.IsDefined) {id : StateId}
    {state : State} (found : automaton.states[id]? = some state) :
    flowFrom g (.ofGrammar g) automaton.index automaton.states state id =
      some (Flow.spontaneousIn g (.ofGrammar g) state,
        Flow.edgesFrom g (.ofGrammar g) automaton state) := by
  have each := mapM_eq_some fun (entry : Core × Nat) (listed : entry ∈ state.items) =>
    flowOf_eq canonical defined found (State.mem_cores_of_mem_items listed) entry.2
  rw [flowFrom, items_of_canonical canonical found, Option.bind_eq_bind, Option.bind_some, each,
    Flow.spontaneousIn, Flow.edgesFrom, ← state.map_fst_items, List.filterMap_map]
  simp only [Option.bind_eq_bind, Option.bind_some, List.filterMap_map, List.flatMap_map]
  rfl

theorem flow_eq (canonical : automaton.Canonical g) (defined : g.IsDefined) :
    flow g (.ofGrammar g) automaton.index automaton =
      some (Flow.ofAutomaton g (.ofGrammar g) automaton) := by
  have each : ∀ entry ∈ automaton.states.toList.zipIdx,
      flowFrom g (.ofGrammar g) automaton.index automaton.states entry.1 entry.2 =
        some (Flow.spontaneousIn g (.ofGrammar g) entry.1,
          Flow.edgesFrom g (.ofGrammar g) automaton entry.1) := by
    rintro ⟨state, id⟩ listed
    rw [Automaton.mem_zipIdx_states] at listed
    exact flowFrom_eq canonical defined listed
  have states : automaton.states.toList.zipIdx.map (·.1) = automaton.states.toList :=
    List.zipIdx_map_fst _ _
  rw [flow, mapM_eq_some each, Flow.ofAutomaton]
  generalize automaton.states.toList.zipIdx = entries at states ⊢
  rw [← states]
  simp only [Option.bind_eq_bind, Option.bind_some, List.flatMap_map]
  rfl

theorem absorb_eq {lookaheads : Lookaheads} {item : Nat} (inside : item < lookaheads.size)
    (set : TerminalSet) : absorb lookaheads item set = some (lookaheads.absorb item set) := by
  have found := Array.getElem?_eq_getElem inside
  rw [absorb, Lookaheads.absorb, Lookaheads.ofItem, found, Option.getD_some, Option.bind_eq_bind,
    Option.bind_some]
  split <;> rfl

theorem size_absorb (lookaheads : Lookaheads) (item : Nat) (set : TerminalSet) :
    (lookaheads.absorb item set).2.size = lookaheads.size := by
  rw [Lookaheads.absorb_eq, Array.size_modify]

theorem size_relax (changed : Bool) (lookaheads : Lookaheads) (source target : Nat) :
    (Flow.relax changed lookaheads source target).2.size = lookaheads.size := by
  rw [Flow.relax_eq, Array.size_modify]

section Passes

variable {flow : Flow} {size : Nat}

theorem sprout_eq {group : List Nat} (inside : ∀ item ∈ group, item < size) (set : TerminalSet)
    {seeded : Nat × Lookaheads} (fits : seeded.2.size = size) :
    sprout set group seeded = some (Flow.sprout set group seeded) ∧
      (Flow.sprout set group seeded).2.size = size := by
  refine foldlM_eq_some (fun seeded : Nat × Lookaheads => seeded.2.size = size) ?_ fits
  rintro ⟨count, lookaheads⟩ fits item member
  have here : item < lookaheads.size := fits ▸ inside item member
  constructor
  · simp only [absorb_eq here]
    rfl
  · exact (size_absorb lookaheads item set).trans fits

theorem seed_eq (within : flow.Within size) {start : Nat}
    (looked : Flow.startItem? automaton = some start) (inside : start < size)
    {lookaheads : Lookaheads} (fits : lookaheads.size = size) :
    seed flow start lookaheads = some (flow.seed automaton lookaheads) := by
  have here : start < lookaheads.size := fits ▸ inside
  have started : (lookaheads.modify start (·.insert endTerminal)).size = size := by
    rw [Array.size_modify, fits]
  rw [seed, Array.getElem?_eq_getElem here, Flow.seed, looked, Option.bind_eq_bind,
    Option.bind_some]
  refine (foldlM_eq_some (fun seeded : Nat × Lookaheads => seeded.2.size = size) ?_ started).1
  rintro seeded fits ⟨group, set⟩ listed
  exact sprout_eq (within.spontaneous group set listed) set fits

theorem relax_eq {lookaheads : Lookaheads} {source target : Nat}
    (inside : source < lookaheads.size) (inside' : target < lookaheads.size) (changed : Bool) :
    relax changed lookaheads source target = some (Flow.relax changed lookaheads source target) := by
  have found := Array.getElem?_eq_getElem inside
  rw [relax, Flow.relax, Lookaheads.ofItem, found, Option.bind_eq_bind, Option.bind_some,
    absorb_eq inside', Option.getD_some]
  split <;> rfl

variable (inside : ∀ source target, (source, target) ∈ flow.edges → source < size ∧ target < size)

include inside

theorem pass_eq {lookaheads : Lookaheads} (fits : lookaheads.size = size) :
    pass flow lookaheads = some (flow.pass lookaheads) := by
  refine (foldlM_eq_some (fun noted : Bool × Lookaheads => noted.2.size = size) ?_ fits).1
  rintro ⟨changed, lookaheads⟩ fits ⟨source, target⟩ edge
  obtain ⟨sourceInside, targetInside⟩ := inside source target edge
  have sourceHere : source < lookaheads.size := fits ▸ sourceInside
  have targetHere : target < lookaheads.size := fits ▸ targetInside
  constructor
  · exact relax_eq sourceHere targetHere changed
  · exact (size_relax changed lookaheads source target).trans fits

theorem passes_eq {limit : Nat} (respects : flow.Respects fun _ t => t < limit) {bound : Nat}
    {lookaheads : Lookaheads} (within : flow.Within lookaheads.size)
    (limited : lookaheads.All fun _ t => t < limit)
    (enough : lookaheads.size * limit < bound + (Grows.filled limit lookaheads).card)
    (fits : lookaheads.size = size) :
    passes flow bound lookaheads = some (flow.passes bound lookaheads) := by
  refine Flow.passes_induction (motive := fun bound lookaheads => lookaheads.size = size →
    passes flow bound lookaheads = some (flow.passes bound lookaheads))
    respects ?_ ?_ within limited enough fits
  · intro bound lookaheads unchanged fits
    rw [passes, Flow.passes, pass_eq inside fits, Option.bind_eq_bind, Option.bind_some]
    simp [unchanged]
  · intro bound lookaheads changed later fits
    have passed : (flow.pass lookaheads).2.size = size :=
      (Flow.grows_pass flow lookaheads).size.trans fits
    rw [passes, Flow.passes, pass_eq inside fits, Option.bind_eq_bind, Option.bind_some]
    simp [changed, later passed]

end Passes

/-- Both ends of an edge are items. -/
theorem edge_lt (canonical : automaton.Canonical g) (wellFormed : g.WellFormed) (source target : Nat)
    (edge : (source, target) ∈ (Flow.ofAutomaton g (.ofGrammar g) automaton).edges) :
    source < automaton.itemCount ∧ target < automaton.itemCount := by
  obtain ⟨id, core, known, _⟩ := (canonical.mem_edges wellFormed).1 edge
  exact ⟨canonical.item_lt_itemCount known,
    (canonical.within_flow wellFormed).edges source target edge⟩

theorem passes_seed_eq (canonical : automaton.Canonical g) (wellFormed : g.WellFormed) :
    let flow := Flow.ofAutomaton g (.ofGrammar g) automaton
    let seeded := (flow.seed automaton automaton.noLookaheads).2
    passes flow (automaton.itemCount * g.terminals.size + 1) seeded =
      some (flow.passes (automaton.itemCount * g.terminals.size + 1) seeded) := by
  have size := Automaton.Canonical.size_seed (Flow.ofAutomaton g (.ofGrammar g) automaton) automaton
  refine passes_eq (edge_lt canonical wellFormed) (Flow.respects_lt automaton wellFormed) ?_
    (Automaton.Canonical.seed_lt automaton wellFormed) ?_ size
  · rw [size]
    exact canonical.within_flow wellFormed
  · rw [size]
    omega

/-- Lookaheads spread without a failure. -/
theorem propagate_eq (canonical : automaton.Canonical g) (defined : g.IsDefined) :
    propagate g (.ofGrammar g) automaton = some (automaton.propagate g) := by
  have wellFormed := defined.wellFormed
  obtain ⟨start, has⟩ := canonical.hasCore_initial.exists_item
  have looked : Flow.startItem? automaton = some start := by
    obtain ⟨state, found, numbered⟩ := has
    rw [Flow.startItem?, found, Option.bind_some]
    exact canonical.item?_eq_some wellFormed found (.inr rfl) numbered
  have seeded := seed_eq (canonical.within_flow wellFormed) looked (canonical.item_lt_itemCount has)
    (show automaton.noLookaheads.size = automaton.itemCount from Array.size_replicate)
  rw [propagate, index_eq canonical]
  simp only [Option.bind_eq_bind, Option.bind_some, flow_eq canonical defined,
    canonical.lookup_index defined has, seeded, passes_seed_eq canonical wellFormed]
  rfl

end Strict

end Lalr
