import Lalr.Listing
import Lalr.Proofs.Strict.Lookahead
import Lalr.Proofs.Strict.Printer
import Lalr.Proofs.Table.Answers

/-!
# Strict lookups: tables, diagnostics and listings

What is left of the strict generator takes items out of the arena and lookaheads from their places,
asks for the precedences that decide between a shift and a reduction, and writes texts.  All numbers
in tables and remarks are known to the grammar, so that every text can be written.  Put together,
the strict generator has a result for every grammar that can be defined, and it is the result of the
generator.
-/

namespace Lalr

namespace Strict

variable (g : Grammar)

/-! ## Tables -/

def accepting (automaton : Automaton) : Option (Option StateId) := do
  return (← automaton.states[initialState]?).transition? (.nonterminal g.start)

/-- The production of an item with its lookaheads, if the item is a reduction. -/
def reductionOf (lookaheads : Lookaheads) (entry : Core × Nat) :
    Option (Option (ProductionId × TerminalSet)) := do
  let set ← lookaheads[entry.2]?
  return if ← isReduction g entry.1 then some (entry.1.production, set) else none

def reductions (states : Array State) (lookaheads : Lookaheads) (state : State) :
    Option (List (ProductionId × TerminalSet)) := do
  (← items states state).filterMapM (reductionOf g lookaheads)

def terminalPrecedence (t : TerminalId) : Option (Option Precedence) := do
  return (← g.terminals[t]?).precedence

def productionPrecedence (p : ProductionId) : Option (Option Precedence) := do
  let production ← g.productions[p]?
  match production.borrowed, Grammar.lastTerminal? production.right.toList with
  | some precedence, _ => return precedence
  | none, some t => terminalPrecedence g t
  | none, none => return none

/-- Between a shift and a reduction, both precedences are asked for. -/
def decideAction (id : StateId) (t : TerminalId) (candidates : Candidates) :
    Option (Option Action × List Conflict) := do
  match candidates with
  | ⟨some _, p :: _⟩ =>
      let _ ← terminalPrecedence g t
      let _ ← productionPrecedence g p
      return Table.decideAction g id t candidates
  | _ => return Table.decideAction g id t candidates

def decisionOn (accepting : Bool) (id : StateId) (state : State)
    (reductions : List (ProductionId × TerminalSet)) (t : TerminalId) :
    Option (TerminalId × Option Action × List Conflict) := do
  return (t, ← decideAction g id t
    ⟨Table.shiftOn? accepting state t, Table.reductionsOn reductions t⟩)

def fillRow (defaultReductions accepting : Bool) (states : Array State) (lookaheads : Lookaheads)
    (id : StateId) (state : State) : Option (Row × List Conflict) := do
  let reductions ← reductions g states lookaheads state
  let decided ← (Table.activeTerminals accepting state reductions).toList.mapM
    (decisionOn g accepting id state reductions)
  let actions := decided.filterMap fun (t, action, _) => action.map (t, ·)
  return ({
      actions
      gotos := state.gotos
      defaultReduction := if defaultReductions then Table.onlyReduction actions else none },
    decided.flatMap fun (_, _, conflicts) => conflicts)

/-- Fill the rows of all states, and write the conflicts to a log. -/
def table (defaultReductions : Bool) (automaton : Automaton) (lookaheads : Lookaheads) :
    Option Table := do
  let accepting ← accepting g automaton
  let filled ← automaton.states.toList.zipIdx.mapM fun (state, id) =>
    fillRow g defaultReductions (accepting == some id) automaton.states lookaheads id state
  let conflicts := filled.flatMap (·.2)
  let _ ← conflicts.mapM (renderConflict g)
  return ⟨(filled.map (·.1)).toArray, conflicts⟩

/-! ## Diagnostics -/

/-- Collect all remarks, and write the dead productions to a log. -/
def collect (automaton : Automaton) (lookaheads : Lookaheads) (table : Table) :
    Option (List Diagnostic) := do
  let reductions ← automaton.states.toList.flatMapM (reductions g automaton.states lookaheads)
  let reduced : IdSet := reductions.foldl
    (fun set (p, terminals) => if terminals.isEmpty then set else set.insert p) ∅
  let used := Diagnostic.usedTerminals g
  let dead := (List.range g.productions.size).filter fun p =>
    p ≠ acceptProduction && !reduced.contains p
  let unused := (List.range g.terminals.size).filter fun t => !used.contains t
  let _ ← dead.mapM (renderProductionId g)
  return table.conflicts.map .conflict ++ dead.map .deadProduction ++ unused.map .unusedTerminal

def generate (defaultReductions : Bool) : Option Output := do
  let automaton ← build g
  let propagation ← propagate g (← ofGrammar g) automaton
  let table ← table g defaultReductions automaton propagation.lookaheads
  let diagnostics ← collect g automaton propagation.lookaheads table
  return { automaton, propagation, table, diagnostics }

/-! ## Listings -/

def listedItem (lookaheads : Lookaheads) (mark : String) (entry : Core × Nat) : Option String := do
  let set ← lookaheads[entry.2]?
  let text ← renderCore g entry.1
  if ← isReduction g entry.1 then
    return mark ++ text ++ ("  " ++ (← renderTerminals g set))
  else
    return mark ++ text

def listedState (output : Output) (state : State) (id : StateId) : Option (List String) := do
  let lookaheads := output.propagation.lookaheads
  let items ← items output.automaton.states state
  let kernel ← (items.take state.kernel.length).mapM (listedItem g lookaheads "- ")
  let added ← (items.drop state.kernel.length).mapM (listedItem g lookaheads "+ ")
  let row ← output.table.rows[id]?.toList.flatMapM (renderRow g)
  return [s!"#### State {id}", "## items"] ++ kernel ++ added ++ row ++ [""]

def listing (output : Output) : Option String := do
  let states ← output.automaton.states.toList.zipIdx.flatMapM fun (state, id) =>
    listedState g output state id
  let remarks ← output.diagnostics.mapM (renderDiagnostic g)
  let shown := if output.diagnostics.isEmpty then ["(none)"] else remarks
  return (← renderGrammar g) ++ Text.lines ("" :: states ++ "## diagnostics" :: shown)

variable {g}

/-! ## Known numbers -/

section Known

variable {defaultReductions : Bool} {id : StateId} {state : State} {t : TerminalId}

theorem known_action {candidates : Candidates}
    (shifts : ∀ action, candidates.shift = some action → action.Known g)
    (reduces : ∀ p ∈ candidates.reductions, p < g.productions.size) {action : Action}
    (decided : (Table.decideAction g id t candidates).1 = some action) : action.Known g := by
  rcases Table.decideAction_mem decided with shifted | ⟨p, member, rfl⟩
  · exact shifts action shifted
  · exact reduces p member

theorem known_conflict {candidates : Candidates} (inside : t < g.terminals.size)
    (shifts : ∀ action, candidates.shift = some action → action.Known g)
    (reduces : ∀ p ∈ candidates.reductions, p < g.productions.size) {conflict : Conflict}
    (met : conflict ∈ (Table.decideAction g id t candidates).2) : conflict.Known g := by
  have known := @known_action g id t candidates shifts reduces
  have reduceKnown : ∀ p others, candidates.reductions = p :: others →
      (Table.reduceConflict id t p (p :: others)).Known g := by
    intro p others listed
    rw [listed] at reduces
    refine ⟨inside, ?_, reduces p (List.mem_cons_self ..)⟩
    intro action member
    obtain ⟨q, listed, rfl⟩ := List.mem_map.1 member
    exact reduces q listed
  have shiftKnown : ∀ shift p others, candidates = ⟨some shift, p :: others⟩ →
      (Table.shiftConflict g id t shift p).Known g := by
    rintro shift p others rfl
    refine ⟨inside, ?_, known (by cases others <;> rfl)⟩
    intro action member
    rcases List.mem_pair.1 member with rfl | rfl
    · exact shifts action rfl
    · exact reduces p (List.mem_cons_self ..)
  rcases candidates with ⟨_ | shift, _ | ⟨p, _ | ⟨q, others⟩⟩⟩
  · simp [Table.decideAction] at met
  · simp [Table.decideAction] at met
  · rw [List.mem_singleton.1 met]
    exact reduceKnown p (q :: others) rfl
  · simp [Table.decideAction] at met
  · rw [List.mem_singleton.1 met]
    exact shiftKnown shift p [] rfl
  · rcases List.mem_pair.1 met with rfl | rfl
    · exact reduceKnown p (q :: others) rfl
    · exact shiftKnown shift p (q :: others) rfl

theorem known_shift {accepting : Bool} {action : Action}
    (shifted : Table.shiftOn? accepting state t = some action) : action.Known g := by
  rcases Table.shiftOn?_cases shifted with ⟨rfl, _⟩ | ⟨target, rfl, _⟩
  · trivial
  · trivial

/-- The row of a state and the conflicts met in filling it. -/
theorem known_fillRow (wellFormed : g.WellFormed)
    (found : (Automaton.build g).states[id]? = some state) :
    let filled := Table.fillRow g defaultReductions ((Automaton.build g).accepting? g == some id)
      ((Automaton.build g).propagate g).lookaheads id state
    filled.1.Known g ∧ ∀ conflict ∈ filled.2, conflict.Known g := by
  have canonical := Automaton.canonical_build wellFormed
  have reduces : ∀ t, ∀ p ∈ (g.candidates id state t).reductions, p < g.productions.size :=
    fun t p member => candidate_lt wellFormed found member
  have decided : ∀ entry ∈ (Table.fillRow g defaultReductions
      ((Automaton.build g).accepting? g == some id) ((Automaton.build g).propagate g).lookaheads id
        state).1.actions, entry.1 < g.terminals.size ∧ entry.2.Known g := by
    rintro ⟨t, action⟩ member
    obtain ⟨entry, listed, taken⟩ := List.mem_filterMap.1 member
    obtain ⟨key, active, rfl⟩ := List.mem_map.1 listed
    obtain ⟨chosen, decision, same⟩ := Option.map_eq_some_iff.1 taken
    cases same
    exact ⟨lt_of_active wellFormed found (IdSet.mem_toList.1 active),
      known_action (fun _ => known_shift) (reduces t) decision⟩
  refine ⟨⟨fun entry member => (decided entry member).1, fun entry member => (decided entry member).2,
    ?_, ?_⟩, ?_⟩
  · rintro ⟨n, target⟩ member
    obtain ⟨⟨symbol, again⟩, led, kind⟩ := List.mem_filterMap.1 member
    have numbered := canonical.numbers_of_transition wellFormed found led
    cases symbol with
    | terminal t => cases kind
    | nonterminal m =>
        cases kind
        exact numbered
  · intro p default
    obtain ⟨t, member⟩ := Table.exists_of_defaultReduction default
    exact reduces t p member
  · intro conflict member
    rw [Table.conflicts_fillRow_eq] at member
    obtain ⟨t, active, met⟩ := List.mem_flatMap.1 member
    exact known_conflict (lt_of_active wellFormed found (IdSet.mem_toList.1 active))
      (fun _ => known_shift) (reduces t) met

theorem known_of_mem_conflicts {conflict : Conflict} (wellFormed : g.WellFormed)
    (member : conflict ∈ (Table.ofAutomaton g defaultReductions (Automaton.build g)
      ((Automaton.build g).propagate g).lookaheads).conflicts) : conflict.Known g := by
  obtain ⟨filled, listed, met⟩ := List.mem_flatMap.1 member
  obtain ⟨⟨state, id⟩, inStates, rfl⟩ := List.mem_map.1 listed
  rw [Automaton.mem_zipIdx_states] at inStates
  exact (known_fillRow wellFormed inStates).2 conflict met

theorem known_of_mem_rows {row : Row} (wellFormed : g.WellFormed)
    (found : (g.generate defaultReductions).table.rows[id]? = some row) : row.Known g := by
  have filled : (g.generate defaultReductions).table.rows[id]? = _ :=
    Table.getElem?_rows defaultReductions id
  rw [filled] at found
  obtain ⟨state, inStates, rfl⟩ := Option.map_eq_some_iff.1 found
  exact (known_fillRow wellFormed inStates).1

theorem known_of_mem_diagnostics {diagnostic : Diagnostic} (wellFormed : g.WellFormed)
    (member : diagnostic ∈ (g.generate defaultReductions).diagnostics) : diagnostic.Known g := by
  rcases List.mem_append.1 member with early | unused
  · rcases List.mem_append.1 early with conflict | dead
    · obtain ⟨record, listed, rfl⟩ := List.mem_map.1 conflict
      exact known_of_mem_conflicts wellFormed listed
    · obtain ⟨p, listed, rfl⟩ := List.mem_map.1 dead
      exact List.mem_range.1 (List.mem_filter.1 listed).1
  · obtain ⟨t, listed, rfl⟩ := List.mem_map.1 unused
    exact List.mem_range.1 (List.mem_filter.1 listed).1

end Known

/-! ## Nothing fails -/

section Tables

variable {automaton : Automaton} {lookaheads : Lookaheads} {id : StateId} {state : State}

theorem accepting_eq (canonical : automaton.Canonical g) :
    accepting g automaton = some (automaton.accepting? g) := by
  obtain ⟨initial, found, _⟩ := canonical.initial
  rw [accepting, Automaton.accepting?, found]
  rfl

theorem reductions_eq (canonical : automaton.Canonical g) (wellFormed : g.WellFormed)
    (size : lookaheads.size = automaton.itemCount) (found : automaton.states[id]? = some state) :
    reductions g automaton.states lookaheads state = some (state.reductions g lookaheads) := by
  have each : ∀ entry ∈ state.items, reductionOf g lookaheads entry =
      some (if entry.1.isReduction g then some (entry.1.production, lookaheads.ofItem entry.2)
        else none) := by
    rintro ⟨core, item⟩ numbered
    have has : automaton.HasItem id core item := ⟨state, found, numbered⟩
    have inside : item < lookaheads.size := size ▸ canonical.item_lt_itemCount has
    have isOf := canonical.isOf_of_hasCore wellFormed has.hasCore
    rw [reductionOf, isReduction_eq isOf, Lookaheads.ofItem, Array.getElem?_eq_getElem inside]
    rfl
  rw [reductions, items_of_canonical canonical found, Option.bind_eq_bind, Option.bind_some,
    filterMapM_eq_some each, State.reductions, ← List.filterMap_eq_map, List.filterMap_filter]
  rfl

theorem terminalPrecedence_eq {t : TerminalId} (inside : t < g.terminals.size) :
    terminalPrecedence g t = some (g.terminalPrecedence t) := by
  have found := Array.getElem?_eq_getElem inside
  rw [terminalPrecedence, Grammar.terminalPrecedence, found]
  rfl

theorem productionPrecedence_eq (wellFormed : g.WellFormed) {p : ProductionId}
    (inside : p < g.productions.size) :
    productionPrecedence g p = some (g.productionPrecedence p) := by
  have found := Array.getElem?_eq_getElem inside
  rw [productionPrecedence, Grammar.productionPrecedence, found, Option.bind_some,
    Grammar.precedenceOf, Option.bind_eq_bind, Option.bind_some]
  cases g.productions[p].borrowed with
  | some precedence => rfl
  | none =>
      cases last : Grammar.lastTerminal? g.productions[p].right.toList with
      | none => rfl
      | some t =>
          exact terminalPrecedence_eq
            (wellFormed.terminal_lt found (Grammar.mem_of_lastTerminal? last))

theorem decideAction_eq (wellFormed : g.WellFormed) {t : TerminalId}
    (inside : t < g.terminals.size) {candidates : Candidates}
    (reduces : ∀ p ∈ candidates.reductions, p < g.productions.size) :
    decideAction g id t candidates = some (Table.decideAction g id t candidates) := by
  rcases candidates with ⟨_ | shift, _ | ⟨p, others⟩⟩
  · rfl
  · rfl
  · rfl
  · have precedence := productionPrecedence_eq wellFormed (reduces p (List.mem_cons_self ..))
    rw [decideAction, terminalPrecedence_eq inside, precedence]
    rfl

theorem fillRow_eq (wellFormed : g.WellFormed) (defaultReductions : Bool)
    (found : (Automaton.build g).states[id]? = some state) :
    fillRow g defaultReductions ((Automaton.build g).accepting? g == some id)
        (Automaton.build g).states ((Automaton.build g).propagate g).lookaheads id state =
      some (Table.fillRow g defaultReductions ((Automaton.build g).accepting? g == some id)
        ((Automaton.build g).propagate g).lookaheads id state) := by
  have listed := reductions_eq (Automaton.canonical_build wellFormed) wellFormed
    (Automaton.Canonical.size_propagate g (Automaton.build g)) found
  have decided : ∀ t ∈ (Table.activeTerminals ((Automaton.build g).accepting? g == some id) state
      (state.reductions g ((Automaton.build g).propagate g).lookaheads)).toList,
      decisionOn g ((Automaton.build g).accepting? g == some id) id state
          (state.reductions g ((Automaton.build g).propagate g).lookaheads) t =
        some (t, g.decision id state t) := by
    intro t active
    have inside := lt_of_active wellFormed found (IdSet.mem_toList.1 active)
    have known : decideAction g id t (g.candidates id state t) = some (g.decision id state t) :=
      decideAction_eq wellFormed inside fun p member => candidate_lt wellFormed found member
    rw [Grammar.candidates, Table.candidates] at known
    rw [decisionOn, known]
    rfl
  rw [fillRow, listed, Option.bind_eq_bind, Option.bind_some, mapM_eq_some decided]
  rfl

theorem table_eq (wellFormed : g.WellFormed) (defaultReductions : Bool) :
    table g defaultReductions (Automaton.build g) ((Automaton.build g).propagate g).lookaheads =
      some (Table.ofAutomaton g defaultReductions (Automaton.build g)
        ((Automaton.build g).propagate g).lookaheads) := by
  have filled : ∀ entry ∈ (Automaton.build g).states.toList.zipIdx,
      fillRow g defaultReductions ((Automaton.build g).accepting? g == some entry.2)
          (Automaton.build g).states ((Automaton.build g).propagate g).lookaheads entry.2 entry.1 =
        some (Table.fillRow g defaultReductions ((Automaton.build g).accepting? g == some entry.2)
          ((Automaton.build g).propagate g).lookaheads entry.2 entry.1) := by
    rintro ⟨state, id⟩ member
    rw [Automaton.mem_zipIdx_states] at member
    exact fillRow_eq wellFormed defaultReductions member
  have log := mapM_eq_some fun conflict member =>
    renderConflict_eq wellFormed (@known_of_mem_conflicts g defaultReductions conflict wellFormed member)
  rw [Table.ofAutomaton] at log
  rw [table, accepting_eq (Automaton.canonical_build wellFormed), Option.bind_eq_bind,
    Option.bind_some, mapM_eq_some filled]
  simp only [Option.bind_eq_bind, Option.bind_some] at log ⊢
  rw [log]
  rfl

end Tables

theorem collect_eq (wellFormed : g.WellFormed) (table : Table) :
    collect g (Automaton.build g) ((Automaton.build g).propagate g).lookaheads table =
      some (Diagnostic.collect g (Automaton.build g) ((Automaton.build g).propagate g).lookaheads
        table) := by
  have canonical := Automaton.canonical_build wellFormed
  have listed := flatMapM_eq_some fun state (member : state ∈ (Automaton.build g).states.toList) => by
    obtain ⟨id, found⟩ := Automaton.mem_states.1 member
    exact reductions_eq canonical wellFormed (Automaton.Canonical.size_propagate g _) found
  have reduced : (((Automaton.build g).states.toList.flatMap fun state =>
      state.reductions g ((Automaton.build g).propagate g).lookaheads).foldl
        (fun set (p, terminals) => if terminals.isEmpty then set else set.insert p) ∅) =
      Diagnostic.reducedProductions g (Automaton.build g)
        ((Automaton.build g).propagate g).lookaheads := by
    rw [List.foldl_flatMap, Diagnostic.reducedProductions, Array.foldl_toList]
  have log : ∀ p ∈ (List.range g.productions.size).filter fun p => p ≠ acceptProduction &&
      !(Diagnostic.reducedProductions g (Automaton.build g)
        ((Automaton.build g).propagate g).lookaheads).contains p,
      renderProductionId g p = some (g.renderProductionId p) := by
    intro p dead
    exact renderProductionId_eq wellFormed (List.mem_range.1 (List.mem_filter.1 dead).1)
  rw [collect, listed, Option.bind_eq_bind, Option.bind_some]
  simp only [reduced, mapM_eq_some log, Option.bind_eq_bind, Option.bind_some]
  rfl

theorem generate_eq (defined : g.IsDefined) (defaultReductions : Bool) :
    generate g defaultReductions = some (g.generate defaultReductions) := by
  have wellFormed := defined.wellFormed
  rw [generate, build_eq defined, ofGrammar_eq wellFormed]
  simp only [Option.bind_eq_bind, Option.bind_some,
    propagate_eq (Automaton.canonical_build wellFormed) defined, table_eq wellFormed,
    collect_eq wellFormed]
  rfl

section Listing

variable {defaultReductions : Bool} {id : StateId} {state : State}

theorem listedItem_eq (wellFormed : g.WellFormed) {core : Core} {item : Nat}
    (has : (Automaton.build g).HasItem id core item) (mark : String) :
    listedItem g ((Automaton.build g).propagate g).lookaheads mark (core, item) =
      some (Lalr.listedItem g ((Automaton.build g).propagate g).lookaheads mark core item) := by
  have canonical := Automaton.canonical_build wellFormed
  have isOf := canonical.isOf_of_hasCore wellFormed has.hasCore
  have inside : item < ((Automaton.build g).propagate g).lookaheads.size := by
    rw [Automaton.Canonical.size_propagate]
    exact canonical.item_lt_itemCount has
  have found := Array.getElem?_eq_getElem inside
  have limited := Automaton.Canonical.all_propagate (Flow.respects_lt (Automaton.build g) wellFormed)
    fun _ _ => wellFormed.ending
  have terminals := renderTerminals_eq (limited item)
  rw [Lookaheads.ofItem, found, Option.getD_some] at terminals
  rw [listedItem, found, renderCore_eq wellFormed isOf, isReduction_eq isOf, Lalr.listedItem,
    Lookaheads.ofItem, found, Option.getD_some]
  simp only [Option.bind_eq_bind, Option.bind_some, terminals]
  cases core.isReduction g with
  | false => simp
  | true => rfl

theorem listedState_eq (wellFormed : g.WellFormed)
    (found : (Automaton.build g).states[id]? = some state) :
    listedState g (g.generate defaultReductions) state id =
      some (Lalr.listedState g (g.generate defaultReductions) state id) := by
  have whole : state.items = state.kernelItems ++ state.addedItems := List.zipIdx_append ..
  have kernelLength : state.kernelItems.length = state.kernel.length := List.length_zipIdx
  have listed : ∀ mark, ∀ entry ∈ state.items,
      listedItem g (g.generate defaultReductions).propagation.lookaheads mark entry =
        some (Lalr.listedItem g (g.generate defaultReductions).propagation.lookaheads mark entry.1
          entry.2) := by
    rintro mark ⟨core, item⟩ numbered
    exact listedItem_eq wellFormed ⟨state, found, numbered⟩ mark
  have kernel := mapM_eq_some fun entry (member : entry ∈ state.kernelItems) =>
    listed "- " entry (whole ▸ List.mem_append_left _ member)
  have added := mapM_eq_some fun entry (member : entry ∈ state.addedItems) =>
    listed "+ " entry (whole ▸ List.mem_append_right _ member)
  have row := flatMapM_eq_some fun row
      (member : row ∈ (g.generate defaultReductions).table.rows[id]?.toList) =>
    renderRow_eq wellFormed (known_of_mem_rows wellFormed (Option.mem_toList.1 member))
  have items : items (g.generate defaultReductions).automaton.states state = some state.items :=
    items_of_canonical (Automaton.canonical_build wellFormed) found
  rw [listedState, items, Lalr.listedState, whole]
  simp only [Option.bind_eq_bind, Option.bind_some, List.take_left' kernelLength,
    List.drop_left' kernelLength, kernel, added, row]
  cases (g.generate defaultReductions).table.rows[id]? with
  | none => rfl
  | some row =>
      rw [Option.toList_some, List.flatMap_singleton]
      rfl

theorem listing_eq (wellFormed : g.WellFormed) (defaultReductions : Bool) :
    listing g (g.generate defaultReductions) =
      some ((g.generate defaultReductions).listing g) := by
  have states : ∀ entry ∈ (g.generate defaultReductions).automaton.states.toList.zipIdx,
      listedState g (g.generate defaultReductions) entry.1 entry.2 =
        some (Lalr.listedState g (g.generate defaultReductions) entry.1 entry.2) := by
    rintro ⟨state, id⟩ member
    rw [Automaton.mem_zipIdx_states] at member
    exact listedState_eq wellFormed member
  have remarks := mapM_eq_some fun diagnostic member =>
    renderDiagnostic_eq wellFormed
      (@known_of_mem_diagnostics g defaultReductions diagnostic wellFormed member)
  rw [listing, flatMapM_eq_some states, remarks, renderGrammar_eq wellFormed]
  rfl

end Listing

end Strict

/-- No lookup of the generator misses, no dot exceeds its limit, and no loop is cut short: for every
grammar that can be defined, the strict generator and the strict listing have the generator's own
results. -/
theorem lookups_never_miss {g : Grammar} (defined : g.IsDefined) (defaultReductions : Bool) :
    Strict.generate g defaultReductions = some (g.generate defaultReductions) ∧
      Strict.listing g (g.generate defaultReductions) =
        some ((g.generate defaultReductions).listing g) :=
  ⟨Strict.generate_eq defined defaultReductions,
    Strict.listing_eq defined.wellFormed defaultReductions⟩

theorem lookups_never_miss_brackets :
    Grammar.brackets.IsDefined ∧
      Strict.generate Grammar.brackets true = some (Grammar.brackets.generate true) ∧
      Strict.listing Grammar.brackets (Grammar.brackets.generate true) =
        some ((Grammar.brackets.generate true).listing Grammar.brackets) :=
  ⟨Grammar.isDefined_brackets, lookups_never_miss Grammar.isDefined_brackets true⟩

/-- A production that mentions an undeclared nonterminal makes the strict generator fail. -/
example : Strict.generate
    { Grammar.brackets with
      productions := Grammar.brackets.productions.push ⟨1, #[.nonterminal 2], none⟩
      groups := #[[acceptProduction], [1, 2, 3]] } false = none := by
  decide +kernel

end Lalr
