import Lalr.Proofs.Diagnostic.DeadProduction
import Lalr.Proofs.Extension.Calls

/-!
# Extensions leave the generated parser alone

Where a grammar extends another, the whole construction of a parser runs through the same steps in
both.  Only old cores come up, and all that the construction asks about old cores has the same
answer in both grammars.  What differs are the bounds on loops, which are computed from the size of
the grammar; but no loop meets its bound.
-/

namespace Lalr

namespace Grammar.Extends

variable {g g' : Grammar}

section Construction

variable (larger : g.Extends g') (defined : g.IsDefined) (defined' : g'.IsDefined)

include larger defined defined'

theorem closing_eq {kernel : List Core} (old : ∀ core ∈ kernel, core.IsOf g) :
    g'.expansion g'.nonterminals.size ∅ kernel = g.expansion g.nonterminals.size ∅ kernel := by
  obtain ⟨more, size⟩ := Nat.exists_eq_add_of_le larger.nonterminals
  rw [larger.expansion_eq defined.wellFormed defined.lawful defined'.lawful old, size,
    expansion_add defined.wellFormed more (card_unexpanded_le g ∅)]

theorem intern_eq {kernel : List Core} (old : ∀ core ∈ kernel, core.IsOf g) (builder : Builder) :
    builder.intern g' kernel = builder.intern g kernel := by
  simp only [Builder.intern, larger.closing_eq defined defined' old]

theorem internAll_eq {cores : List Core} (symbols : List Symbol) (builder : Builder) :
    builder.internAll g' (g.moves cores) symbols = builder.internAll g (g.moves cores) symbols := by
  induction symbols generalizing builder with
  | nil => rfl
  | cons symbol rest ih =>
      have old : ∀ core ∈ movesAcross (g.moves cores) symbol, core.IsOf g :=
        (g.isKernel_goto cores symbol).cores
      simp only [Builder.internAll, larger.intern_eq defined defined' old, ih]

theorem expand_eq {popped : Nat} {builder : Builder} (sound : builder.Sound g popped)
    (id : StateId) : builder.expand g' id = builder.expand g id := by
  unfold Builder.expand
  cases found : builder.states[id]? with
  | none => rfl
  | some state =>
      have old := sound.isOf defined.wellFormed found
      simp only [larger.moves_eq old, larger.internAll_eq defined defined']

/-- As long as only old cores have come up, both grammars go on alike. -/
theorem run_eq {popped : Nat} {builder : Builder} (invariant : builder.Invariant g popped)
    (bound : Nat) : builder.run g' bound = builder.run g bound := by
  induction bound generalizing popped builder with
  | zero => rfl
  | succ bound ih =>
      rw [Builder.run, Builder.run]
      cases taken : builder.queue.pop with
      | none => rfl
      | some next =>
          obtain ⟨id, queue⟩ := next
          have sound := (invariant.toSound.pop taken).2.2
          simp only [larger.expand_eq defined defined' sound]
          exact ih (invariant.expand taken)

theorem start_eq : Builder.start g' = Builder.start g := by
  have old : ∀ core ∈ [(⟨acceptProduction, 0⟩ : Core)], core.IsOf g := by
    intro core member
    rw [List.mem_singleton.1 member]
    exact ⟨_, defined.wellFormed.augmented, Nat.zero_le _⟩
  rw [Builder.start, Builder.start, larger.intern_eq defined defined' old]

theorem build_eq : Automaton.build g' = Automaton.build g := by
  have ended := Builder.run_start_ended defined.wellFormed
  have ended' := Builder.run_start_ended defined'.wellFormed
  have invariant := Builder.invariant_start defined.wellFormed
  rw [larger.start_eq defined defined', larger.run_eq defined defined' invariant] at ended'
  rw [Automaton.build, Automaton.build, larger.start_eq defined defined',
    larger.run_eq defined defined' invariant, Builder.run_unique ended' ended]

end Construction

/-! ## Lookaheads -/

section Propagation

variable (larger : g.Extends g')

include larger

theorem openingTable_eq {state : State} (old : ∀ core ∈ state.cores, core.IsOf g) :
    Flow.openingTable g' state = Flow.openingTable g state := by
  have items : ∀ n, Flow.openingItems g' state.items n = Flow.openingItems g state.items n := by
    intro n
    apply List.filterMap_congr
    rintro ⟨core, item⟩ numbered
    simp only [larger.opens_eq (old core (State.mem_cores_of_mem_items numbered))]
  rw [Flow.openingTable, Flow.openingTable, larger.followers_eq old]
  simp only [items]

variable (wellFormed : g.WellFormed) (wellFormed' : g'.WellFormed)

include wellFormed wellFormed'

theorem firstOfRest_eq {core : Core} (isOf : core.IsOf g) :
    Flow.firstOfRest g' (.ofGrammar g') core = Flow.firstOfRest g (.ofGrammar g) core := by
  obtain ⟨production, listed, _⟩ := isOf
  rw [Flow.firstOfRest_eq, Flow.firstOfRest_eq, Core.rest, Core.rest, Core.right_of_listed listed,
    Core.right_of_listed (larger.production listed)]
  apply larger.ofSequence_eq wellFormed wellFormed'
  intro symbol member
  exact wellFormed.numbers listed (List.mem_of_mem_drop member)

theorem spontaneousIn_eq {state : State} (old : ∀ core ∈ state.cores, core.IsOf g) :
    Flow.spontaneousIn g' (.ofGrammar g') state = Flow.spontaneousIn g (.ofGrammar g) state := by
  rw [Flow.spontaneousIn, Flow.spontaneousIn, larger.openingTable_eq old]
  apply List.filterMap_congr
  intro core member
  rw [Flow.spontaneousOf?, Flow.spontaneousOf?, larger.nextNonterminal_eq (old core member),
    larger.firstOfRest_eq wellFormed wellFormed' (old core member)]

theorem edgesFrom_eq (automaton : Automaton) {state : State}
    (old : ∀ core ∈ state.cores, core.IsOf g) :
    Flow.edgesFrom g' (.ofGrammar g') automaton state =
      Flow.edgesFrom g (.ofGrammar g) automaton state := by
  rw [Flow.edgesFrom, Flow.edgesFrom, larger.openingTable_eq old]
  apply List.flatMap_congr
  rintro ⟨core, item⟩ numbered
  have isOf := old core (State.mem_cores_of_mem_items numbered)
  simp only [Flow.edgesOf, Flow.openingEdges, Flow.movedItem?, larger.nextNonterminal_eq isOf,
    larger.next_eq isOf, larger.firstOfRest_eq wellFormed wellFormed' isOf]

theorem flow_eq {automaton : Automaton}
    (old : ∀ state ∈ automaton.states.toList, ∀ core ∈ state.cores, core.IsOf g) :
    Flow.ofAutomaton g' (.ofGrammar g') automaton =
      Flow.ofAutomaton g (.ofGrammar g) automaton := by
  rw [Flow.ofAutomaton, Flow.ofAutomaton, Flow.mk.injEq]
  constructor
  · apply List.flatMap_congr
    intro state member
    exact larger.spontaneousIn_eq wellFormed wellFormed' (old state member)
  · apply List.flatMap_congr
    intro state member
    exact larger.edgesFrom_eq wellFormed wellFormed' automaton (old state member)

/-- Lookaheads spread in the same passes, although more of them would be allowed. -/
theorem propagate_eq {automaton : Automaton} (canonical : automaton.Canonical g)
    (old : ∀ state ∈ automaton.states.toList, ∀ core ∈ state.cores, core.IsOf g) :
    automaton.propagate g' = automaton.propagate g := by
  obtain ⟨more, size⟩ := Nat.exists_eq_add_of_le larger.terminals_le
  have bound : automaton.itemCount * g'.terminals.size + 1 =
      automaton.itemCount * g.terminals.size + 1 + automaton.itemCount * more := by
    rw [size, Nat.mul_add]
    omega
  rw [Automaton.propagate, Automaton.propagate, Propagation.startingFrom, Propagation.startingFrom,
    larger.flow_eq wellFormed wellFormed' old]
  simp only [bound, canonical.passes_seed wellFormed]

end Propagation

/-! ## Tables -/

section Table

variable (larger : g.Extends g')

include larger

theorem terminalPrecedence_eq {t : TerminalId} (old : t < g.terminals.size) :
    g'.terminalPrecedence t = g.terminalPrecedence t := by
  have here := Array.getElem?_eq_getElem old
  rw [terminalPrecedence, terminalPrecedence, larger.terminal here, here]

theorem productionPrecedence_eq (wellFormed : g.WellFormed) {p : ProductionId}
    (old : p < g.productions.size) : g'.productionPrecedence p = g.productionPrecedence p := by
  have here := Array.getElem?_eq_getElem old
  rw [productionPrecedence, productionPrecedence, larger.production here, here,
    Option.bind_some, Option.bind_some, precedenceOf, precedenceOf]
  cases g.productions[p].borrowed with
  | some precedence => rfl
  | none =>
      cases last : lastTerminal? g.productions[p].right.toList with
      | none => rfl
      | some t =>
          have inside := wellFormed.terminal_lt here (mem_of_lastTerminal? last)
          exact larger.terminalPrecedence_eq inside

theorem resolve_eq (wellFormed : g.WellFormed) {t : TerminalId} (inside : t < g.terminals.size)
    {p : ProductionId} (old : p < g.productions.size) (shift : Action) :
    Table.resolve g' t shift p = Table.resolve g t shift p := by
  rw [Table.resolve, Table.resolve, larger.terminalPrecedence_eq inside,
    larger.productionPrecedence_eq wellFormed old]

theorem decideAction_eq (wellFormed : g.WellFormed) (id : StateId) {t : TerminalId}
    (inside : t < g.terminals.size) {candidates : Candidates}
    (old : ∀ p ∈ candidates.reductions, p < g.productions.size) :
    Table.decideAction g' id t candidates = Table.decideAction g id t candidates := by
  rcases candidates with ⟨_ | shift, _ | ⟨p, others⟩⟩
  · rfl
  · cases others <;> rfl
  · rfl
  · have resolved := larger.resolve_eq wellFormed inside (old p (List.mem_cons_self ..)) shift
    cases others <;> simp only [Table.decideAction, Table.shiftConflict, resolved]

theorem reductions_eq (lookaheads : Lookaheads) {state : State}
    (old : ∀ core ∈ state.cores, core.IsOf g) :
    state.reductions g' lookaheads = state.reductions g lookaheads := by
  have same : ∀ entry ∈ state.items, entry.1.isReduction g' = entry.1.isReduction g := by
    rintro ⟨core, item⟩ numbered
    exact larger.isReduction_eq (old core (State.mem_cores_of_mem_items numbered))
  rw [State.reductions, State.reductions, List.filter_congr same]

/-- The rows of the smaller grammar's automaton are filled alike. -/
theorem fillRow_eq (wellFormed : g.WellFormed) (defaultReductions accepting : Bool) {id : StateId}
    {state : State} (found : (Automaton.build g).states[id]? = some state) :
    Table.fillRow g' defaultReductions accepting ((Automaton.build g).propagate g).lookaheads id
        state =
      Table.fillRow g defaultReductions accepting ((Automaton.build g).propagate g).lookaheads id
        state := by
  have canonical := Automaton.canonical_build wellFormed
  have old : ∀ core ∈ state.cores, core.IsOf g := fun core member =>
    canonical.isOf_of_hasCore wellFormed ⟨state, found, member⟩
  have decided : ∀ t ∈ (Table.activeTerminals accepting state (state.reductions g
      ((Automaton.build g).propagate g).lookaheads)).toList,
        Table.decideAction g' id t ⟨Table.shiftOn? accepting state t, Table.reductionsOn
          (state.reductions g ((Automaton.build g).propagate g).lookaheads) t⟩ =
        Table.decideAction g id t ⟨Table.shiftOn? accepting state t, Table.reductionsOn
          (state.reductions g ((Automaton.build g).propagate g).lookaheads) t⟩ := by
    intro t active
    apply larger.decideAction_eq wellFormed id
      (lt_of_active wellFormed found (IdSet.mem_toList.1 active))
    intro p reduced
    obtain ⟨set, listed, _⟩ := Table.mem_reductionsOn.1 reduced
    obtain ⟨item, numbered, _⟩ := mem_reductions.1 listed
    exact (old _ (State.mem_cores_of_mem_items numbered)).lt_size
  rw [Table.fillRow, Table.fillRow, larger.reductions_eq _ old]
  simp only [List.map_congr_left fun t active => congrArg (t, ·) (decided t active)]

theorem table_eq (wellFormed : g.WellFormed) (defaultReductions : Bool) :
    Table.ofAutomaton g' defaultReductions (Automaton.build g)
        ((Automaton.build g).propagate g).lookaheads =
      Table.ofAutomaton g defaultReductions (Automaton.build g)
        ((Automaton.build g).propagate g).lookaheads := by
  have accepting : (Automaton.build g).accepting? g' = (Automaton.build g).accepting? g := by
    rw [Automaton.accepting?, Automaton.accepting?, larger.start]
  have filled : ∀ entry ∈ (Automaton.build g).states.toList.zipIdx,
      Table.fillRow g' defaultReductions ((Automaton.build g).accepting? g == some entry.2)
          ((Automaton.build g).propagate g).lookaheads entry.2 entry.1 =
        Table.fillRow g defaultReductions ((Automaton.build g).accepting? g == some entry.2)
          ((Automaton.build g).propagate g).lookaheads entry.2 entry.1 := by
    rintro ⟨state, id⟩ member
    rw [Automaton.mem_zipIdx_states] at member
    exact larger.fillRow_eq wellFormed _ _ member
  rw [Table.ofAutomaton, Table.ofAutomaton, accepting]
  simp only [List.map_congr_left filled]

end Table

/-! ## The whole output -/

section Output

variable (larger : g.Extends g') (defined : g.IsDefined) (defined' : g'.IsDefined)
  (defaultReductions : Bool)

include larger defined defined'

theorem output_eq :
    (g'.generate defaultReductions).automaton = (g.generate defaultReductions).automaton ∧
      (g'.generate defaultReductions).propagation = (g.generate defaultReductions).propagation ∧
      (g'.generate defaultReductions).table = (g.generate defaultReductions).table := by
  have canonical := Automaton.canonical_build defined.wellFormed
  have old : ∀ state ∈ (Automaton.build g).states.toList, ∀ core ∈ state.cores, core.IsOf g := by
    intro state inStates core member
    obtain ⟨id, found⟩ := Automaton.mem_states.1 inStates
    exact canonical.isOf_of_hasCore defined.wellFormed ⟨state, found, member⟩
  have built := larger.build_eq defined defined'
  have spread := larger.propagate_eq defined.wellFormed defined'.wellFormed canonical old
  refine ⟨built, ?_, ?_⟩
  · simp only [generate, built, spread]
  · simp only [generate, built, spread, larger.table_eq defined.wellFormed]

/-- No item of a further production ever comes up. -/
theorem dead_of_le {p : ProductionId} (further : g.productions.size ≤ p)
    (inside : p < g'.productions.size) :
    .deadProduction p ∈ (g'.generate defaultReductions).diagnostics := by
  have wellFormed' := defined'.wellFormed
  have canonical := Automaton.canonical_build defined.wellFormed
  rw [Diagnostic.deadProduction_mem_iff wellFormed']
  refine ⟨inside, ?_, ?_⟩
  · rintro rfl
    have first := (Array.getElem?_eq_some_iff.1 defined.wellFormed.augmented).1
    exact absurd further (Nat.not_le.2 first)
  · rintro ⟨id, t, before, after, path, valid, _⟩
    have has := (Automaton.canonical_build wellFormed').hasCore_of_valid wellFormed' valid path
    rw [larger.build_eq defined defined'] at has
    have old := (canonical.isOf_of_hasCore defined.wellFormed has).lt_size
    exact absurd further (Nat.not_le.2 old)

end Output

end Grammar.Extends

/-- Self-contained calls after those that define a grammar change nothing in the parser that is
generated, and all their productions are reported as dead. -/
theorem unreachable_extension_is_inert {calls further : List Call} {g g' : Grammar}
    (defined : Grammar.define calls = .ok g)
    (defined' : Grammar.define (calls ++ further) = .ok g')
    (apart : (Call.contents further).SelfContained) (defaultReductions : Bool) :
    (g'.generate defaultReductions).automaton = (g.generate defaultReductions).automaton ∧
      (g'.generate defaultReductions).propagation = (g.generate defaultReductions).propagation ∧
      (g'.generate defaultReductions).table = (g.generate defaultReductions).table ∧
      g'.productions.size = g.productions.size + (Call.contents further).rules.length ∧
      ∀ p, g.productions.size ≤ p → p < g'.productions.size →
        .deadProduction p ∈ (g'.generate defaultReductions).diagnostics := by
  obtain ⟨larger, size⟩ := Grammar.extends_of_define defined defined' apart
  have old := Grammar.isDefined_of_define defined
  have new := Grammar.isDefined_of_define defined'
  obtain ⟨automaton, propagation, table⟩ := larger.output_eq old new defaultReductions
  exact ⟨automaton, propagation, table, size,
    fun _ further inside => larger.dead_of_le old new defaultReductions further inside⟩

/-- Sums, as `Grammar.sumCalls` define them. -/
def Grammar.sums : Grammar where
  terminals := #[⟨"$end", none, none⟩, ⟨"+", some ⟨0, .left⟩, none⟩, ⟨"a", none, none⟩]
  nonterminals := #[⟨"$start", none⟩, ⟨"E", some "i64"⟩]
  productions := #[
    ⟨startNonterminal, #[.nonterminal 1, .terminal endTerminal], none⟩,
    ⟨1, #[.nonterminal 1, .terminal 1, .nonterminal 1], none⟩,
    ⟨1, #[.terminal 2], none⟩]
  start := 1
  groups := #[[acceptProduction], [1, 2]]

/-- Lists of sums, to which nothing leads from the start symbol. -/
def Grammar.listCalls : List Call := [
  .terminal ",", .nonterminal "L", .precedence .right [","], .valueType "L" "Vec<i64>",
  .rule "L" ["E"] none, .rule "L" ["L", ",", "E"] none]

def Grammar.sumsAndLists : Grammar where
  terminals := #[⟨"$end", none, none⟩, ⟨"+", some ⟨0, .left⟩, none⟩, ⟨"a", none, none⟩,
    ⟨",", some ⟨1, .right⟩, none⟩]
  nonterminals := #[⟨"$start", none⟩, ⟨"E", some "i64"⟩, ⟨"L", some "Vec<i64>"⟩]
  productions := #[
    ⟨startNonterminal, #[.nonterminal 1, .terminal endTerminal], none⟩,
    ⟨1, #[.nonterminal 1, .terminal 1, .nonterminal 1], none⟩,
    ⟨1, #[.terminal 2], none⟩,
    ⟨2, #[.nonterminal 1], none⟩,
    ⟨2, #[.nonterminal 2, .terminal 3, .nonterminal 1], none⟩]
  start := 1
  groups := #[[acceptProduction], [1, 2], [3, 4]]

theorem unreachable_extension_is_inert_lists :
    (Grammar.define Grammar.sumCalls = .ok Grammar.sums ∧
      Grammar.define (Grammar.sumCalls ++ Grammar.listCalls) = .ok Grammar.sumsAndLists ∧
      (Call.contents Grammar.listCalls).SelfContained) ∧
    (Grammar.sumsAndLists.generate false).automaton = (Grammar.sums.generate false).automaton ∧
      (Grammar.sumsAndLists.generate false).propagation =
        (Grammar.sums.generate false).propagation ∧
      (Grammar.sumsAndLists.generate false).table = (Grammar.sums.generate false).table ∧
      Grammar.sumsAndLists.productions.size =
        Grammar.sums.productions.size + (Call.contents Grammar.listCalls).rules.length ∧
      ∀ p, Grammar.sums.productions.size ≤ p → p < Grammar.sumsAndLists.productions.size →
        .deadProduction p ∈ (Grammar.sumsAndLists.generate false).diagnostics := by
  have defined : Grammar.define Grammar.sumCalls = .ok Grammar.sums := by decide +kernel
  have defined' : Grammar.define (Grammar.sumCalls ++ Grammar.listCalls) =
      .ok Grammar.sumsAndLists := by decide +kernel
  have apart : (Call.contents Grammar.listCalls).SelfContained := by
    constructor <;> decide
  exact ⟨⟨defined, defined', apart⟩, unreachable_extension_is_inert defined defined' apart false⟩

end Lalr
