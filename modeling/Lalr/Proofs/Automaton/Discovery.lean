import Lalr.Proofs.Automaton.Items
import Lalr.Proofs.Automaton.ViablePrefix
import Lalr.Proofs.Automaton.Worklist
import Lalr.Proofs.Grammar.Lawful

/-!
# The order of discovery

States are numbered in the order in which the construction comes upon them: those that a state leads
to before those that a later state leads to, and for one state in the order of its transitions.  So
the targets of all transitions, read state after state and with each number kept where it stands
first, are the numbers in their order.

This is added to what is known of the canonical collection, and gives a full account of the automaton
of a grammar, of its numbers as well as of its states.  A number is given out when a kernel is
interned, to be kept in a transition; whenever this happens, the number is that of the place at which
the finished automaton has the state with this kernel.
-/

namespace Lalr

variable {g : Grammar}

/-- The states that transitions lead to, in the order of the transitions. -/
def State.targets (state : State) : List StateId := state.transitions.map (·.2)

/-- The targets of all transitions, one state after the other. -/
def State.allTargets (states : List State) : List StateId := states.flatMap State.targets

theorem eraseDups_concat_mem {values : List Nat} {value : Nat} (known : value ∈ values) :
    (values ++ [value]).eraseDups = values.eraseDups := by
  rw [List.eraseDups_append]
  simp [List.removeAll, known]

theorem eraseDups_concat_new {values : List Nat} {value : Nat} (new : value ∉ values) :
    (values ++ [value]).eraseDups = values.eraseDups ++ [value] := by
  rw [List.eraseDups_append]
  simp [List.removeAll, new, List.eraseDups_cons]

/-- States without transitions have no targets. -/
theorem State.allTargets_take {states : List State} {count : Nat}
    (quiet : ∀ {place : Nat} {state : State}, states[place]? = some state → count ≤ place →
      state.transitions = []) : State.allTargets (states.take count) = State.allTargets states := by
  have rest : State.allTargets (states.drop count) = [] := by
    rw [State.allTargets, List.flatMap_eq_nil_iff]
    intro state member
    obtain ⟨place, here⟩ := List.mem_iff_getElem?.1 member
    rw [List.getElem?_drop] at here
    rw [State.targets, quiet here (Nat.le_add_right count place)]
    rfl
  calc
    State.allTargets (states.take count) =
        State.allTargets (states.take count) ++ State.allTargets (states.drop count) := by
      rw [rest, List.append_nil]
    _ = State.allTargets (states.take count ++ states.drop count) :=
      List.flatMap_append.symm
    _ = State.allTargets states := by rw [List.take_append_drop]

namespace Builder

variable {popped : Nat} {builder : Builder}

/-- The states are numbered in the order in which they have come up, the initial one first. -/
def Discovered (builder : Builder) : Prop :=
  (initialState :: State.allTargets builder.states.toList).eraseDups =
    List.range builder.states.size

/-- A kernel belongs to a known state, or to the next one. -/
theorem Sound.intern_cases (sound : Sound g popped builder) {kernel : List Core} {id : StateId}
    {after : Builder} (interned : builder.intern g kernel = (id, after)) :
    (id < builder.states.size ∧ after.states.size = builder.states.size) ∨
      (id = builder.states.size ∧ after.states.size = builder.states.size + 1) := by
  cases known : builder.kernels[kernel]? with
  | some found =>
      rw [intern_of_some known] at interned
      cases interned
      obtain ⟨state, here, _⟩ := sound.kernels.1 known
      exact .inl ⟨(Array.getElem?_eq_some_iff.1 here).1, rfl⟩
  | none =>
      rw [intern_of_none known] at interned
      cases interned
      exact .inr ⟨rfl, Array.size_push _⟩

/-- Targets are numbered as they come up. -/
theorem Sound.internAll_discovered (sound : Sound g popped builder) {cores : List Core}
    {symbols : List Symbol} {transitions : List (Symbol × StateId)} {after : Builder}
    (interned : builder.internAll g (g.moves cores) symbols = (transitions, after))
    {before : List StateId} (discovered : before.eraseDups = List.range builder.states.size) :
    (before ++ transitions.map (·.2)).eraseDups = List.range after.states.size := by
  induction symbols generalizing builder transitions before with
  | nil =>
      cases interned
      simpa using discovered
  | cons symbol rest ih =>
      cases first : builder.intern g (movesAcross (g.moves cores) symbol) with
      | mk target middle =>
          cases others : middle.internAll g (g.moves cores) rest with
          | mk later final =>
              simp only [Builder.internAll, first, others, Prod.mk.injEq] at interned
              obtain ⟨rfl, rfl⟩ := interned
              have member : target ∈ before ↔ target < builder.states.size := by
                rw [← List.mem_eraseDups, discovered, List.mem_range]
              have middleSound := (sound.intern (g.isKernel_goto cores symbol) first).1
              have next : (before ++ [target]).eraseDups = List.range middle.states.size := by
                rcases sound.intern_cases first with ⟨known, size⟩ | ⟨new, size⟩
                · rw [eraseDups_concat_mem (member.2 known), discovered, size]
                · have absent : target ∉ before := by
                    rw [member, new]
                    exact Nat.lt_irrefl _
                  rw [eraseDups_concat_new absent, discovered, size, List.range_succ, new]
              have whole := ih middleSound others next
              rwa [List.append_assoc] at whole

/-- Expanding a state appends its targets, and keeps the order of discovery. -/
theorem Invariant.expand_discovered (invariant : Invariant g popped builder)
    (discovered : Discovered builder) {id : StateId} {queue : WorkQueue StateId}
    (taken : builder.queue.pop = some (id, queue)) :
    Discovered (Builder.expand g id { builder with queue }) := by
  have expanded := invariant.expand taken
  obtain ⟨rfl, state, transitions, after, turn, expandEq⟩ := invariant.toSound.exists_turn taken
  rw [expandEq] at expanded ⊢
  have popped : (after.writing id transitions).states.toList[id]? =
      some (withTransitions transitions state) := by
    rw [Array.getElem?_toList]
    exact getElem?_writing_self (turn.extended.old turn.here)
  -- Before the popped state nothing has changed, and behind it nothing has transitions.
  have front : (after.writing id transitions).states.toList.take id =
      builder.states.toList.take id := by
    apply List.ext_getElem?
    intro place
    by_cases early : place < id
    · rw [List.getElem?_take_of_lt early, List.getElem?_take_of_lt early, Array.getElem?_toList,
        Array.getElem?_toList, getElem?_writing_of_ne (Nat.ne_of_lt early),
        turn.extended.getElem? (early.trans turn.inside)]
    · simp [early]
  have targets : State.allTargets (after.writing id transitions).states.toList =
      State.allTargets builder.states.toList ++ transitions.map (·.2) := by
    rw [← @State.allTargets_take _ (id + 1), List.take_add_one, popped, front, State.allTargets,
      List.flatMap_append]
    · congr 1
      · apply State.allTargets_take
        intro place other found late
        rw [Array.getElem?_toList] at found
        exact invariant.waiting found late
      · simp [State.targets, withTransitions]
    · intro place other found late
      rw [Array.getElem?_toList] at found
      exact expanded.waiting found late
  rw [Discovered, targets, size_writing]
  exact turn.before.internAll_discovered turn.interned discovered

/-! ## The numbers that are given out -/

/-- The construction interns the kernel in the builder: the kernel of the first state at the start,
and when a popped state is expanded the kernels that its moves lead to, one after the other. -/
inductive Interns (g : Grammar) : Builder → List Core → Prop
  | first : Interns g empty [⟨acceptProduction, 0⟩]
  | move {popped : List StateId} {builder middle : Builder} {id : StateId}
      {queue : WorkQueue StateId} {state : State} {symbol : Symbol} {earlier later : List Symbol}
      {transitions : List (Symbol × StateId)} (before : AfterPops g popped builder)
      (taken : builder.queue.pop = some (id, queue)) (here : builder.states[id]? = some state)
      (symbols : outgoing (g.moves state.cores) = earlier ++ symbol :: later)
      (interned : ({ builder with queue } : Builder).internAll g (g.moves state.cores) earlier =
        (transitions, middle)) :
      Interns g middle (movesAcross (g.moves state.cores) symbol)

theorem internAll_append (moves : List (Symbol × Core)) (first second : List Symbol) :
    builder.internAll g moves (first ++ second) =
      ((builder.internAll g moves first).1 ++
          ((builder.internAll g moves first).2.internAll g moves second).1,
        ((builder.internAll g moves first).2.internAll g moves second).2) := by
  induction first generalizing builder with
  | nil => rfl
  | cons symbol rest ih => simp only [List.cons_append, internAll, ih]

/-- A kernel that is interned while a state is expanded is known when the next state is popped. -/
theorem Turn.kernel_interned {state : State} {transitions found : List (Symbol × StateId)}
    {after middle : Builder} (turn : Turn g popped builder state transitions after)
    {symbol : Symbol} {earlier later : List Symbol}
    (symbols : outgoing (g.moves state.cores) = earlier ++ symbol :: later)
    (interned : builder.internAll g (g.moves state.cores) earlier = (found, middle)) :
    ∃ reached, (after.writing popped transitions).states[(middle.intern g
        (movesAcross (g.moves state.cores) symbol)).1]? = some reached ∧
      reached.kernel = movesAcross (g.moves state.cores) symbol := by
  obtain ⟨middleSound, _⟩ := turn.before.internAll interned
  cases answer : middle.intern g (movesAcross (g.moves state.cores) symbol) with
  | mk target next =>
      cases others : next.internAll g (g.moves state.cores) later with
      | mk rest final =>
          have whole := turn.interned
          simp only [symbols, internAll_append, interned, internAll, answer, others,
            Prod.mk.injEq] at whole
          obtain ⟨_, rfl⟩ := whole
          obtain ⟨nextSound, _, known, _⟩ :=
            middleSound.intern (g.isKernel_goto state.cores symbol) answer
          obtain ⟨_, extended, _⟩ := nextSound.internAll others
          exact Turn.exists_reached extended known

/-- Whenever the construction interns a kernel, the number is that of the state that has this kernel
in the end. -/
theorem Interns.kernel_build (wellFormed : g.WellFormed) {kernel : List Core}
    (interns : Interns g builder kernel) :
    ∃ state, (Automaton.build g).states[(builder.intern g kernel).1]? = some state ∧
      state.kernel = kernel := by
  cases interns with
  | first =>
      have unknown : empty.kernels[[(⟨acceptProduction, 0⟩ : Core)]]? = none := by simp [empty]
      rw [intern_of_none unknown]
      exact (Automaton.canonical_build wellFormed).initial
  | move before taken here symbols interned =>
      obtain ⟨_, invariant⟩ := before.invariant wellFormed
      obtain ⟨rfl, state, transitions, after, turn, expandEq⟩ := invariant.toSound.exists_turn taken
      have same := here.symm.trans turn.here
      cases same
      have known := turn.kernel_interned symbols interned
      rw [← expandEq] at known
      exact (before.turn taken).kernel_build wellFormed known

theorem discovered_start (g : Grammar) : Discovered (start g) := by
  have unknown : empty.kernels[[(⟨acceptProduction, 0⟩ : Core)]]? = none := by simp [empty]
  rw [start, intern_of_none unknown]
  simp [Discovered, adding, empty, State.allTargets, State.targets, stateFor, initialState,
    List.eraseDups_cons]

end Builder

namespace Automaton

/-- The automaton has a state for every set of cores that moves from the initial core lead to, and
numbers its states and their items in the order in which they come up.  Whatever number is given out
for a kernel while it is built is that of the state with this kernel. -/
structure CanonicallyNumbered (g : Grammar) (automaton : Automaton) : Prop where
  ascending : ∀ {id : StateId} {state : State}, automaton.states[id]? = some state →
    state.kernel.Pairwise fun core later => core.production < later.production ∨
      core.production = later.production ∧ core.dot < later.dot
  kernels : ∀ {id other : StateId} {state state' : State}, automaton.states[id]? = some state →
    automaton.states[other]? = some state' → state.kernel = state'.kernel → id = other
  cores : ∀ {id : StateId} {state : State}, automaton.states[id]? = some state →
    state.cores = g.closure state.kernel ∧ state.cores.Nodup
  items : automaton.states.toList.flatMap (fun state => state.items.map (·.2)) =
    List.range automaton.itemCount
  moves : ∀ {id : StateId} {state : State}, automaton.states[id]? = some state →
    ∀ symbol, (∃ target, (symbol, target) ∈ state.transitions) ↔
      symbol ≠ .terminal endTerminal ∧ ∃ core ∈ state.cores, core.next g = some symbol
  targets : ∀ {id : StateId} {state : State}, automaton.states[id]? = some state →
    ∀ symbol target, (symbol, target) ∈ state.transitions → target ≠ initialState ∧
      ∃ reached, automaton.states[target]? = some reached ∧
        reached.kernel = g.goto state.cores symbol
  initial : ∃ state, automaton.states[initialState]? = some state ∧
    state.kernel = [⟨acceptProduction, 0⟩]
  reachable : ∀ id < automaton.states.size,
    ∃ symbols, automaton.follow? initialState symbols = some id
  accepting : ∃ id, automaton.accepting? g = some id ∧
    ∀ other, automaton.HasCore other ⟨acceptProduction, 1⟩ ↔ other = id
  symbols : ∀ {id : StateId} {state : State}, automaton.states[id]? = some state →
    state.transitions.map (·.1) =
      ((state.cores.filterMap (Core.next g)).filter (· ≠ .terminal endTerminal)).eraseDups
  discovered : (initialState :: State.allTargets automaton.states.toList).eraseDups =
    List.range automaton.states.size
  interned : ∀ {builder : Builder} {kernel : List Core}, Builder.Interns g builder kernel →
    ∃ state, automaton.states[(builder.intern g kernel).1]? = some state ∧ state.kernel = kernel

namespace Canonical

variable {automaton : Automaton}

theorem nodup_cores (canonical : automaton.Canonical g) (wellFormed : g.WellFormed)
    (lawful : g.Lawful) {id : StateId} {state : State}
    (found : automaton.states[id]? = some state) : state.cores.Nodup := by
  have once : ∀ n, (g.alternatives n).Nodup := by
    intro n
    rw [lawful.alternatives]
    exact (List.nodup_range).filter _
  have added : state.added = g.expansion g.nonterminals.size ∅ state.kernel := by
    have whole := canonical.cores found
    rwa [State.cores, Grammar.closure, List.append_cancel_left_eq] at whole
  rw [State.cores, List.nodup_append]
  refine ⟨(canonical.isKernel found).nodup, ?_, ?_⟩
  · rw [added]
    exact Grammar.nodup_expansion wellFormed once _ _ _
  · intro core inKernel other inAdded same
    subst same
    obtain ⟨front, inner⟩ := canonical.of_mem_added wellFormed found inAdded
    rcases canonical.of_mem_kernel found inKernel with moved | accept
    · exact moved front
    · exact inner accept

theorem target_ne_initial (canonical : automaton.Canonical g) {id target : StateId} {state : State}
    {symbol : Symbol} (found : automaton.states[id]? = some state)
    (member : (symbol, target) ∈ state.transitions) : target ≠ initialState := by
  intro first
  obtain ⟨reached, known, kernelEq⟩ := canonical.targets found symbol target member
  obtain ⟨start, known', startEq⟩ := canonical.initial
  rw [first, known'] at known
  cases known
  have moved : (⟨acceptProduction, 0⟩ : Core) ∈ g.goto state.cores symbol := by
    rw [← kernelEq, startEq]
    exact List.mem_singleton.2 rfl
  obtain ⟨core, _, _, same⟩ := mem_goto.1 moved
  exact Nat.succ_ne_zero core.dot (congrArg Core.dot same).symm

theorem exists_accepting (canonical : automaton.Canonical g) (wellFormed : g.WellFormed) :
    ∃ id, automaton.accepting? g = some id ∧
      ∀ other, automaton.HasCore other ⟨acceptProduction, 1⟩ ↔ other = id := by
  have next : Core.next g ⟨acceptProduction, 0⟩ = some (.nonterminal g.start) :=
    Core.next_eq_some.2 ⟨_, wellFormed.augmented, rfl⟩
  have ending : Core.next g ⟨acceptProduction, 1⟩ = some (.terminal endTerminal) :=
    Core.next_eq_some.2 ⟨_, wellFormed.augmented, rfl⟩
  obtain ⟨id, stepped, has⟩ := canonical.hasCore_advance canonical.hasCore_initial next (by simp)
  have accepting : automaton.accepting? g = some id := stepped
  refine ⟨id, accepting, ?_⟩
  intro other
  constructor
  · intro has
    obtain ⟨symbols, path⟩ := canonical.exists_path has.lt_size
    obtain ⟨after, valid⟩ := canonical.valid_of_hasCore path has
    have same := accepting_of_next wellFormed path valid ending
    rw [accepting] at same
    exact (Option.some.inj same).symm
  · rintro rfl
    exact has

end Canonical

theorem map_fst_moves (cores : List Core) :
    (g.moves cores).map (·.1) = cores.filterMap (Core.next g) := by
  rw [Grammar.moves, List.map_filterMap]
  congr 1
  funext core
  rw [Option.map_map]
  exact Option.map_id'

/-- The automaton of a grammar is its canonical collection, numbered in the order of discovery. -/
theorem built_canonically_numbered (defined : g.IsDefined) :
    (build g).CanonicallyNumbered g := by
  have wellFormed := defined.wellFormed
  have canonical := canonical_build wellFormed
  obtain ⟨builder, states, _, discovered⟩ := Builder.build_induction wellFormed
    (Builder.discovered_start g) fun held kept taken => held.expand_discovered kept taken
  have symbols : ∀ {id : StateId} {state : State}, (build g).states[id]? = some state →
      state.transitions.map (·.1) =
        ((state.cores.filterMap (Core.next g)).filter (· ≠ .terminal endTerminal)).eraseDups := by
    intro id state found
    rw [canonical.symbols found, Builder.outgoing, map_fst_moves]
  exact {
    ascending := fun found => (canonical.isKernel found).ascending.imp Core.lt_iff.1
    kernels := canonical.kernels
    cores := fun found =>
      ⟨canonical.cores found, canonical.nodup_cores wellFormed defined.lawful found⟩
    items := canonical.numbers_eq_range
    moves := fun found => exists_transition_iff (canonical.symbols found)
    targets := fun found symbol target member =>
      ⟨canonical.target_ne_initial found member, canonical.targets found symbol target member⟩
    initial := canonical.initial
    reachable := fun id inside => canonical.exists_path inside
    accepting := canonical.exists_accepting wellFormed
    symbols
    discovered := by rwa [states]
    interned := fun interns => interns.kernel_build wellFormed }

/-- The brackets have five states.  A second open bracket leads back to the state of the first. -/
theorem built_canonically_numbered_brackets :
    State.allTargets (build .brackets).states.toList = [1, 2, 3, 2, 4] ∧
      (initialState :: [1, 2, 3, 2, 4]).eraseDups = List.range (build .brackets).states.size := by
  have targets : State.allTargets (build .brackets).states.toList = [1, 2, 3, 2, 4] := by
    decide +kernel
  have numbered := built_canonically_numbered Grammar.isDefined_brackets
  exact ⟨targets, targets ▸ numbered.discovered⟩

end Automaton

end Lalr
