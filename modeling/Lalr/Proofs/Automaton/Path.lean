import Lalr.Proofs.Automaton.Canonical

/-!
# Paths through an automaton

A string of symbols spells at most one path from a state.  The facts about single steps below are
all that later proofs use of the canonical collection: which cores a step leads to, where they come
from, and that a step exists for every symbol after a dot, except for `$end`.
-/

namespace Lalr

namespace Automaton

variable {g : Grammar} {automaton : Automaton}

/-- The state that a symbol leads to. -/
def step? (automaton : Automaton) (source : StateId) (symbol : Symbol) : Option StateId :=
  automaton.states[source]?.bind (·.transition? symbol)

/-- The state that a string of symbols leads to. -/
def follow? (automaton : Automaton) : StateId → List Symbol → Option StateId
  | source, [] => some source
  | source, symbol :: rest => (automaton.step? source symbol).bind (automaton.follow? · rest)

/-- The core is one of the state. -/
def HasCore (automaton : Automaton) (id : StateId) (core : Core) : Prop :=
  ∃ state, automaton.states[id]? = some state ∧ core ∈ state.cores

theorem HasCore.lt_size {id : StateId} {core : Core} (has : automaton.HasCore id core) :
    id < automaton.states.size := by
  obtain ⟨state, found, _⟩ := has
  exact (Array.getElem?_eq_some_iff.1 found).1

theorem follow?_nil {source : StateId} : automaton.follow? source [] = some source := rfl

theorem follow?_append (source : StateId) (front back : List Symbol) :
    automaton.follow? source (front ++ back) =
      (automaton.follow? source front).bind (automaton.follow? · back) := by
  induction front generalizing source with
  | nil => rfl
  | cons symbol rest ih =>
      simp only [List.cons_append, follow?]
      cases automaton.step? source symbol with
      | none => rfl
      | some target => exact ih target

theorem follow?_concat {source target : StateId} {front : List Symbol} {symbol : Symbol} :
    automaton.follow? source (front ++ [symbol]) = some target ↔
      ∃ middle, automaton.follow? source front = some middle ∧
        automaton.step? middle symbol = some target := by
  rw [follow?_append, Option.bind_eq_some_iff]
  simp [follow?]

theorem mem_outgoing {cores : List Core} {symbol : Symbol} :
    symbol ∈ Builder.outgoing (g.moves cores) ↔
      symbol ≠ .terminal endTerminal ∧ ∃ core ∈ cores, core.next g = some symbol := by
  simp only [Builder.outgoing, List.mem_eraseDups, List.mem_filter, List.mem_map, Prod.exists,
    exists_and_right, exists_eq_right, decide_eq_true_eq, mem_moves]
  rw [and_comm]
  refine and_congr_right' ?_
  constructor
  · rintro ⟨_, core, member, next, _⟩
    exact ⟨core, member, next⟩
  · rintro ⟨core, member, next⟩
    exact ⟨_, core, member, next, rfl⟩

/-- A state has a transition on what its cores can move across. -/
theorem exists_transition_iff {cores : List Core} {transitions : List (Symbol × StateId)}
    (symbols : transitions.map (·.1) = Builder.outgoing (g.moves cores)) (symbol : Symbol) :
    (∃ target, (symbol, target) ∈ transitions) ↔
      symbol ≠ .terminal endTerminal ∧ ∃ core ∈ cores, core.next g = some symbol := by
  rw [← mem_outgoing, ← symbols, List.mem_map]
  constructor
  · rintro ⟨target, member⟩
    exact ⟨_, member, rfl⟩
  · rintro ⟨⟨_, target⟩, member, rfl⟩
    exact ⟨target, member⟩

namespace Canonical

theorem of_step (canonical : automaton.Canonical g) {source target : StateId} {symbol : Symbol}
    (stepped : automaton.step? source symbol = some target) :
    ∃ state reached, automaton.states[source]? = some state ∧
      automaton.states[target]? = some reached ∧
      reached.kernel = g.goto state.cores symbol ∧
      symbol ∈ Builder.outgoing (g.moves state.cores) := by
  obtain ⟨state, found, led⟩ := Option.bind_eq_some_iff.1 stepped
  have member : (symbol, target) ∈ state.transitions := mem_of_lookup led
  obtain ⟨reached, known, kernelEq⟩ := canonical.targets found symbol target member
  refine ⟨state, reached, found, known, kernelEq, ?_⟩
  rw [← canonical.symbols found]
  exact List.mem_map.2 ⟨_, member, rfl⟩

/-- All cores of an automaton are cores over the grammar. -/
theorem isOf_of_hasCore (canonical : automaton.Canonical g) (wellFormed : g.WellFormed)
    {id : StateId} {core : Core} (has : automaton.HasCore id core) : core.IsOf g := by
  obtain ⟨state, found, member⟩ := has
  rw [canonical.cores found] at member
  exact Grammar.closure_induction (canonical.isKernel found).cores
    (fun _ _ _ _ _ opened => Grammar.isOf_opening wellFormed opened) core member

theorem hasCore_initial (canonical : automaton.Canonical g) :
    automaton.HasCore initialState ⟨acceptProduction, 0⟩ := by
  obtain ⟨state, found, kernelEq⟩ := canonical.initial
  refine ⟨state, found, ?_⟩
  simp [State.cores, kernelEq]

theorem hasCore_opening (canonical : automaton.Canonical g) (wellFormed : g.WellFormed)
    {id : StateId} {core : Core} {n : NonterminalId} {p : ProductionId}
    (has : automaton.HasCore id core) (follows : core.nextNonterminal g = some n)
    (alternative : p ∈ g.alternatives n) : automaton.HasCore id ⟨p, 0⟩ := by
  obtain ⟨state, found, member⟩ := has
  refine ⟨state, found, ?_⟩
  rw [canonical.cores found] at member ⊢
  exact Grammar.closure_saturated wellFormed member follows
    (Grammar.mem_openings.2 ⟨rfl, alternative⟩)

/-- A dot can be moved across every symbol but `$end`. -/
theorem hasCore_advance (canonical : automaton.Canonical g) {id : StateId} {core : Core}
    {symbol : Symbol} (has : automaton.HasCore id core) (next : core.next g = some symbol)
    (inner : symbol ≠ .terminal endTerminal) :
    ∃ target, automaton.step? id symbol = some target ∧
      automaton.HasCore target core.advance := by
  obtain ⟨state, found, member⟩ := has
  have leads : symbol ∈ state.transitions.map (·.1) := by
    rw [canonical.symbols found, mem_outgoing]
    exact ⟨inner, core, member, next⟩
  obtain ⟨target, led⟩ : ∃ target, state.transitions.lookup symbol = some target := by
    cases missing : state.transitions.lookup symbol with
    | some target => exact ⟨target, rfl⟩
    | none =>
        obtain ⟨entry, known, same⟩ := List.mem_map.1 leads
        have absent := List.lookup_eq_none_iff.1 missing entry known
        simp [same] at absent
  have stepped : automaton.step? id symbol = some target :=
    Option.bind_eq_some_iff.2 ⟨state, found, led⟩
  obtain ⟨again, reached, found', known, kernelEq, _⟩ := canonical.of_step stepped
  rw [found] at found'
  cases found'
  refine ⟨target, stepped, reached, known, ?_⟩
  rw [State.cores, kernelEq]
  exact List.mem_append_left _ (mem_goto.2 ⟨core, member, next, rfl⟩)

theorem exists_next_of_step (canonical : automaton.Canonical g) {source target : StateId}
    {symbol : Symbol} (stepped : automaton.step? source symbol = some target) :
    symbol ≠ .terminal endTerminal ∧
      ∃ core, automaton.HasCore source core ∧ core.next g = some symbol := by
  obtain ⟨state, reached, found, _, _, leads⟩ := canonical.of_step stepped
  obtain ⟨inner, core, member, next⟩ := mem_outgoing.1 leads
  exact ⟨inner, core, ⟨state, found, member⟩, next⟩

/-- A property that openings inherit holds in the initial state if it holds of the core that a
parse starts from. -/
theorem initial_induction (canonical : automaton.Canonical g) {keep : Core → Prop}
    (start : keep ⟨acceptProduction, 0⟩)
    (inherit : ∀ core n p, keep core → core.nextNonterminal g = some n →
      p ∈ g.alternatives n → keep ⟨p, 0⟩)
    {core : Core} (has : automaton.HasCore initialState core) : keep core := by
  obtain ⟨state, found, kernelEq⟩ := canonical.initial
  obtain ⟨again, found', member⟩ := has
  rw [found] at found'
  cases found'
  rw [canonical.cores found, kernelEq] at member
  refine Grammar.closure_induction ?_ ?_ core member
  · intro kernelCore inKernel
    rw [List.mem_singleton.1 inKernel]
    exact start
  · rintro outer n kept follows ⟨p, dot⟩ opened
    obtain ⟨rfl, alternative⟩ := Grammar.mem_openings.1 opened
    exact inherit outer n p kept follows alternative

/-- A property that openings inherit holds in the target of a step if it holds of the cores whose
dot the step has moved. -/
theorem step_induction (canonical : automaton.Canonical g) {keep : Core → Prop}
    {source target : StateId} {symbol : Symbol}
    (stepped : automaton.step? source symbol = some target)
    (moved : ∀ core, automaton.HasCore source core → core.next g = some symbol →
      keep core.advance)
    (inherit : ∀ core n p, keep core → core.nextNonterminal g = some n →
      p ∈ g.alternatives n → keep ⟨p, 0⟩)
    {core : Core} (has : automaton.HasCore target core) : keep core := by
  obtain ⟨state, reached, found, known, kernelEq, _⟩ := canonical.of_step stepped
  obtain ⟨again, known', member⟩ := has
  rw [known] at known'
  cases known'
  rw [canonical.cores known, kernelEq] at member
  refine Grammar.closure_induction ?_ ?_ core member
  · intro kernelCore inKernel
    obtain ⟨outer, inSource, next, rfl⟩ := mem_goto.1 inKernel
    exact moved outer ⟨state, found, inSource⟩ next
  · rintro outer n kept follows ⟨p, dot⟩ opened
    obtain ⟨rfl, alternative⟩ := Grammar.mem_openings.1 opened
    exact inherit outer n p kept follows alternative

theorem step_of_mem (canonical : automaton.Canonical g) {source target : StateId}
    {state : State} {symbol : Symbol} (found : automaton.states[source]? = some state)
    (member : (symbol, target) ∈ state.transitions) :
    automaton.step? source symbol = some target := by
  have once : (state.transitions.map (·.1)).Nodup := by
    rw [canonical.symbols found]
    exact nodup_eraseDups _
  exact Option.bind_eq_some_iff.2 ⟨state, found, lookup_of_mem once member⟩

/-- Transitions are on symbols of the grammar. -/
theorem numbers_of_transition (canonical : automaton.Canonical g) (wellFormed : g.WellFormed)
    {id target : StateId} {state : State} {symbol : Symbol}
    (found : automaton.states[id]? = some state) (member : (symbol, target) ∈ state.transitions) :
    g.Numbers symbol := by
  obtain ⟨_, core, _, next⟩ := canonical.exists_next_of_step (canonical.step_of_mem found member)
  obtain ⟨production, listed, here⟩ := Core.next_eq_some.1 next
  exact wellFormed.numbers listed (List.mem_of_getElem? here)

theorem exists_path (canonical : automaton.Canonical g) {id : StateId}
    (inside : id < automaton.states.size) :
    ∃ symbols, automaton.follow? initialState symbols = some id := by
  induction id using Nat.strong_induction_on with
  | _ id ih =>
      by_cases first : id = initialState
      · exact ⟨[], by rw [first]; rfl⟩
      · obtain ⟨source, less, state, found, symbol, member⟩ := canonical.reached id inside first
        obtain ⟨symbols, path⟩ := ih source less (Array.getElem?_eq_some_iff.1 found).1
        exact ⟨symbols ++ [symbol],
          follow?_concat.2 ⟨source, path, canonical.step_of_mem found member⟩⟩

end Canonical

end Automaton

end Lalr
