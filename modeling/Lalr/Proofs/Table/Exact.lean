import Lalr.Proofs.Table.Conflicts
import Mathlib.Data.List.Sort

/-!
# What a table holds

For every state and terminal the automaton determines what could be done there: the terminal may be
shifted, the input accepted, and productions reduced.  A table has an action of its own exactly where
something can be done, and the action follows from the rules of precedence alone.

The rules are given here as relations, without reference to how a table is filled.  Where reductions
compete, the production with the least number stands for all of them; a shift against it is decided
by their precedences.  The list of conflicts holds one record for each of these two choices, and no
others.

The rest of a row is known as well.  Its gotos are the transitions by nonterminals, and with default
reductions it has one if a single production is all that its actions reduce.
-/

namespace Lalr

namespace Grammar

variable (g : Grammar)

/-- The precedence of a production is the one that it borrows, or else that of the last terminal of
its right-hand side. -/
inductive ProductionBinds (p : ProductionId) : Precedence → Prop
  | borrowed {production : Production} {precedence : Precedence}
      (listed : g.productions[p]? = some production)
      (borrows : production.borrowed = some (some precedence)) : ProductionBinds p precedence
  | last {production : Production} {precedence : Precedence} {before after : List Symbol}
      {t : TerminalId} (listed : g.productions[p]? = some production)
      (own : production.borrowed = none)
      (right : production.right.toList = before ++ .terminal t :: after)
      (final : ∀ s, .terminal s ∉ after) (bound : g.terminalPrecedence t = some precedence) :
      ProductionBinds p precedence

/-- How the choice between a shift on the terminal and the reduction of the production is made. -/
inductive Chooses (t : TerminalId) (shift : Action) (p : ProductionId) :
    Action → Justification → Prop
  | unboundTerminal (unbound : g.terminalPrecedence t = none) :
      Chooses t shift p shift .missingPrecedence
  | unboundProduction (unbound : ∀ precedence, ¬ g.ProductionBinds p precedence) :
      Chooses t shift p shift .missingPrecedence
  | tighter {ofTerminal ofProduction : Precedence}
      (terminal : g.terminalPrecedence t = some ofTerminal)
      (production : g.ProductionBinds p ofProduction)
      (level : ofProduction.level < ofTerminal.level) :
      Chooses t shift p shift .shiftHigherPrecedence
  | looser {ofTerminal ofProduction : Precedence}
      (terminal : g.terminalPrecedence t = some ofTerminal)
      (production : g.ProductionBinds p ofProduction)
      (level : ofTerminal.level < ofProduction.level) :
      Chooses t shift p (.reduce p) .reduceHigherPrecedence
  | left {ofTerminal ofProduction : Precedence}
      (terminal : g.terminalPrecedence t = some ofTerminal)
      (production : g.ProductionBinds p ofProduction)
      (level : ofTerminal.level = ofProduction.level) (groups : ofTerminal.associativity = .left) :
      Chooses t shift p (.reduce p) .leftAssociative
  | right {ofTerminal ofProduction : Precedence}
      (terminal : g.terminalPrecedence t = some ofTerminal)
      (production : g.ProductionBinds p ofProduction)
      (level : ofTerminal.level = ofProduction.level) (groups : ofTerminal.associativity = .right) :
      Chooses t shift p shift .rightAssociative
  | nonassoc {ofTerminal ofProduction : Precedence}
      (terminal : g.terminalPrecedence t = some ofTerminal)
      (production : g.ProductionBinds p ofProduction)
      (level : ofTerminal.level = ofProduction.level)
      (groups : ofTerminal.associativity = .nonassoc) : Chooses t shift p shift .nonAssociative

/-- The end of input is accepted in the accepting state, and any other terminal is shifted where the
automaton has a step. -/
inductive CanShift (id : StateId) (t : TerminalId) : Action → Prop
  | accept (accepting : (Automaton.build g).accepting? g = some id) (ended : t = endTerminal) :
      CanShift id t .accept
  | shift {target : StateId}
      (other : ¬ ((Automaton.build g).accepting? g = some id ∧ t = endTerminal))
      (stepped : (Automaton.build g).step? id (.terminal t) = some target) :
      CanShift id t (.shift target)

/-- The state has the production with the dot at its end, and the terminal is a lookahead of this
item. -/
def CanReduce (id : StateId) (t : TerminalId) (p : ProductionId) : Prop :=
  ∃ item, (Automaton.build g).HasItem id ⟨p, (g.right p).size⟩ item ∧
    (((Automaton.build g).propagate g).lookaheads.ofItem item).contains t = true

/-- No production with a smaller number can be reduced. -/
def CanReduceFirst (id : StateId) (t : TerminalId) (p : ProductionId) : Prop :=
  g.CanReduce id t p ∧ ∀ q, g.CanReduce id t q → p ≤ q

/-- The action of a state on a terminal. -/
inductive Decides (id : StateId) (t : TerminalId) : Action → Prop
  | shift {action : Action} (shifts : g.CanShift id t action) (alone : ∀ p, ¬ g.CanReduce id t p) :
      Decides id t action
  | reduce {p : ProductionId} (reduces : g.CanReduceFirst id t p)
      (alone : ∀ action, ¬ g.CanShift id t action) : Decides id t (.reduce p)
  | choice {shift action : Action} {p : ProductionId} {reason : Justification}
      (shifts : g.CanShift id t shift) (reduces : g.CanReduceFirst id t p)
      (chosen : g.Chooses t shift p action reason) : Decides id t action

/-- Something is decided in the state, and it is always to reduce the production. -/
def OnlyReduces (id : StateId) (p : ProductionId) : Prop :=
  (∃ t, g.Decides id t (.reduce p)) ∧ ∀ t action, g.Decides id t action → action = .reduce p

/-- The records that are made of choices. -/
inductive Recorded : Conflict → Prop
  | reduceReduce {id : StateId} {t : TerminalId} {p : ProductionId} {others : List ProductionId}
      (ascending : (p :: others).Pairwise (· < ·))
      (all : ∀ q, q ∈ p :: others ↔ g.CanReduce id t q) (several : others ≠ []) :
      Recorded {
        state := id
        lookahead := t
        kind := .reduceReduce
        actions := (p :: others).map .reduce
        resolution := .reduce p
        justification := .firstDeclaredProduction }
  | shiftReduce {id : StateId} {t : TerminalId} {shift action : Action} {p : ProductionId}
      {reason : Justification} (shifts : g.CanShift id t shift) (reduces : g.CanReduceFirst id t p)
      (chosen : g.Chooses t shift p action reason) :
      Recorded {
        state := id
        lookahead := t
        kind := .shiftReduce
        actions := [shift, .reduce p]
        resolution := action
        justification := reason }

variable {g}

end Grammar

/-! ## The order of conflicts -/

theorem Conflict.Before.asymm {first second : Conflict} (before : first.Before second) :
    ¬ second.Before first := by
  rcases before with less | ⟨state, less | ⟨lookahead, reduce, _⟩⟩
  · rintro (less' | ⟨state', _⟩)
    · exact Nat.lt_asymm less less'
    · exact Nat.ne_of_gt less state'
  · rintro (less' | ⟨_, less' | ⟨lookahead', _⟩⟩)
    · exact Nat.ne_of_gt less' state
    · exact Nat.lt_asymm less less'
    · exact Nat.ne_of_gt less lookahead'
  · rintro (less' | ⟨_, less' | ⟨_, _, shift⟩⟩)
    · exact Nat.ne_of_gt less' state
    · exact Nat.ne_of_gt less' lookahead
    · rw [reduce] at shift
      cases shift

/-- What a conflict of the list is before stands after it. -/
theorem Conflict.mem_of_before {earlier later : List Conflict} {conflict other : Conflict}
    (ordered : (earlier ++ conflict :: later).Pairwise Conflict.Before)
    (member : other ∈ earlier ++ conflict :: later) (before : conflict.Before other) :
    other ∈ later := by
  rw [List.pairwise_append] at ordered
  rcases List.mem_append.1 member with member | member
  · exact absurd before (ordered.2.2 other member conflict (List.mem_cons_self ..)).asymm
  · rcases List.mem_cons.1 member with rfl | member
    · exact absurd before before.asymm
    · exact member

namespace Grammar

variable {g : Grammar}

/-! ## Precedence -/

theorem lastTerminal?_eq_some {symbols : List Symbol} {t : TerminalId} :
    lastTerminal? symbols = some t ↔
      ∃ before after, symbols = before ++ .terminal t :: after ∧ ∀ s, .terminal s ∉ after := by
  rw [lastTerminal?, List.findSome?_eq_some_iff]
  constructor
  · rintro ⟨after, symbol, before, reversed, found, none_later⟩
    cases symbol with
    | nonterminal n => cases found
    | terminal s =>
        cases found
        refine ⟨before.reverse, after.reverse, ?_, ?_⟩
        · have straight := congrArg List.reverse reversed
          simpa using straight
        · intro s member
          have none_here := none_later _ (List.mem_reverse.1 member)
          cases none_here
  · rintro ⟨before, after, rfl, final⟩
    refine ⟨after.reverse, .terminal t, before.reverse, by simp, rfl, ?_⟩
    intro symbol member
    cases symbol with
    | nonterminal n => rfl
    | terminal s => exact absurd (List.mem_reverse.1 member) (final s)

theorem productionPrecedence_eq_some {p : ProductionId} {precedence : Precedence} :
    g.productionPrecedence p = some precedence ↔ g.ProductionBinds p precedence := by
  rw [productionPrecedence, Option.bind_eq_some_iff]
  constructor
  · rintro ⟨production, listed, bound⟩
    unfold precedenceOf at bound
    split at bound
    · next borrows =>
        subst bound
        exact .borrowed listed borrows
    · next own =>
        obtain ⟨t, last, bound⟩ := Option.bind_eq_some_iff.1 bound
        obtain ⟨before, after, right, final⟩ := lastTerminal?_eq_some.1 last
        exact .last listed own right final bound
  · intro binds
    cases binds with
    | @borrowed production _ listed borrows =>
        refine ⟨production, listed, ?_⟩
        rw [precedenceOf, borrows]
    | @last production _ before after t listed own right final bound =>
        refine ⟨production, listed, ?_⟩
        have last := lastTerminal?_eq_some.2 ⟨before, after, right, final⟩
        rw [precedenceOf, own, last, Option.bind_some, bound]

theorem resolve_eq_iff {t : TerminalId} {shift action : Action} {p : ProductionId}
    {reason : Justification} :
    Table.resolve g t shift p = (action, reason) ↔ g.Chooses t shift p action reason := by
  constructor
  · intro resolved
    unfold Table.resolve at resolved
    split at resolved
    · next ofTerminal ofProduction terminal production =>
        rw [productionPrecedence_eq_some] at production
        split at resolved
        · next level =>
            cases resolved
            exact .tighter terminal production level
        · next notAbove =>
            split at resolved
            · next level =>
                cases resolved
                exact .looser terminal production level
            · next notBelow =>
                have level : ofTerminal.level = ofProduction.level := by omega
                split at resolved
                · next groups =>
                    cases resolved
                    exact .left terminal production level groups
                · next groups =>
                    cases resolved
                    exact .right terminal production level groups
                · next groups =>
                    cases resolved
                    exact .nonassoc terminal production level groups
    · next missing =>
        cases resolved
        cases terminal : g.terminalPrecedence t with
        | none => exact .unboundTerminal terminal
        | some ofTerminal =>
            refine .unboundProduction ?_
            intro ofProduction production
            exact missing _ _ terminal (productionPrecedence_eq_some.2 production)
  · intro chosen
    cases chosen with
    | unboundTerminal unbound => simp [Table.resolve, unbound]
    | unboundProduction unbound =>
        have none_bound : g.productionPrecedence p = none := by
          rw [Option.eq_none_iff_forall_ne_some]
          intro precedence bound
          exact unbound precedence (productionPrecedence_eq_some.1 bound)
        cases terminal : g.terminalPrecedence t <;> simp [Table.resolve, terminal, none_bound]
    | tighter terminal production level =>
        rw [← productionPrecedence_eq_some] at production
        simp [Table.resolve, terminal, production, level]
    | looser terminal production level =>
        rw [← productionPrecedence_eq_some] at production
        simp [Table.resolve, terminal, production, level, Nat.lt_asymm level]
    | left terminal production level groups =>
        rw [← productionPrecedence_eq_some] at production
        simp [Table.resolve, terminal, production, level, groups]
    | right terminal production level groups =>
        rw [← productionPrecedence_eq_some] at production
        simp [Table.resolve, terminal, production, level, groups]
    | nonassoc terminal production level groups =>
        rw [← productionPrecedence_eq_some] at production
        simp [Table.resolve, terminal, production, level, groups]

/-! ## Candidates -/

variable {id : StateId} {state : State} {t : TerminalId}

theorem shift_candidates_iff (found : (Automaton.build g).states[id]? = some state)
    {action : Action} :
    (g.candidates id state t).shift = some action ↔ g.CanShift id t action := by
  have stepped : (Automaton.build g).step? id (.terminal t) = state.transition? (.terminal t) := by
    rw [Automaton.step?, found, Option.bind_some]
  rw [Grammar.candidates, Table.candidates, Table.shiftOn?, ← stepped]
  by_cases ended : (Automaton.build g).accepting? g = some id ∧ t = endTerminal
  · rw [if_pos (by simp [ended])]
    constructor
    · intro accepted
      cases accepted
      exact .accept ended.1 ended.2
    · intro shifts
      cases shifts with
      | accept _ _ => rfl
      | shift other _ => exact absurd ended other
  · rw [if_neg (by simpa using ended), Option.map_eq_some_iff]
    constructor
    · rintro ⟨target, led, rfl⟩
      exact .shift ended led
    · intro shifts
      cases shifts with
      | accept accepting same => exact absurd ⟨accepting, same⟩ ended
      | shift _ led => exact ⟨_, led, rfl⟩

theorem mem_reductions_candidates (found : (Automaton.build g).states[id]? = some state)
    {p : ProductionId} : p ∈ (g.candidates id state t).reductions ↔ g.CanReduce id t p := by
  rw [Grammar.candidates, Table.candidates, Table.mem_reductionsOn]
  constructor
  · rintro ⟨set, listed, contained⟩
    obtain ⟨item, numbered, rfl⟩ := mem_reductions.1 listed
    exact ⟨item, ⟨state, found, numbered⟩, contained⟩
  · rintro ⟨item, ⟨again, found', numbered⟩, contained⟩
    rw [found] at found'
    cases found'
    exact ⟨_, mem_reductions.2 ⟨item, numbered, rfl⟩, contained⟩

/-- The productions that can be reduced are listed in ascending order, so the first is the least. -/
theorem canReduceFirst_iff (found : (Automaton.build g).states[id]? = some state)
    {p : ProductionId} :
    g.CanReduceFirst id t p ↔ ∃ others, (g.candidates id state t).reductions = p :: others := by
  have ascending : (g.candidates id state t).reductions.Pairwise (· < ·) :=
    Table.pairwise_reductionsOn ..
  constructor
  · rintro ⟨reduces, least⟩
    have member := (mem_reductions_candidates found).2 reduces
    cases listed : (g.candidates id state t).reductions with
    | nil =>
        rw [listed] at member
        cases member
    | cons q others =>
        rw [listed] at member ascending
        have first : q ∈ (g.candidates id state t).reductions := by
          rw [listed]
          exact List.mem_cons_self ..
        have lower : p ≤ q := least q ((mem_reductions_candidates found).1 first)
        rcases List.mem_cons.1 member with rfl | later
        · exact ⟨others, rfl⟩
        · have greater : q < p := (List.pairwise_cons.1 ascending).1 p later
          exact absurd lower (Nat.not_le_of_lt greater)
  · rintro ⟨others, listed⟩
    constructor
    · apply (mem_reductions_candidates found).1
      rw [listed]
      exact List.mem_cons_self ..
    · intro q reduces
      have member := (mem_reductions_candidates found).2 reduces
      rw [listed] at member ascending
      rcases List.mem_cons.1 member with rfl | later
      · exact Nat.le_refl _
      · exact Nat.le_of_lt ((List.pairwise_cons.1 ascending).1 q later)

theorem reductions_candidates_eq_nil (found : (Automaton.build g).states[id]? = some state) :
    (g.candidates id state t).reductions = [] ↔ ∀ p, ¬ g.CanReduce id t p := by
  rw [List.eq_nil_iff_forall_not_mem]
  exact forall_congr' fun p => not_congr (mem_reductions_candidates found)

theorem shift_candidates_eq_none (found : (Automaton.build g).states[id]? = some state) :
    (g.candidates id state t).shift = none ↔ ∀ action, ¬ g.CanShift id t action := by
  rw [Option.eq_none_iff_forall_ne_some]
  exact forall_congr' fun action => not_congr (shift_candidates_iff found)

/-! ## Decisions -/

theorem decision_eq_some_iff (found : (Automaton.build g).states[id]? = some state)
    {action : Action} :
    (g.decision id state t).1 = some action ↔ g.Decides id t action := by
  rw [decision, Table.decideAction_eq_some]
  constructor
  · rintro (⟨shifts, alone⟩ | ⟨p, others, listed, alone, rfl⟩ | ⟨shift, p, others, shifts, listed, rfl⟩)
    · exact .shift ((shift_candidates_iff found).1 shifts)
        ((reductions_candidates_eq_nil found).1 alone)
    · exact .reduce ((canReduceFirst_iff found).2 ⟨others, listed⟩)
        ((shift_candidates_eq_none found).1 alone)
    · exact .choice ((shift_candidates_iff found).1 shifts)
        ((canReduceFirst_iff found).2 ⟨others, listed⟩) (resolve_eq_iff.1 rfl)
  · intro decides
    cases decides with
    | shift shifts alone =>
        exact .inl ⟨(shift_candidates_iff found).2 shifts,
          (reductions_candidates_eq_nil found).2 alone⟩
    | @reduce p reduces alone =>
        obtain ⟨others, listed⟩ := (canReduceFirst_iff found).1 reduces
        exact .inr (.inl ⟨p, others, listed, (shift_candidates_eq_none found).2 alone, rfl⟩)
    | @choice shift _ p _ shifts reduces chosen =>
        obtain ⟨others, listed⟩ := (canReduceFirst_iff found).1 reduces
        have resolved := resolve_eq_iff.2 chosen
        exact .inr (.inr ⟨shift, p, others, (shift_candidates_iff found).2 shifts, listed,
          (congrArg Prod.fst resolved).symm⟩)

/-- The conflicts that are met in a state on a terminal are those that are recorded there. -/
theorem mem_decision_iff (found : (Automaton.build g).states[id]? = some state)
    {conflict : Conflict} :
    conflict ∈ (g.decision id state t).2 ↔
      g.Recorded conflict ∧ conflict.state = id ∧ conflict.lookahead = t := by
  have ascending : (g.candidates id state t).reductions.Pairwise (· < ·) :=
    Table.pairwise_reductionsOn ..
  rw [decision, Table.mem_decideAction]
  constructor
  · rintro (⟨p, others, listed, several, rfl⟩ | ⟨shift, p, others, shifts, listed, rfl⟩)
    · rw [listed] at ascending
      refine ⟨.reduceReduce ascending ?_ several, rfl, rfl⟩
      intro q
      rw [← listed]
      exact mem_reductions_candidates found
    · refine ⟨.shiftReduce ((shift_candidates_iff found).1 shifts)
        ((canReduceFirst_iff found).2 ⟨others, listed⟩) (resolve_eq_iff.1 rfl), rfl, rfl⟩
  · rintro ⟨recorded, rfl, rfl⟩
    cases recorded with
    | @reduceReduce id t p others sorted all several =>
        have listed : (g.candidates id state t).reductions = p :: others := by
          apply ascending.eq_of_mem_iff sorted
          intro q
          rw [mem_reductions_candidates found, all q]
        exact .inl ⟨p, others, listed, several, rfl⟩
    | @shiftReduce id t shift action p reason shifts reduces chosen =>
        obtain ⟨others, listed⟩ := (canReduceFirst_iff found).1 reduces
        refine .inr ⟨shift, p, others, (shift_candidates_iff found).2 shifts, listed, ?_⟩
        rw [Table.shiftConflict, resolve_eq_iff.2 chosen]

/-- Something is decided wherever anything can be done. -/
theorem exists_decides_iff (found : (Automaton.build g).states[id]? = some state) :
    (∃ action, g.Decides id t action) ↔
      (∃ action, g.CanShift id t action) ∨ ∃ p, g.CanReduce id t p := by
  have undecided : (g.decision id state t).1 = none ↔
      (∀ action, ¬ g.CanShift id t action) ∧ ∀ p, ¬ g.CanReduce id t p := by
    rw [decision, Table.decideAction_eq_none, shift_candidates_eq_none found,
      reductions_candidates_eq_nil found]
  rw [← not_iff_not, not_or, not_exists, not_exists, not_exists, ← undecided,
    Option.eq_none_iff_forall_ne_some]
  exact forall_congr' fun action => not_congr (decision_eq_some_iff found).symm

/-! ## The table -/

/-- Conflicts are recorded in states of the automaton only. -/
theorem Recorded.exists_state {conflict : Conflict} (recorded : g.Recorded conflict) :
    ∃ state, (Automaton.build g).states[conflict.state]? = some state := by
  have of_reduce : ∀ {id t p}, g.CanReduce id t p →
      ∃ state, (Automaton.build g).states[id]? = some state := by
    rintro id t p ⟨item, ⟨state, found, _⟩, _⟩
    exact ⟨state, found⟩
  cases recorded with
  | reduceReduce _ all _ => exact of_reduce ((all _).1 (List.mem_cons_self ..))
  | shiftReduce _ reduces _ => exact of_reduce reduces.1

theorem mem_conflicts_iff (defaultReductions : Bool) {conflict : Conflict} :
    conflict ∈ (g.generate defaultReductions).table.conflicts ↔ g.Recorded conflict := by
  rw [generate, Table.mem_conflicts]
  constructor
  · rintro ⟨id, state, t, found, met⟩
    exact ((mem_decision_iff found).1 met).1
  · intro recorded
    obtain ⟨state, found⟩ := recorded.exists_state
    exact ⟨conflict.state, state, conflict.lookahead, found,
      (mem_decision_iff found).2 ⟨recorded, rfl, rfl⟩⟩

/-- A row is made from the state of its number. -/
theorem exists_state_of_row {defaultReductions : Bool} {row : Row}
    (listed : (g.generate defaultReductions).table.rows[id]? = some row) :
    ∃ state, (Automaton.build g).states[id]? = some state ∧
      (row.actions = (Table.activeTerminals ((Automaton.build g).accepting? g == some id) state
        (state.reductions g ((Automaton.build g).propagate g).lookaheads)).toList.filterMap
          fun t => (g.decision id state t).1.map (t, ·)) ∧
      row.gotos = state.gotos ∧
      row.defaultReduction =
        if defaultReductions then Table.onlyReduction row.actions else none := by
  rw [generate, Table.getElem?_rows, Option.map_eq_some_iff] at listed
  obtain ⟨state, found, rfl⟩ := listed
  refine ⟨state, found, ?_, rfl, rfl⟩
  simp only [Table.fillRow, List.filterMap_map]
  rfl

theorem mem_actions_iff {defaultReductions : Bool} {row : Row}
    (listed : (g.generate defaultReductions).table.rows[id]? = some row) {action : Action} :
    (t, action) ∈ row.actions ↔ g.Decides id t action := by
  obtain ⟨state, found, actions, _⟩ := exists_state_of_row listed
  rw [actions, ← decision_eq_some_iff found]
  simp only [List.mem_filterMap, Option.map_eq_some_iff, Prod.mk.injEq]
  constructor
  · rintro ⟨_, _, _, decided, rfl, rfl⟩
    exact decided
  · intro decided
    refine ⟨t, ?_, action, decided, rfl, rfl⟩
    rw [IdSet.mem_toList]
    by_contra inactive
    rw [decision, candidates, Table.candidates_of_not_active inactive] at decided
    cases decided

theorem pairwise_actions {defaultReductions : Bool} {row : Row}
    (listed : (g.generate defaultReductions).table.rows[id]? = some row) :
    (row.actions.map (·.1)).Pairwise (· < ·) := by
  obtain ⟨state, found, actions, _⟩ := exists_state_of_row listed
  rw [actions, List.map_filterMap, List.pairwise_filterMap]
  apply (IdSet.pairwise_toList _).imp
  intro t u less key isKey key' isKey'
  obtain ⟨_, _, rfl⟩ : ∃ action, (g.decision id state t).1 = some action ∧ t = key := by
    simpa using isKey
  obtain ⟨_, _, rfl⟩ : ∃ action, (g.decision id state u).1 = some action ∧ u = key' := by
    simpa using isKey'
  exact less

/-- A default reduction is what the actions of the row have in common. -/
theorem defaultReduction_eq_some_iff {defaultReductions : Bool} {row : Row}
    (listed : (g.generate defaultReductions).table.rows[id]? = some row) {p : ProductionId} :
    row.defaultReduction = some p ↔ defaultReductions = true ∧ g.OnlyReduces id p := by
  obtain ⟨_, _, _, _, default⟩ := exists_state_of_row listed
  rw [default, Option.ite_none_right_eq_some, Table.onlyReduction_eq_some_iff]
  simp only [OnlyReduces, ← mem_actions_iff listed]

/-- A conflict that no other of its place follows tells what was decided there. -/
theorem decides_of_last {conflict : Conflict} (recorded : g.Recorded conflict)
    (last : ∀ later, g.Recorded later → conflict.Before later →
      later.state = conflict.state → later.lookahead ≠ conflict.lookahead) :
    g.Decides conflict.state conflict.lookahead conflict.resolution := by
  cases recorded with
  | @reduceReduce id t p others ascending all several =>
      have first : g.CanReduceFirst id t p := by
        refine ⟨(all p).1 (List.mem_cons_self ..), ?_⟩
        intro q reduces
        rcases List.mem_cons.1 ((all q).2 reduces) with rfl | later
        · exact Nat.le_refl _
        · exact Nat.le_of_lt ((List.pairwise_cons.1 ascending).1 q later)
      refine .reduce first ?_
      intro shift shifts
      -- A shift would have been recorded next.
      have next := Recorded.shiftReduce shifts first (resolve_eq_iff.1 rfl)
      exact last _ next (.inr ⟨rfl, .inr ⟨rfl, rfl, rfl⟩⟩) rfl rfl
  | shiftReduce shifts reduces chosen => exact .choice shifts reduces chosen

/-- The row of a state has the actions that are decided upon, by ascending terminal, and the
transitions of the state by nonterminals.  It has a default reduction only where these are asked
for. -/
structure FillsRow (g : Grammar) (defaultReductions : Bool) (id : StateId) (row : Row) :
    Prop where
  ascending : (row.actions.map (·.1)).Pairwise (· < ·)
  /-- A terminal has an action exactly where something can be done. -/
  places : ∀ t, t ∈ row.actions.map (·.1) ↔
    (∃ action, g.CanShift id t action) ∨ ∃ p, g.CanReduce id t p
  actions : ∀ t action, (t, action) ∈ row.actions ↔ g.Decides id t action
  /-- The gotos stand in the order of the transitions, and none of these is left out. -/
  gotos : ∃ state, (Automaton.build g).states[id]? = some state ∧
    row.gotos.map (fun (n, target) => (Symbol.nonterminal n, target)) =
      state.transitions.filter fun (symbol, _) => symbol matches .nonterminal _
  /-- A nonterminal leads where the automaton steps. -/
  steps : ∀ n, row.gotos.lookup n = (Automaton.build g).step? id (.nonterminal n)
  defaultReduction : ∀ p,
    row.defaultReduction = some p ↔ defaultReductions = true ∧ g.OnlyReduces id p

/-- The table has a row for every state, and lists the choices that were made. -/
structure Fills (g : Grammar) (defaultReductions : Bool) (table : Table) : Prop where
  size : table.rows.size = (Automaton.build g).states.size
  rows : ∀ id row, table.rows[id]? = some row → g.FillsRow defaultReductions id row
  /-- By state, then by terminal, and reductions first; so no place has two conflicts of a kind. -/
  ordered : table.conflicts.Pairwise Conflict.Before
  recorded : ∀ conflict, conflict ∈ table.conflicts ↔ g.Recorded conflict
  /-- The last conflict of a place is resolved as the place is filled. -/
  resolved : ∀ earlier conflict later, table.conflicts = earlier ++ conflict :: later →
    (∀ other ∈ later, other.state = conflict.state → other.lookahead ≠ conflict.lookahead) →
    ∃ row, table.rows[conflict.state]? = some row ∧
      (conflict.lookahead, conflict.resolution) ∈ row.actions

theorem fillsRow_generate {defaultReductions : Bool} {row : Row}
    (listed : (g.generate defaultReductions).table.rows[id]? = some row) :
    g.FillsRow defaultReductions id row := by
  obtain ⟨state, found, _, gotos, _⟩ := exists_state_of_row listed
  refine ⟨pairwise_actions listed, ?places, fun t action => mem_actions_iff listed, ?gotos, ?steps,
    fun p => defaultReduction_eq_some_iff listed⟩
  case places =>
    intro t
    rw [← exists_decides_iff found]
    simp [mem_actions_iff listed]
  case gotos =>
    refine ⟨state, found, ?_⟩
    rw [gotos]
    exact Table.map_gotos state
  case steps =>
    intro n
    rw [gotos, Table.lookup_gotos, Automaton.step?, found, Option.bind_some]

/-- With and without default reductions, a generated table has the actions that are decided upon, the
gotos and the default reductions that follow from the automaton, and lists the choices that were
made, each of them once. -/
theorem table_is_exact (g : Grammar) (defaultReductions : Bool) :
    g.Fills defaultReductions (g.generate defaultReductions).table := by
  have ordered : (g.generate defaultReductions).table.conflicts.Pairwise Conflict.Before :=
    Table.pairwise_conflicts ..
  refine ⟨?size, fun id row listed => fillsRow_generate listed, ordered,
    fun conflict => mem_conflicts_iff defaultReductions, ?resolved⟩
  case size => simp [generate, Table.ofAutomaton]
  case resolved =>
    intro earlier conflict later split last
    have recorded : g.Recorded conflict := by
      rw [← mem_conflicts_iff defaultReductions, split]
      simp
    have decides : g.Decides conflict.state conflict.lookahead conflict.resolution := by
      apply decides_of_last recorded
      intro other otherRecorded follows
      rw [← mem_conflicts_iff defaultReductions, split] at otherRecorded
      rw [split] at ordered
      exact last other (Conflict.mem_of_before ordered otherRecorded follows)
    obtain ⟨state, found⟩ := recorded.exists_state
    have listed : ∃ row, (g.generate defaultReductions).table.rows[conflict.state]? = some row := by
      rw [generate, Table.getElem?_rows, found]
      exact ⟨_, rfl⟩
    obtain ⟨row, listed⟩ := listed
    exact ⟨row, listed, (mem_actions_iff listed).2 decides⟩

end Grammar

end Lalr
