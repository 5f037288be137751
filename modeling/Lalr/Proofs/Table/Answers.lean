import Lalr.Generator
import Lalr.Parser.Generated
import Lalr.Proofs.Lookahead.Exact
import Lalr.Proofs.Table.Filling

/-!
# What a generated table answers

A parser asks the table of a grammar about a state and a lookahead.  This file relates the answers to
the automaton.  Every answer is backed by it: shifts are steps, reductions are of productions that
have been recognised, and only where the start symbol has been read is the end of input accepted.

Conversely, a table without conflicts answers with whatever the automaton allows; and any table has
an action of its own on every terminal that is expected.
-/

namespace Lalr

variable {g : Grammar} {defaultReductions : Bool} {id : StateId} {state : State} {t : TerminalId}
  {look : Option Symbol}

namespace Grammar

/-- The table that a parser of the grammar asks. -/
def parser (g : Grammar) (defaultReductions : Bool) :
    Parser.ActionTable StateId Symbol ProductionId :=
  (g.generate defaultReductions).table.toActionTable g

def candidates (g : Grammar) (id : StateId) (state : State) (t : TerminalId) : Candidates :=
  Table.candidates g ((Automaton.build g).accepting? g == some id)
    ((Automaton.build g).propagate g).lookaheads state t

/-- What the table decides in a state on a terminal, with the conflicts met on the way. -/
def decision (g : Grammar) (id : StateId) (state : State) (t : TerminalId) :
    Option Action × List Conflict :=
  Table.decideAction g id t (g.candidates id state t)

end Grammar

/-- The terminal that the actions of a row are looked up by; nonterminals go by its gotos. -/
def asked : Option Symbol → Option TerminalId
  | none => some endTerminal
  | some (.terminal t) => some t
  | some (.nonterminal _) => none

theorem Row.action_of_unlisted {row : Row} (unlisted : row.actions.lookup t = none) :
    row.action t = .error ∨ ∃ p, row.defaultReduction = some p ∧ row.action t = .reduce p := by
  rw [Row.action, unlisted]
  cases row.defaultReduction with
  | none => exact .inl rfl
  | some p => exact .inr ⟨p, rfl, rfl⟩

theorem rowResponse_of_asked (question : asked look = some t) (row : Row) :
    Table.rowResponse g row look = Table.respond g (row.action t) := by
  rcases look with _ | t | n
  · cases question
    rfl
  · cases question
    rfl
  · cases question

theorem parser_row (found : (Automaton.build g).states[id]? = some state) :
    (g.parser defaultReductions).action id look =
      Table.rowResponse g (Table.fillRow g defaultReductions
        ((Automaton.build g).accepting? g == some id)
        ((Automaton.build g).propagate g).lookaheads id state).1 look := by
  have row : (g.generate defaultReductions).table.rows[id]? = _ :=
    Table.getElem?_rows defaultReductions id
  rw [found] at row
  simp only [Grammar.parser, Table.toActionTable, row, Option.map_some]

theorem parser_of_decided (found : (Automaton.build g).states[id]? = some state)
    (question : asked look = some t) {action : Action}
    (decided : (g.decision id state t).1 = some action) :
    (g.parser defaultReductions).action id look = Table.respond g action := by
  rw [parser_row found, rowResponse_of_asked question, Row.action, Table.lookup_fillRow]
  rw [Grammar.decision, Grammar.candidates] at decided
  rw [decided]

theorem parser_of_undecided (found : (Automaton.build g).states[id]? = some state)
    (question : asked look = some t) (undecided : (g.decision id state t).1 = none) :
    (g.parser false).action id look = .refuse .unexpectedSymbol := by
  rw [parser_row found, rowResponse_of_asked question, Row.action, Table.lookup_fillRow]
  rw [Grammar.decision, Grammar.candidates] at undecided
  rw [undecided]
  rfl

/-- Nonterminals are shifted where the automaton has a step. -/
theorem parser_goto (found : (Automaton.build g).states[id]? = some state) (n : NonterminalId) :
    (g.parser defaultReductions).action id (some (.nonterminal n)) =
      match (Automaton.build g).step? id (.nonterminal n) with
      | some target => .shift target
      | none => .refuse .unexpectedSymbol := by
  rw [parser_row found, Automaton.step?, found, Option.bind_some, ← Table.lookup_gotos]
  rfl

theorem parser_of_missing (missing : (Automaton.build g).states[id]? = none) :
    (g.parser defaultReductions).action id look = .refuse .incorrectState := by
  have row : (g.generate defaultReductions).table.rows[id]? = _ :=
    Table.getElem?_rows defaultReductions id
  rw [missing] at row
  simp only [Grammar.parser, Table.toActionTable, row, Option.map_none]

/-- The two settings differ only where nothing has been decided. -/
theorem parser_agrees (g : Grammar) (id : StateId) (look : Option Symbol) :
    (g.parser true).action id look = (g.parser false).action id look ∨
      ∃ state t, (Automaton.build g).states[id]? = some state ∧ asked look = some t ∧
        (g.decision id state t).1 = none := by
  cases found : (Automaton.build g).states[id]? with
  | none =>
      left
      rw [parser_of_missing found, parser_of_missing found]
  | some state =>
      cases question : asked look with
      | none =>
          left
          rcases look with _ | t | n
          · cases question
          · cases question
          · rw [parser_goto found, parser_goto found]
      | some t =>
          cases decided : (g.decision id state t).1 with
          | none => exact .inr ⟨state, t, rfl, rfl, decided⟩
          | some action =>
              left
              rw [parser_of_decided found question decided,
                parser_of_decided found question decided]

/-! ## Candidates -/

theorem mem_reductions {lookaheads : Lookaheads} {p : ProductionId} {set : TerminalSet} :
    (p, set) ∈ state.reductions g lookaheads ↔
      ∃ item, (⟨p, (g.right p).size⟩, item) ∈ state.items ∧ lookaheads.ofItem item = set := by
  simp only [State.reductions, List.mem_map, List.mem_filter, Prod.exists, Prod.mk.injEq,
    Core.isReduction, beq_iff_eq]
  constructor
  · rintro ⟨⟨q, dot⟩, item, ⟨member, complete⟩, rfl, rfl⟩
    exact ⟨item, complete ▸ member, rfl⟩
  · rintro ⟨item, member, rfl⟩
    exact ⟨_, item, ⟨member, rfl⟩, rfl, rfl⟩

theorem hasCore_of_candidate (found : (Automaton.build g).states[id]? = some state)
    {p : ProductionId} (member : p ∈ (g.candidates id state t).reductions) :
    (Automaton.build g).HasCore id ⟨p, (g.right p).size⟩ := by
  obtain ⟨set, listed, _⟩ := Table.mem_reductionsOn.1 member
  obtain ⟨item, numbered, _⟩ := mem_reductions.1 listed
  exact Automaton.HasItem.hasCore ⟨state, found, numbered⟩

theorem candidate_lt (wellFormed : g.WellFormed)
    (found : (Automaton.build g).states[id]? = some state) {p : ProductionId}
    (member : p ∈ (g.candidates id state t).reductions) : p < g.productions.size :=
  ((Automaton.canonical_build wellFormed).isOf_of_hasCore wellFormed
    (hasCore_of_candidate found member)).lt_size

/-- A state acts on numbered terminals only. -/
theorem lt_of_active (wellFormed : g.WellFormed) {accepting : Bool} {id : StateId} {state : State}
    (found : (Automaton.build g).states[id]? = some state) {t : TerminalId}
    (active : (Table.activeTerminals accepting state (state.reductions g
      ((Automaton.build g).propagate g).lookaheads)).contains t = true) : t < g.terminals.size := by
  have canonical := Automaton.canonical_build wellFormed
  rcases Table.contains_activeTerminals.1 active with shifted | ⟨_, ended⟩ | reduced
  · obtain ⟨⟨_, target⟩, listed, rfl⟩ := List.mem_map.1 shifted
    obtain ⟨⟨symbol, again⟩, led, kind⟩ := List.mem_filterMap.1 listed
    have numbered := canonical.numbers_of_transition wellFormed found led
    cases symbol with
    | terminal t =>
        cases kind
        exact numbered
    | nonterminal n => cases kind
  · rw [ended]
    exact wellFormed.ending
  · obtain ⟨p, set, listed, member⟩ := reduced
    obtain ⟨item, _, rfl⟩ := mem_reductions.1 listed
    have all := Automaton.Canonical.all_propagate (Flow.respects_lt (Automaton.build g) wellFormed)
      fun _ _ => wellFormed.ending
    exact all item t member

/-- A production that has been recognised after a path is a candidate on what can follow. -/
theorem candidate_of_valid (wellFormed : g.WellFormed)
    (found : (Automaton.build g).states[id]? = some state) {before after : List Symbol}
    {p : ProductionId}
    (path : (Automaton.build g).follow? initialState before = some id)
    (valid : g.Valid before ⟨p, (g.right p).size⟩ after) (begins : g.Begins after t) :
    p ∈ (g.candidates id state t).reductions := by
  have canonical := Automaton.canonical_build wellFormed
  have has := canonical.hasCore_of_valid wellFormed valid path
  obtain ⟨item, again, found', numbered⟩ := has.exists_item
  rw [found] at found'
  cases found'
  refine Table.mem_reductionsOn.2 ⟨_, mem_reductions.2 ⟨item, numbered, rfl⟩, ?_⟩
  exact canonical.contains_propagate_of_valid wellFormed valid path ⟨state, found, numbered⟩ begins

theorem shift_candidate (wellFormed : g.WellFormed)
    (found : (Automaton.build g).states[id]? = some state) {target : StateId}
    (stepped : (Automaton.build g).step? id (.terminal t) = some target) :
    (g.candidates id state t).shift = some (.shift target) := by
  obtain ⟨inner, _⟩ := (Automaton.canonical_build wellFormed).exists_next_of_step stepped
  have other : ¬ ((Automaton.build g).accepting? g == some id && t == endTerminal) = true := by
    rw [Bool.and_eq_true, beq_iff_eq, beq_iff_eq]
    rintro ⟨_, rfl⟩
    exact inner rfl
  rw [Automaton.step?, found, Option.bind_some] at stepped
  simp only [Grammar.candidates, Table.candidates, Table.shiftOn?, if_neg other, stepped,
    Option.map_some]

theorem accept_candidate (accepting : (Automaton.build g).accepting? g = some id) :
    (g.candidates id state endTerminal).shift = some .accept := by
  simp [Grammar.candidates, Table.candidates, Table.shiftOn?, accepting]

/-- The table has decided upon an action on every terminal that is expected. -/
theorem decided_of_expects (wellFormed : g.WellFormed)
    (found : (Automaton.build g).states[id]? = some state) {before : List Symbol}
    (path : (Automaton.build g).follow? initialState before = some id)
    (expected : g.Expects before t) : (g.decision id state t).1 ≠ none := by
  have canonical := Automaton.canonical_build wellFormed
  intro undecided
  obtain ⟨unshifted, unreduced⟩ := Table.decideAction_eq_none.1 undecided
  obtain ⟨core, after, valid, next | ⟨complete, begins⟩⟩ := expected.exists_ready wellFormed
  · by_cases ended : t = endTerminal
    · subst ended
      rw [accept_candidate (Automaton.Canonical.accepting_of_next wellFormed path valid next)] at unshifted
      cases unshifted
    · obtain ⟨target, stepped, _⟩ := canonical.hasCore_advance
        (canonical.hasCore_of_valid wellFormed valid path) next (by simpa using ended)
      rw [shift_candidate wellFormed found stepped] at unshifted
      cases unshifted
  · obtain ⟨p, dot⟩ := core
    have ended : dot = (g.right p).size := valid.dot_eq wellFormed complete
    subst ended
    have reduced := candidate_of_valid wellFormed found path valid begins
    rw [unreduced] at reduced
    cases reduced

/-! ## Answers -/

/-- The answer to a question about a terminal is backed by the automaton. -/
inductive Answers (g : Grammar) (id : StateId) (t : TerminalId) :
    Parser.Response StateId Symbol ProductionId → Prop
  | shift {target : StateId}
      (stepped : (Automaton.build g).step? id (.terminal t) = some target) :
      Answers g id t (.shift target)
  | accept (accepting : (Automaton.build g).accepting? g = some id) (ended : t = endTerminal) :
      Answers g id t .accept
  | reduce {p : ProductionId} {production : Production}
      (listed : g.productions[p]? = some production)
      (complete : (Automaton.build g).HasCore id ⟨p, production.right.size⟩) :
      Answers g id t (.reduce p (.nonterminal production.left) production.right.size)
  | refuse : Answers g id t (.refuse .unexpectedSymbol)

theorem answers_reduce (wellFormed : g.WellFormed) {p : ProductionId}
    (has : (Automaton.build g).HasCore id ⟨p, (g.right p).size⟩) :
    Answers g id t (Table.respond g (.reduce p)) := by
  have canonical := Automaton.canonical_build wellFormed
  obtain ⟨before, path⟩ := canonical.exists_path has.lt_size
  obtain ⟨after, valid⟩ := canonical.valid_of_hasCore path has
  obtain ⟨_, production, listed, _⟩ := (Grammar.valid_iff wellFormed).1 valid
  rw [Core.right_of_listed listed] at has
  rw [Table.respond, listed]
  exact .reduce listed has

/-- Every answer about a terminal is backed by the automaton. -/
theorem parser_answers (wellFormed : g.WellFormed)
    (found : (Automaton.build g).states[id]? = some state) (question : asked look = some t) :
    Answers g id t ((g.parser defaultReductions).action id look) := by
  cases decided : (g.decision id state t).1 with
  | some action =>
      rw [parser_of_decided found question decided]
      rcases Table.decideAction_mem decided with shift | ⟨p, reduced, rfl⟩
      · rcases Table.shiftOn?_cases shift with ⟨rfl, accepting, ended⟩ | ⟨target, rfl, led⟩
        · exact .accept (by simpa using accepting) ended
        · refine .shift ?_
          rw [Automaton.step?, found, Option.bind_some, led]
      · exact answers_reduce wellFormed (hasCore_of_candidate found reduced)
  | none =>
      rw [parser_row found, rowResponse_of_asked question]
      have unlisted := decided
      rw [Grammar.decision, Grammar.candidates,
        ← Table.lookup_fillRow defaultReductions] at unlisted
      rcases Row.action_of_unlisted unlisted with same | ⟨p, default, same⟩
      · rw [same]
        exact .refuse
      · obtain ⟨_, reduced⟩ := Table.exists_of_defaultReduction default
        rw [same]
        exact answers_reduce wellFormed (hasCore_of_candidate found reduced)

/-- What is reduced has been recognised. -/
theorem exists_listed_of_reduce (wellFormed : g.WellFormed)
    (found : (Automaton.build g).states[id]? = some state) {p : ProductionId} {left : Symbol}
    {length : Nat} (answered : (g.parser defaultReductions).action id (some (.terminal t)) =
      .reduce p left length) :
    ∃ production, g.productions[p]? = some production ∧ left = .nonterminal production.left ∧
      length = production.right.size ∧
      (Automaton.build g).HasCore id ⟨p, production.right.size⟩ := by
  have backed : Answers g id t ((g.parser defaultReductions).action id (some (.terminal t))) :=
    parser_answers wellFormed found rfl
  rw [answered] at backed
  cases backed with
  | reduce listed complete => exact ⟨_, listed, rfl, rfl, complete⟩

/-- A production is a candidate only on terminals that can follow it. -/
theorem follows_of_candidate (wellFormed : g.WellFormed)
    (found : (Automaton.build g).states[id]? = some state) {p : ProductionId}
    (member : p ∈ (g.candidates id state t).reductions) :
    Automaton.Follows g (Automaton.build g) id ⟨p, (g.right p).size⟩ t := by
  obtain ⟨set, listed, contained⟩ := Table.mem_reductionsOn.1 member
  obtain ⟨item, numbered, rfl⟩ := mem_reductions.1 listed
  exact ((Automaton.canonical_build wellFormed).contains_propagate_iff wellFormed
    ⟨state, found, numbered⟩).1 contained

theorem Table.eq_reduce_of_respond {action : Action} {p : ProductionId} {left : Symbol}
    {length : Nat} (responded : Table.respond g action = .reduce p left length) :
    action = .reduce p := by
  unfold Table.respond at responded
  split at responded
  · cases responded
  · split at responded
    · cases responded
      rfl
    · cases responded
  · cases responded
  · cases responded

/-- Whatever asks for a terminal gets the answer on the terminal. -/
theorem parser_asked (question : asked look = some t) :
    (g.parser defaultReductions).action id look =
      (g.parser defaultReductions).action id (some (.terminal t)) := by
  simp only [Grammar.parser, Table.toActionTable]
  split
  · rw [rowResponse_of_asked question, rowResponse_of_asked rfl]
  · rfl

/-- A production is reduced only where some terminal can follow it.  Without default reductions, that
is the terminal that was asked about. -/
theorem exists_follower (wellFormed : g.WellFormed) {p : ProductionId} {left : Symbol}
    {length : Nat} (answered : (g.parser defaultReductions).action id (some (.terminal t)) =
      .reduce p left length) :
    ∃ follower, (defaultReductions = false → follower = t) ∧
      Automaton.Follows g (Automaton.build g) id ⟨p, (g.right p).size⟩ follower := by
  obtain ⟨state, found⟩ : ∃ state, (Automaton.build g).states[id]? = some state := by
    rw [← Option.ne_none_iff_exists']
    intro missing
    rw [parser_of_missing missing] at answered
    cases answered
  have question : asked (some (.terminal t)) = some t := rfl
  cases decided : (g.decision id state t).1 with
  | some action =>
      rw [parser_of_decided found question decided] at answered
      cases Table.eq_reduce_of_respond answered
      rcases Table.decideAction_mem decided with shift | ⟨q, reduced, same⟩
      · rcases Table.shiftOn?_cases shift with ⟨accept, _⟩ | ⟨target, shifted, _⟩
        · cases accept
        · cases shifted
      · cases same
        exact ⟨t, fun _ => rfl, follows_of_candidate wellFormed found reduced⟩
  | none =>
      rw [parser_row found, rowResponse_of_asked question] at answered
      rw [Grammar.decision, Grammar.candidates, ← Table.lookup_fillRow defaultReductions] at decided
      rcases Row.action_of_unlisted decided with same | ⟨q, default, same⟩
      · rw [same] at answered
        cases answered
      · rw [same] at answered
        cases Table.eq_reduce_of_respond answered
        obtain ⟨follower, reduced⟩ := Table.exists_of_defaultReduction default
        refine ⟨follower, ?_, follows_of_candidate wellFormed found reduced⟩
        rintro rfl
        cases default

section ConflictFree

variable (wellFormed : g.WellFormed)
  (conflictFree : (g.generate defaultReductions).table.conflicts = [])
  (found : (Automaton.build g).states[id]? = some state) (question : asked look = some t)

include wellFormed conflictFree found question

theorem parser_shift {target : StateId}
    (stepped : (Automaton.build g).step? id (.terminal t) = some target) :
    (g.parser defaultReductions).action id look = .shift target :=
  parser_of_decided found question (Table.decideAction_of_shift
    (Table.conflicts_ofAutomaton conflictFree found t) (shift_candidate wellFormed found stepped))

/-- Without conflicts, a production that has been recognised is reduced on what can follow. -/
theorem parser_reduce {before after : List Symbol} {p : ProductionId} {production : Production}
    (path : (Automaton.build g).follow? initialState before = some id)
    (listed : g.productions[p]? = some production)
    (valid : g.Valid before ⟨p, production.right.size⟩ after) (begins : g.Begins after t) :
    (g.parser defaultReductions).action id look =
      .reduce p (.nonterminal production.left) production.right.size := by
  rw [← Core.right_of_listed listed] at valid
  have decided := Table.decideAction_of_reduction
    (Table.conflicts_ofAutomaton conflictFree found t)
    (candidate_of_valid wellFormed found path valid begins)
  rw [parser_of_decided found question decided, Table.respond, listed]

end ConflictFree

theorem parser_accept (conflictFree : (g.generate defaultReductions).table.conflicts = [])
    (found : (Automaton.build g).states[id]? = some state)
    (question : asked look = some endTerminal)
    (accepting : (Automaton.build g).accepting? g = some id) :
    (g.parser defaultReductions).action id look = .accept :=
  parser_of_decided found question (Table.decideAction_of_shift
    (Table.conflicts_ofAutomaton conflictFree found endTerminal) (accept_candidate accepting))

end Lalr
