import Lalr.Proofs.Grammar.Completion
import Lalr.Proofs.Parser.Completeness

/-!
# Reductions on one terminal

While a terminal waits, a parser only reduces.  `Reduces` follows the symbols on its stack, as far
back as a given state; what lies below does not matter until a reduction reaches it.

On a table without conflicts, a parser does the reductions of every completion that begins with the
terminal that waits.  They come to an end, since completions are finite.  Conversely a reduction,
whether done by default or not, is part of some completion, though perhaps of other symbols and on
another terminal.
-/

namespace Lalr

open Relation (TransGen)

namespace Automaton.Canonical

variable {g : Grammar} {automaton : Automaton}

/-- Where a completion reads a terminal, the automaton has a step. -/
theorem exists_step (canonical : automaton.Canonical g) (wellFormed : g.WellFormed)
    {before rest : List Symbol} {t : TerminalId} {id : StateId}
    (path : automaton.follow? initialState before = some id)
    (completes : g.Completes (before ++ [.terminal t]) rest) :
    ∃ target, automaton.step? id (.terminal t) = some target := by
  obtain ⟨core, tail, valid, next⟩ := completes.exists_next wellFormed
  have inner : Symbol.terminal t ≠ .terminal endTerminal := by
    intro ended
    have declared := completes.declares wellFormed (.terminal t) (by simp)
    exact declared.1 (Symbol.terminal.inj ended)
  obtain ⟨target, stepped, _⟩ :=
    canonical.hasCore_advance (canonical.hasCore_of_valid wellFormed valid path) next inner
  exact ⟨target, stepped⟩

/-- What spells a path can be completed. -/
theorem exists_completes (canonical : automaton.Canonical g) (wellFormed : g.WellFormed)
    {before : List Symbol} {id : StateId}
    (path : automaton.follow? initialState before = some id) :
    ∃ rest, g.Completes before rest := by
  cases before using List.reverseRecOn with
  | nil => exact ⟨_, .read .done⟩
  | append_singleton front symbol =>
      obtain ⟨middle, shorter, stepped⟩ := follow?_concat.1 path
      obtain ⟨inner, core, has, next⟩ := canonical.exists_next_of_step stepped
      obtain ⟨after, valid⟩ := canonical.valid_of_hasCore shorter has
      obtain ⟨first, production, listed, _, context, rfl⟩ := (Grammar.valid_iff wellFormed).1 valid
      have split : production.right.toList =
          production.right.toList.take core.dot ++ symbol :: core.rest g := by
        rw [← Core.suffix_of_next next, Core.suffix, Core.right_of_listed listed,
          List.take_append_drop]
      obtain ⟨rest, _, completes⟩ := context.completes_inside wellFormed listed split inner
        (context.completes wellFormed)
      exact ⟨rest, completes⟩

end Automaton.Canonical

/-- With the terminal waiting, a parser that has come along the symbols from a state reduces them. -/
inductive Reduces (g : Grammar) (setting : Bool) (t : TerminalId) (source : StateId) :
    List Symbol → List Symbol → Prop
  | intro {id : StateId} {p : ProductionId} {production : Production} {before : List Symbol}
      (listed : g.productions[p]? = some production)
      (path : (Automaton.build g).follow? source (before ++ production.right.toList) = some id)
      (answered : (g.parser setting).action id (some (.terminal t)) =
        .reduce p (.nonterminal production.left) production.right.size) :
      Reduces g setting t source (before ++ production.right.toList)
        (before ++ [.nonterminal production.left])

/-- Reductions of the symbols on the terminal come to an end. -/
def Ends (g : Grammar) (setting : Bool) (t : TerminalId) (source : StateId)
    (symbols : List Symbol) : Prop :=
  Acc (Function.swap (Reduces g setting t source)) symbols

variable {g : Grammar} {setting : Bool} {t : TerminalId} {source middle : StateId}
  {symbols next : List Symbol}

namespace Reduces

theorem contracts (reduces : Reduces g setting t source symbols next) :
    g.Contracts symbols next := by
  cases reduces with
  | intro listed _ _ => exact .replace _ listed

theorem exists_path (reduces : Reduces g setting t source symbols next) :
    ∃ id, (Automaton.build g).follow? source symbols = some id := by
  cases reduces with
  | intro _ path _ => exact ⟨_, path⟩

theorem next_eq (reduces : Reduces g setting t source symbols next) :
    ∃ before production, ∃ p : ProductionId, g.productions[p]? = some production ∧
      next = before ++ [.nonterminal production.left] := by
  cases reduces with
  | intro listed _ _ => exact ⟨_, _, _, listed, rfl⟩

theorem next_ne_nil (reduces : Reduces g setting t source symbols next) : next ≠ [] := by
  obtain ⟨_, _, _, _, rfl⟩ := reduces.next_eq
  simp

theorem of_nil (reduces : Reduces g setting t source symbols next) (nothing : symbols = []) :
    ∃ p production, g.productions[p]? = some production ∧ production.right.toList = [] ∧
      (g.parser setting).action source (some (.terminal t)) =
        .reduce p (.nonterminal production.left) production.right.size := by
  cases reduces with
  | intro listed path answered =>
      rw [nothing] at path
      cases path
      exact ⟨_, _, listed, (List.append_eq_nil_iff.1 nothing).2, answered⟩

/-- What lies below does not matter. -/
theorem append_left {front : List Symbol} (reduces : Reduces g setting t middle symbols next)
    (path : (Automaton.build g).follow? source front = some middle) :
    Reduces g setting t source (front ++ symbols) (front ++ next) := by
  cases reduces with
  | intro listed further answered =>
      rw [← List.append_assoc, ← List.append_assoc]
      refine .intro listed ?_ answered
      rw [List.append_assoc, Automaton.follow?_append, path]
      exact further

theorem transGen_append_left {front : List Symbol}
    (chain : TransGen (Reduces g setting t middle) symbols next)
    (path : (Automaton.build g).follow? source front = some middle) :
    TransGen (Reduces g setting t source) (front ++ symbols) (front ++ next) :=
  Relation.TransGen.lift (front ++ ·) (fun _ _ reduces => reduces.append_left path) _ _ chain

/-- A reduction that leaves the lower symbols alone depends only on the state above them. -/
theorem of_append {front : List Symbol}
    (reduces : Reduces g setting t source (front ++ symbols) next)
    (path : (Automaton.build g).follow? source front = some middle)
    (longer : front.length < next.length) :
    ∃ upper, next = front ++ upper ∧ Reduces g setting t middle symbols upper := by
  generalize whole : front ++ symbols = read at reduces
  cases reduces with
  | @intro id p production before listed further answered =>
      rw [List.length_append, List.length_singleton] at longer
      obtain ⟨gap, rfl, rfl⟩ : ∃ gap, before = front ++ gap ∧
          symbols = gap ++ production.right.toList := by
        rcases List.append_eq_append_iff.1 whole with ⟨gap, rfl, rfl⟩ | ⟨gap, rfl, right⟩
        · exact ⟨gap, rfl, rfl⟩
        · have none_over : gap = [] := by
            rw [List.length_append] at longer
            exact List.length_eq_zero_iff.1 (by omega)
          subst none_over
          exact ⟨[], by simp, by simpa using right.symm⟩
      refine ⟨gap ++ [.nonterminal production.left], List.append_assoc .., .intro listed ?_ answered⟩
      rw [List.append_assoc, Automaton.follow?_append, path] at further
      exact further

theorem unique {other : List Symbol} (reduces : Reduces g setting t source symbols next)
    (again : Reduces g setting t source symbols other) : next = other := by
  cases reduces with
  | @intro id p production before listed path answered =>
      generalize whole : before ++ production.right.toList = read at again
      cases again with
      | intro listed' path' answered' =>
          rw [whole, path'] at path
          cases path
          rw [answered'] at answered
          obtain ⟨rfl, _, _⟩ := Parser.Response.reduce.inj answered
          rw [listed'] at listed
          cases listed
          rw [List.append_cancel_right whole]

/-- A reduction is part of a completion that leads to the same state, on some terminal.  Without
default reductions, that is the terminal that waits. -/
theorem exists_completion (wellFormed : g.WellFormed) {id : StateId} {p : ProductionId}
    {production : Production} (listed : g.productions[p]? = some production)
    (answered : (g.parser setting).action id (some (.terminal t)) =
      .reduce p (.nonterminal production.left) production.right.size) :
    ∃ other front rest, (setting = false → other = t) ∧
      (Automaton.build g).follow? initialState (front ++ production.right.toList) = some id ∧
      g.Completes (front ++ [.nonterminal production.left]) rest ∧ Grammar.Leads other rest := by
  obtain ⟨other, same, before, after, path, valid, begins⟩ :=
    exists_follower wellFormed answered
  obtain ⟨front, again, listed', _, context, rfl⟩ := (Grammar.valid_iff wellFormed).1 valid
  rw [listed] at listed'
  cases listed'
  rw [Core.right_of_listed listed, ← Array.length_toList, List.take_length] at path
  have inner : production.left ≠ startNonterminal := by
    intro reserved
    rw [wellFormed.eq_acceptProduction listed reserved, wellFormed.augmented] at listed
    cases listed
    exact (Automaton.canonical_build wellFormed).end_not_mem_path path
      (by simp [Definition.augmented])
  obtain ⟨rest, completes, leads⟩ := context.completes_leading wellFormed inner begins
  exact ⟨other, front, rest, same, path, completes, leads⟩

end Reduces

/-! ## The reductions of a machine -/

/-- The right-hand side of a production that the table reduces is what has been read last. -/
theorem exists_reduces (wellFormed : g.WellFormed) {id : StateId} {p : ProductionId}
    {left : Symbol} {length : Nat}
    (path : (Automaton.build g).follow? initialState symbols = some id)
    (answered : (g.parser setting).action id (some (.terminal t)) = .reduce p left length) :
    ∃ next, Reduces g setting t initialState symbols next := by
  have canonical := Automaton.canonical_build wellFormed
  obtain ⟨state, found⟩ := canonical.exists_state path
  obtain ⟨production, listed, rfl, rfl, complete⟩ :=
    exists_listed_of_reduce wellFormed found answered
  obtain ⟨front, _, _, rfl, _⟩ := canonical.exists_goto wellFormed path listed complete
  exact ⟨_, .intro listed path answered⟩

/-- While the terminal waits, a machine reports the reduction of its symbols. -/
theorem next_of_reduces (wellFormed : g.WellFormed) {machine : Parser.Machine StateId Symbol}
    {input : Parser.Input Symbol} {tokens : List (Parser.Token Symbol)}
    (tracked : Tracks (Automaton.build g) machine) (unfinished : machine.phase ≠ .accepted)
    (waiting : machine.pending input = tokens.map .ok)
    (question : asked (tokens.head?.map Parser.Token.symbol) = some t)
    (stacked : machine.symbols.reverse = symbols)
    (reduces : Reduces g setting t initialState symbols next) :
    ∃ p arguments machine' input',
      machine.next (g.parser setting) input = (.ok (.reduce p arguments), machine', input') ∧
        Tracks (Automaton.build g) machine' ∧ machine'.phase ≠ .accepted ∧
        machine'.symbols.reverse = next ∧ machine'.pending input' = tokens.map .ok := by
  obtain ⟨states, spelled, goesOn⟩ :=
    @next_tracked g setting wellFormed machine tracked unfinished input
  cases reduces with
  | @intro id p production before listed path answered =>
      obtain ⟨top, below, rfl, onTop⟩ := spelled.exists_top
      rw [stacked, path] at onTop
      cases onTop
      obtain ⟨state, found⟩ := (Automaton.canonical_build wellFormed).exists_state path
      obtain ⟨_, again, _, _, complete⟩ := exists_listed_of_reduce wellFormed found answered
      rw [listed] at again
      cases again
      obtain ⟨arguments, left, states, split, recognised, reduced, performed⟩ :=
        @perform_reduce g (tokens.tail.map .ok) wellFormed _ _ _ _ _ _ spelled listed complete
      have stopped := @Parser.Machine.step_of_reading _ _ _ (g.parser setting)
        ⟨id :: below, machine.items, .reading, machine.peeked⟩ _ _ waiting rfl _ _ rfl
      rw [parser_asked question, answered] at stopped
      refine ⟨p, arguments, _, _,
        goesOn.trans (Parser.Machine.next_of_stop (stopped.trans performed)), reduced, by simp, ?_,
        Parser.Machine.pending_peeked tokens⟩
      rw [Parser.Machine.symbols, split, List.map_append, List.map_reverse, recognised,
        List.reverse_append, List.reverse_reverse, List.append_cancel_right_eq] at stacked
      rw [← stacked]
      simp [Parser.Machine.symbols, Parser.Item.symbol]

/-! ## Completions are followed -/

section ConflictFree

variable (wellFormed : g.WellFormed)
  (conflictFree : (g.generate setting).table.conflicts = [])

include wellFormed conflictFree

/-- A parser does the next step of a completion, if that is a reduction. -/
theorem reduces_of_contracts {front rest : List Symbol}
    (path : (Automaton.build g).follow? initialState front = some middle)
    (contracted : g.Contracts symbols next) (completes : g.Completes (front ++ next) rest)
    (leads : Grammar.Leads t rest) : Reduces g setting t middle symbols next := by
  have canonical := Automaton.canonical_build wellFormed
  cases contracted with
  | @replace p production before listed =>
      obtain ⟨tail, context, derived⟩ :=
        @Grammar.Completes.exists_context g wellFormed (front ++ before) [] rest production.left
          (by rwa [List.append_assoc])
      have valid := (context.valid wellFormed listed rfl).complete listed
      have inner : .terminal endTerminal ∉ front ++ before ++ production.right.toList := by
        intro member
        have whole : g.Completes (front ++ before ++ production.right.toList) rest :=
          .contract (.replace _ listed) (by rwa [List.append_assoc])
        exact (whole.declares wellFormed _ (List.mem_append_left _ member)).1 rfl
      obtain ⟨id, whole, _⟩ := canonical.path_of_valid wellFormed valid inner
      obtain ⟨state, found⟩ := canonical.exists_state whole
      have question : asked (some (.terminal t)) = some t := rfl
      have answered := parser_reduce wellFormed conflictFree found question whole listed valid
        (leads.begins.of_derives derived)
      refine .intro listed ?_ answered
      rw [List.append_assoc, Automaton.follow?_append, path] at whole
      exact whole

theorem reduces_of_chain {front rest : List Symbol}
    (path : (Automaton.build g).follow? initialState front = some middle)
    (chain : TransGen g.Contracts symbols next) (completes : g.Completes (front ++ next) rest)
    (leads : Grammar.Leads t rest) :
    TransGen (Reduces g setting t middle) symbols next ∧ g.Completes (front ++ symbols) rest := by
  induction chain using TransGen.head_induction_on with
  | single contracted =>
      exact ⟨.single (reduces_of_contracts wellFormed conflictFree path contracted completes leads),
        .contract (contracted.append_left front) completes⟩
  | head contracted _ ih =>
      obtain ⟨reduces, later⟩ := ih
      exact ⟨.head (reduces_of_contracts wellFormed conflictFree path contracted later leads) reduces,
        .contract (contracted.append_left front) later⟩

/-- A completion has finitely many reductions before it reads the terminal or is done. -/
theorem ends_of_completes {rest : List Symbol} (completes : g.Completes symbols rest)
    (leads : Grammar.Leads t rest) : Ends g setting t initialState symbols := by
  have canonical := Automaton.canonical_build wellFormed
  induction completes with
  | done =>
      -- The end of input is accepted.
      cases leads
      constructor
      intro next reduces
      generalize start : [Symbol.nonterminal g.start] = symbols at reduces
      cases reduces with
      | @intro id p production before listed path answered =>
          rw [← start] at path
          obtain ⟨state, found⟩ := canonical.exists_state path
          obtain ⟨target, stepped, same⟩ := Option.bind_eq_some_iff.1 path
          cases same
          rw [parser_accept conflictFree found rfl stepped] at answered
          cases answered
  | read later _ =>
      -- The terminal is shifted.
      cases leads
      constructor
      intro next reduces
      cases reduces with
      | intro listed path answered =>
          obtain ⟨state, found⟩ := canonical.exists_state path
          obtain ⟨target, stepped⟩ := canonical.exists_step wellFormed path later
          rw [parser_shift wellFormed conflictFree found rfl stepped] at answered
          cases answered
  | contract contracted later ih =>
      -- The parser can only do the reduction of the completion.
      constructor
      intro other reduces
      have followed := reduces_of_contracts wellFormed conflictFree Automaton.follow?_nil contracted
        later leads
      rw [reduces.unique followed]
      exact ih leads

end ConflictFree

end Lalr
