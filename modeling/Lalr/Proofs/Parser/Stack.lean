import Lalr.Proofs.Parser.Run
import Lalr.Proofs.Table.Answers

/-!
# The stacks of a parser

While a parser of a grammar runs, its states are those on the path that the symbols of its items
spell through the automaton.  Reductions find the right-hand side of their production on top of the
items, and the goto that follows them never fails.  The only failures are therefore refused tokens.

`Outcome` lists what one step can do, and `step_outcome` shows that there is nothing else.
-/

namespace Lalr

/-- The states are those on the path that the symbols spell, both with the last one first. -/
inductive Spells (automaton : Automaton) : List StateId → List Symbol → Prop
  | start : Spells automaton [initialState] []
  | push {id target : StateId} {below : List StateId} {symbol : Symbol} {symbols : List Symbol}
      (spelled : Spells automaton (id :: below) symbols)
      (stepped : automaton.step? id symbol = some target) :
      Spells automaton (target :: id :: below) (symbol :: symbols)

namespace Spells

variable {automaton : Automaton} {states : List StateId} {symbols : List Symbol}

theorem exists_top (spelled : Spells automaton states symbols) :
    ∃ id below, states = id :: below ∧
      automaton.follow? initialState symbols.reverse = some id := by
  induction spelled with
  | start => exact ⟨initialState, [], rfl, rfl⟩
  | @push id target below symbol symbols _ stepped ih =>
      obtain ⟨top, rest, same, path⟩ := ih
      cases same
      refine ⟨target, id :: below, rfl, ?_⟩
      rw [List.reverse_cons]
      exact Automaton.follow?_concat.2 ⟨id, path, stepped⟩

theorem path {id : StateId} {below : List StateId}
    (spelled : Spells automaton (id :: below) symbols) :
    automaton.follow? initialState symbols.reverse = some id := by
  obtain ⟨top, rest, same, path⟩ := spelled.exists_top
  cases same
  exact path

theorem length (spelled : Spells automaton states symbols) :
    states.length = symbols.length + 1 := by
  induction spelled with
  | start => rfl
  | push _ _ ih => simpa using ih

theorem drop (spelled : Spells automaton states symbols) {count : Nat}
    (inside : count ≤ symbols.length) :
    Spells automaton (states.drop count) (symbols.drop count) := by
  induction spelled generalizing count with
  | start =>
      have none_left : count = 0 := Nat.le_zero.1 inside
      rw [none_left]
      exact .start
  | push spelled stepped ih =>
      cases count with
      | zero => exact spelled.push stepped
      | succ count => exact ih (Nat.le_of_succ_le_succ inside)

end Spells

open Parser.Machine (pending)

variable {g : Grammar} {defaultReductions : Bool} {machine : Parser.Machine StateId Symbol}
  {input : Parser.Input Symbol} {tokens : List (Parser.Token Symbol)}

/-- The symbols of a machine's items, the last one first. -/
def Parser.Machine.symbols (machine : Parser.Machine StateId Symbol) : List Symbol :=
  machine.items.map Parser.Item.symbol

/-- The states of the machine are those that its items spell.  Right after a reduction, they are once
the goto is done. -/
inductive Tracks (automaton : Automaton) : Parser.Machine StateId Symbol → Prop
  | reading {states : List StateId} {items : List (Parser.Item Symbol)}
      {peeked : Option (Parser.Token Symbol)}
      (spelled : Spells automaton states (items.map Parser.Item.symbol)) :
      Tracks automaton ⟨states, items, .reading, peeked⟩
  | pendingGoto {id target : StateId} {below : List StateId} {n : NonterminalId}
      {items : List (Parser.Item Symbol)} {peeked : Option (Parser.Token Symbol)}
      (spelled : Spells automaton (id :: below) (items.map Parser.Item.symbol))
      (stepped : automaton.step? id (.nonterminal n) = some target) :
      Tracks automaton ⟨id :: below, .node (.nonterminal n) :: items, .pendingGoto, peeked⟩
  | accepted {states : List StateId} {items : List (Parser.Item Symbol)}
      {peeked : Option (Parser.Token Symbol)} :
      Tracks automaton ⟨states, items, .accepted, peeked⟩

/-- What a parser of the grammar reports in a number of runs on tokens, and where it is left. -/
def Grammar.parse (g : Grammar) (defaultReductions : Bool) (tokens : List (Parser.Token Symbol))
    (count : Nat) : List (Parser.Result Symbol ProductionId) × Parser.Machine StateId Symbol ×
      Parser.Input Symbol :=
  Parser.Machine.runs (g.parser defaultReductions) count (.start (g.parser defaultReductions))
    (tokens.map .ok)

theorem tracks_start (g : Grammar) (defaultReductions : Bool) :
    Tracks (Automaton.build g) (Parser.Machine.start (g.parser defaultReductions)) :=
  .reading .start

/-! ## Steps -/

/-- What a step can do while the given tokens wait. -/
inductive Outcome (g : Grammar) (tokens : List (Parser.Token Symbol)) (input : Parser.Input Symbol) :
    Parser.Machine StateId Symbol → Parser.Step StateId Symbol ProductionId → Prop
  | goto {states : List StateId} {target : StateId} {items : List (Parser.Item Symbol)}
      {peeked : Option (Parser.Token Symbol)}
      (spelled : Spells (Automaton.build g) (target :: states) (items.map Parser.Item.symbol)) :
      Outcome g tokens input ⟨states, items, .pendingGoto, peeked⟩
        (.next ⟨target :: states, items, .reading, peeked⟩ input)
  | shift {states : List StateId} {target : StateId} {items : List (Parser.Item Symbol)}
      {peeked : Option (Parser.Token Symbol)} {token : Parser.Token Symbol}
      {rest : List (Parser.Token Symbol)} (first : tokens = token :: rest)
      (spelled : Spells (Automaton.build g) (target :: states)
        (token.symbol :: items.map Parser.Item.symbol)) :
      Outcome g tokens input ⟨states, items, .reading, peeked⟩
        (.next ⟨target :: states, .token token :: items, .reading, none⟩ (rest.map .ok))
  | reduce {states left : List StateId} {arguments below : List (Parser.Item Symbol)}
      {peeked : Option (Parser.Token Symbol)} {p : ProductionId} {production : Production}
      (listed : g.productions[p]? = some production)
      (recognised : arguments.map Parser.Item.symbol = production.right.toList)
      (tracked : Tracks (Automaton.build g)
        ⟨left, .node (.nonterminal production.left) :: below, .pendingGoto, tokens.head?⟩) :
      Outcome g tokens input ⟨states, arguments.reverse ++ below, .reading, peeked⟩
        (.stop (.ok (.reduce p arguments))
          ⟨left, .node (.nonterminal production.left) :: below, .pendingGoto, tokens.head?⟩
          (tokens.tail.map .ok))
  | accept {states : List StateId} {top : Parser.Item Symbol}
      {peeked : Option (Parser.Token Symbol)} (start : top.symbol = .nonterminal g.start)
      (ended : asked (tokens.head?.map Parser.Token.symbol) = some endTerminal) :
      Outcome g tokens input ⟨states, [top], .reading, peeked⟩
        (.stop (.ok (.accept top)) ⟨states, [], .accepted, tokens.head?⟩ (tokens.tail.map .ok))
  | refuse {id : StateId} {below : List StateId} {items : List (Parser.Item Symbol)}
      {peeked : Option (Parser.Token Symbol)}
      (spelled : Spells (Automaton.build g) (id :: below) (items.map Parser.Item.symbol)) :
      Outcome g tokens input ⟨id :: below, items, .reading, peeked⟩
        (.stop (.error (.refused .unexpectedSymbol)) ⟨id :: below, items, .reading, tokens.head?⟩
          (tokens.tail.map .ok))
  | finished {states : List StateId} {items : List (Parser.Item Symbol)}
      {peeked : Option (Parser.Token Symbol)} :
      Outcome g tokens input ⟨states, items, .accepted, peeked⟩
        (.stop (.error .alreadyAccepted) ⟨states, items, .accepted, peeked⟩ input)

/-- A reduction finds its right-hand side on the stacks. -/
theorem perform_reduce (wellFormed : g.WellFormed) {id : StateId} {below : List StateId}
    {items : List (Parser.Item Symbol)} {peeked : Option (Parser.Token Symbol)}
    {p : ProductionId} {production : Production}
    (spelled : Spells (Automaton.build g) (id :: below) (items.map Parser.Item.symbol))
    (listed : g.productions[p]? = some production)
    (complete : (Automaton.build g).HasCore id ⟨p, production.right.size⟩) :
    ∃ arguments left states, items = arguments.reverse ++ left ∧
      arguments.map Parser.Item.symbol = production.right.toList ∧
      Tracks (Automaton.build g)
        ⟨states, .node (.nonterminal production.left) :: left, .pendingGoto, peeked⟩ ∧
      Parser.Machine.perform ⟨id :: below, items, .reading, peeked⟩ input
          (.reduce p (.nonterminal production.left) production.right.size) =
        .stop (.ok (.reduce p arguments))
          ⟨states, .node (.nonterminal production.left) :: left, .pendingGoto, peeked⟩ input := by
  have canonical := Automaton.canonical_build wellFormed
  obtain ⟨front, middle, target, whole, shorter, stepped⟩ :=
    canonical.exists_goto wellFormed spelled.path listed complete
  have symbols : items.map Parser.Item.symbol =
      production.right.toList.reverse ++ front.reverse := by
    rw [← List.reverse_append, ← whole, List.reverse_reverse]
  have size : production.right.toList.reverse.length = production.right.size := by simp
  have enough : production.right.size ≤ (items.map Parser.Item.symbol).length := by
    rw [symbols, List.length_append, size]
    omega
  have fits : ¬ (items.length < production.right.size ∨
      (id :: below).length ≤ production.right.size) := by
    have stacked := spelled.length
    rw [List.length_map] at enough stacked
    omega
  have spelledBelow := spelled.drop enough
  have belowSymbols : (items.map Parser.Item.symbol).drop production.right.size =
      front.reverse := by
    rw [symbols, List.drop_left' size]
  obtain ⟨top, rest, statesEq, path⟩ := spelledBelow.exists_top
  rw [belowSymbols, List.reverse_reverse, shorter] at path
  cases path
  rw [statesEq, ← List.map_drop] at spelledBelow
  refine ⟨(items.take production.right.size).reverse, items.drop production.right.size,
    middle :: rest, ?_, ?_, .pendingGoto spelledBelow stepped, ?_⟩
  · rw [List.reverse_reverse, List.take_append_drop]
  · rw [List.map_reverse, List.map_take, symbols, List.take_left' size, List.reverse_reverse]
  · simp only [Parser.Machine.perform, if_neg fits, statesEq]

theorem symbol_of_asked {symbol : Symbol} {t : TerminalId}
    (question : asked (some symbol) = some t) : symbol = .terminal t := by
  cases symbol with
  | terminal u =>
      cases question
      rfl
  | nonterminal n => cases question

theorem nonterminal_of_asked {symbol : Symbol} (question : asked (some symbol) = none) :
    ∃ n, symbol = .nonterminal n := by
  cases symbol with
  | terminal u => cases question
  | nonterminal n => exact ⟨n, rfl⟩

/-- The goto after a reduction does not fail. -/
theorem step_goto (wellFormed : g.WellFormed) {id target : StateId} {below : List StateId}
    {n : NonterminalId} {items : List (Parser.Item Symbol)}
    {peeked : Option (Parser.Token Symbol)}
    (spelled : Spells (Automaton.build g) (id :: below) (items.map Parser.Item.symbol))
    (stepped : (Automaton.build g).step? id (.nonterminal n) = some target) :
    Parser.Machine.step (g.parser defaultReductions)
        ⟨id :: below, .node (.nonterminal n) :: items, .pendingGoto, peeked⟩ input =
      .next ⟨target :: id :: below, .node (.nonterminal n) :: items, .reading, peeked⟩ input := by
  obtain ⟨state, found⟩ := (Automaton.canonical_build wellFormed).exists_state spelled.path
  simp only [Parser.Machine.step, Parser.Item.symbol, parser_goto found, stepped]
  rfl

theorem reading_outcome (wellFormed : g.WellFormed) {states : List StateId}
    {items : List (Parser.Item Symbol)} {peeked : Option (Parser.Token Symbol)}
    (spelled : Spells (Automaton.build g) states (items.map Parser.Item.symbol))
    (waiting : pending ⟨states, items, .reading, peeked⟩ input = tokens.map .ok) :
    Outcome g tokens input ⟨states, items, .reading, peeked⟩
      (Parser.Machine.step (g.parser defaultReductions) ⟨states, items, .reading, peeked⟩
        input) := by
  have canonical := Automaton.canonical_build wellFormed
  obtain ⟨id, below, rfl, path⟩ := spelled.exists_top
  obtain ⟨state, found⟩ := canonical.exists_state path
  rw [Parser.Machine.step_of_reading waiting rfl rfl]
  cases question : asked (tokens.head?.map Parser.Token.symbol) with
  | some t =>
      have answered : Answers g id t ((g.parser defaultReductions).action id
          (tokens.head?.map Parser.Token.symbol)) := parser_answers wellFormed found question
      generalize (g.parser defaultReductions).action id
        (tokens.head?.map Parser.Token.symbol) = response at answered ⊢
      cases answered with
      | shift stepped =>
          cases tokens with
          | nil =>
              cases question
              exact absurd rfl (canonical.exists_next_of_step stepped).1
          | cons token rest =>
              have same := symbol_of_asked question
              rw [← same] at stepped
              exact .shift rfl (spelled.push stepped)
      | accept accepting ended =>
          subst ended
          have reversed := canonical.path_of_accepting wellFormed accepting path
          rw [List.reverse_eq_iff, List.reverse_singleton, List.map_eq_singleton_iff] at reversed
          obtain ⟨top, rfl, start⟩ := reversed
          exact .accept start question
      | reduce listed complete =>
          obtain ⟨arguments, left, states, rfl, recognised, tracked, performed⟩ :=
            perform_reduce wellFormed spelled listed complete
          rw [performed]
          exact .reduce listed recognised tracked
      | refuse => exact .refuse spelled
  | none =>
      cases tokens with
      | nil => cases question
      | cons token rest =>
          obtain ⟨n, same⟩ := nonterminal_of_asked question
          rw [List.head?_cons, Option.map_some, same, parser_goto found]
          cases led : (Automaton.build g).step? id (.nonterminal n) with
          | none => exact .refuse spelled
          | some target =>
              rw [← same] at led
              exact .shift rfl (spelled.push led)

/-- A machine whose table answers to reduce does so. -/
theorem next_of_reduce (wellFormed : g.WellFormed) {id : StateId} {below : List StateId}
    {items : List (Parser.Item Symbol)} {peeked : Option (Parser.Token Symbol)} {t : TerminalId}
    {p : ProductionId} {production : Production}
    (spelled : Spells (Automaton.build g) (id :: below) (items.map Parser.Item.symbol))
    (waiting : pending ⟨id :: below, items, .reading, peeked⟩ input = tokens.map .ok)
    (question : asked (tokens.head?.map Parser.Token.symbol) = some t)
    (listed : g.productions[p]? = some production)
    (answered : (g.parser defaultReductions).action id (tokens.head?.map Parser.Token.symbol) =
      .reduce p (.nonterminal production.left) production.right.size) :
    ∃ arguments left states, items = arguments.reverse ++ left ∧
      arguments.map Parser.Item.symbol = production.right.toList ∧
      Tracks (Automaton.build g)
        ⟨states, .node (.nonterminal production.left) :: left, .pendingGoto, tokens.head?⟩ ∧
      Parser.Machine.next (g.parser defaultReductions) ⟨id :: below, items, .reading, peeked⟩
          input =
        (.ok (.reduce p arguments),
          ⟨states, .node (.nonterminal production.left) :: left, .pendingGoto, tokens.head?⟩,
          tokens.tail.map .ok) := by
  obtain ⟨state, found⟩ := (Automaton.canonical_build wellFormed).exists_state spelled.path
  obtain ⟨again, listed', _, _, complete⟩ :=
    exists_listed_of_reduce wellFormed found ((parser_asked question).symm.trans answered)
  rw [listed] at listed'
  cases listed'
  obtain ⟨arguments, left, states, same, recognised, tracked, performed⟩ :=
    perform_reduce wellFormed spelled listed complete
  refine ⟨arguments, left, states, same, recognised, tracked, Parser.Machine.next_of_stop ?_⟩
  rw [Parser.Machine.step_of_reading waiting rfl rfl, answered]
  exact performed

/-- There is nothing else that a step can do. -/
theorem step_outcome (wellFormed : g.WellFormed) (tracked : Tracks (Automaton.build g) machine)
    (waiting : machine.pending input = tokens.map .ok)
    {step : Parser.Step StateId Symbol ProductionId}
    (stepped : machine.step (g.parser defaultReductions) input = step) :
    Outcome g tokens input machine step := by
  subst stepped
  cases tracked with
  | reading spelled => exact reading_outcome wellFormed spelled waiting
  | pendingGoto spelled led =>
      rw [step_goto wellFormed spelled led]
      exact .goto (spelled.push led)
  | accepted => exact .finished

/-- The stacks are in order, and nothing but tokens waits. -/
structure InOrder (g : Grammar) (machine : Parser.Machine StateId Symbol)
    (input : Parser.Input Symbol) : Prop where
  tracked : Tracks (Automaton.build g) machine
  waiting : ∃ tokens : List (Parser.Token Symbol), machine.pending input = tokens.map .ok

namespace InOrder

variable {machine' : Parser.Machine StateId Symbol} {input' : Parser.Input Symbol}

theorem next (wellFormed : g.WellFormed) (inOrder : InOrder g machine input)
    (stepped : machine.step (g.parser defaultReductions) input = .next machine' input') :
    InOrder g machine' input' := by
  obtain ⟨tracked, tokens, waiting⟩ := inOrder
  cases step_outcome wellFormed tracked waiting stepped with
  | goto spelled => exact ⟨.reading spelled, tokens, waiting⟩
  | shift first spelled => exact ⟨.reading spelled, _, rfl⟩

theorem stop (wellFormed : g.WellFormed) (inOrder : InOrder g machine input)
    {result : Parser.Result Symbol ProductionId}
    (stepped : machine.step (g.parser defaultReductions) input = .stop result machine' input') :
    InOrder g machine' input' ∧
      (machine'.phase ≠ .accepted → ∀ argument, result ≠ .ok (.accept argument)) ∧
      (machine'.phase ≠ .accepted → machine.phase ≠ .accepted) := by
  obtain ⟨tracked, tokens, waiting⟩ := inOrder
  have waiting' := fun states items phase =>
    @Parser.Machine.pending_peeked StateId Symbol states items phase tokens
  cases step_outcome wellFormed tracked waiting stepped with
  | reduce _ _ reduced => exact ⟨⟨reduced, tokens, waiting' ..⟩, by simp, by simp⟩
  | accept _ _ => exact ⟨⟨.accepted, tokens, waiting' ..⟩, by simp, by simp⟩
  | refuse spelled => exact ⟨⟨.reading spelled, tokens, waiting' ..⟩, by simp, by simp⟩
  | finished => exact ⟨⟨.accepted, tokens, waiting⟩, by simp, by simp⟩

/-- A run leaves the stacks in order, and the machine knows whether it has accepted. -/
theorem run (wellFormed : g.WellFormed) (inOrder : InOrder g machine input)
    {result : Parser.Result Symbol ProductionId}
    (ran : machine.next (g.parser defaultReductions) input = (result, machine', input')) :
    InOrder g machine' input' ∧
      (machine'.phase ≠ .accepted → ∀ argument, result ≠ .ok (.accept argument)) ∧
      (machine'.phase ≠ .accepted → machine.phase ≠ .accepted) := by
  obtain ⟨last, rest, ⟨kept, phase⟩, stopped⟩ := Parser.Machine.exists_stop ran
    (fun last rest => InOrder g last rest ∧ (last.phase ≠ .accepted → machine.phase ≠ .accepted))
    (by
      intro last rest last' rest' kept stepped
      refine ⟨kept.1.next wellFormed stepped, fun _ => kept.2 ?_⟩
      intro finished
      simp [Parser.Machine.step, finished] at stepped)
    ⟨inOrder, id⟩
  obtain ⟨ordered, unaccepted, unfinished⟩ := kept.stop wellFormed stopped
  exact ⟨ordered, unaccepted, fun other => phase (unfinished other)⟩

end InOrder

end Lalr
