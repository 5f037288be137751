import Lalr.Proofs.Parser.Reductions
import Lalr.Proofs.Parser.Waiting

/-!
# Errors are found at the first bad token

Whatever a parser has shifted is the beginning of a form that the start symbol derives: the symbols
on its stack spell a path of the automaton, and such a path can always be completed.  On a table
without conflicts the converse holds as well.  A form with the given beginning can be completed from
nothing, and a parser does the reductions of this completion until the beginning has been shifted.

The form may have nonterminals that derive no word, so the beginning need not be that of a sentence.
-/

namespace Lalr

open Parser.Machine (pending)

variable {g : Grammar} {defaultReductions : Bool}

/-- Some of the tokens have been shifted, and the others wait. -/
theorem exists_shifted {tokens : List (Parser.Token Symbol)} {count : Nat}
    {results : List (Parser.Result Symbol ProductionId)}
    {machine : Parser.Machine StateId Symbol} {input : Parser.Input Symbol}
    (ran : g.parse defaultReductions tokens count = (results, machine, input)) :
    ∃ shifted ≤ tokens.length, machine.pending input = (tokens.drop shifted).map .ok := by
  obtain ⟨front, whole⟩ : machine.pending input <:+ tokens.map .ok :=
    Parser.Machine.pending_runs ran
  refine ⟨front.length, ?_, ?_⟩
  · have lengths := congrArg List.length whole
    rw [List.length_append, List.length_map] at lengths
    omega
  · rw [List.map_drop, ← whole, List.drop_left]

/-- What has been shifted can begin a form that the start symbol derives. -/
theorem exists_derives_of_shifted (wellFormed : g.WellFormed)
    {tokens : List (Parser.Token Symbol)} {word : List TerminalId}
    (carried : tokens.map Parser.Token.symbol = word.map .terminal) (inner : endTerminal ∉ word)
    {count shifted : Nat} {results : List (Parser.Result Symbol ProductionId)}
    {machine : Parser.Machine StateId Symbol} {input : Parser.Input Symbol}
    (ran : g.parse defaultReductions tokens count = (results, machine, input))
    (waiting : machine.pending input = (tokens.drop shifted).map .ok) :
    ∃ after, g.Derives [.nonterminal g.start] ((word.take shifted).map .terminal ++ after) := by
  have carriedBehind : (tokens.drop shifted).map Parser.Token.symbol =
      (word.drop shifted).map .terminal := by
    rw [List.map_drop, List.map_drop, carried]
  obtain ⟨_, parsing⟩ := parsing_runs wellFormed carried inner ran
  cases parsing with
  | @running behind rest tracked unfinished waiting' carried' _ _ derived =>
      obtain ⟨states, spelled, _⟩ :=
        @next_tracked g defaultReductions wellFormed machine tracked unfinished input
      obtain ⟨id, _, _, path⟩ := spelled.exists_top
      obtain ⟨after, completes⟩ :=
        (Automaton.canonical_build wellFormed).exists_completes wellFormed path
      -- What is on the stack derives what has been shifted.
      obtain ⟨front, back, whole, first, second⟩ := derived.derives.split
      have same : behind = tokens.drop shifted :=
        List.map_injective_iff.2 (fun _ _ => Except.ok.inj) (waiting'.symm.trans waiting)
      have split : (word.take shifted).map Symbol.terminal ++ (word.drop shifted).map .terminal =
          front ++ (word.drop shifted).map .terminal := by
        rw [← List.map_append, List.take_append_drop, whole, second.of_terminals, ← carried', same,
          carriedBehind]
      rw [List.append_cancel_right split]
      exact ⟨after, completes.derives.trans (first.append_right after)⟩
  | accepted finished nothing derived =>
      rw [nothing] at waiting
      have ended := List.map_eq_nil_iff.1 waiting.symm
      rw [ended, List.map_nil, eq_comm, List.map_eq_nil_iff, List.drop_eq_nil_iff] at carriedBehind
      refine ⟨[], ?_⟩
      rw [List.take_of_length_le carriedBehind, List.append_nil]
      exact derived.derives

section ConflictFree

variable (wellFormed : g.WellFormed)
  (conflictFree : (g.generate defaultReductions).table.conflicts = [])

include wellFormed conflictFree

/-- A token that a completion reads is shifted. -/
theorem next_of_completes {machine : Parser.Machine StateId Symbol} {input : Parser.Input Symbol}
    {token : Parser.Token Symbol} {tokens : List (Parser.Token Symbol)} {t : TerminalId}
    {rest : List Symbol} (tracked : Tracks (Automaton.build g) machine)
    (unfinished : machine.phase ≠ .accepted)
    (waiting : machine.pending input = (token :: tokens).map .ok)
    (carried : token.symbol = .terminal t)
    (completes : g.Completes (machine.symbols.reverse ++ [.terminal t]) rest) :
    ∃ machine' input', machine.next (g.parser defaultReductions) input =
        Parser.Machine.next (g.parser defaultReductions) machine' input' ∧
      Tracks (Automaton.build g) machine' ∧ machine'.phase ≠ .accepted ∧
      machine'.symbols = .terminal t :: machine.symbols ∧
      machine'.pending input' = tokens.map .ok := by
  have canonical := Automaton.canonical_build wellFormed
  obtain ⟨states, spelled, goesOn⟩ :=
    @next_tracked g defaultReductions wellFormed machine tracked unfinished input
  obtain ⟨id, below, rfl, path⟩ := spelled.exists_top
  obtain ⟨state, found⟩ := canonical.exists_state path
  obtain ⟨target, stepped⟩ := canonical.exists_step wellFormed path completes
  have question : asked (some token.symbol) = some t := by
    rw [carried]
    rfl
  have answered := parser_shift wellFormed conflictFree found question stepped
  have silent := @Parser.Machine.step_of_reading _ _ _ (g.parser defaultReductions)
    ⟨id :: below, machine.items, .reading, machine.peeked⟩ _ _ waiting rfl _ _ rfl
  rw [List.head?_cons, Option.map_some, answered] at silent
  rw [← carried] at stepped
  refine ⟨⟨target :: id :: below, .token token :: machine.items, .reading, none⟩, tokens.map .ok,
    goesOn.trans (Parser.Machine.next_of_silent silent), .reading (spelled.push stepped), by simp,
    ?_, rfl⟩
  rw [← carried]
  rfl

/-- A parser shifts the terminals that come first in what completes its symbols. -/
theorem shifts_of_completes {before after : List Symbol} {word more : List TerminalId}
    {machine : Parser.Machine StateId Symbol} {input : Parser.Input Symbol}
    {tokens : List (Parser.Token Symbol)} (tracked : Tracks (Automaton.build g) machine)
    (unfinished : machine.phase ≠ .accepted) (waiting : machine.pending input = tokens.map .ok)
    (carried : tokens.map Parser.Token.symbol = (word ++ more).map .terminal)
    (stacked : machine.symbols.reverse = before)
    (completes : g.Completes before (word.map .terminal ++ after)) :
    ∃ count results machine' input',
      Parser.Machine.runs (g.parser defaultReductions) (count + 1) machine input =
        (results, machine', input') ∧
      machine'.pending input' <:+ (tokens.drop word.length).map .ok := by
  -- Where there is nothing to shift, a single run will do.
  have nothing : ∀ (machine : Parser.Machine StateId Symbol) (input : Parser.Input Symbol),
      ∃ count results machine' input',
        Parser.Machine.runs (g.parser defaultReductions) (count + 1) machine input =
          (results, machine', input') ∧ machine'.pending input' <:+ machine.pending input := by
    intro machine input
    rcases ran : Parser.Machine.runs (g.parser defaultReductions) 1 machine input with
      ⟨results, machine', input'⟩
    exact ⟨0, results, machine', input', ran, Parser.Machine.pending_runs ran⟩
  generalize whole : word.map Symbol.terminal ++ after = rest at completes
  induction completes generalizing word machine input tokens with
  | done =>
      obtain ⟨none_left, _⟩ := List.append_eq_nil_iff.1 whole
      rw [List.map_eq_nil_iff.1 none_left, List.length_nil, List.drop_zero, ← waiting]
      exact nothing machine input
  | read later ih =>
      cases word with
      | nil =>
          rw [List.length_nil, List.drop_zero, ← waiting]
          exact nothing machine input
      | cons t word =>
          rw [List.map_cons, List.cons_append, List.cons.injEq] at whole
          obtain ⟨rfl, rest⟩ := whole
          obtain ⟨token, behind, rfl, symbol, carriedBehind⟩ := List.map_eq_cons_iff.1 carried
          rw [← stacked] at later
          obtain ⟨middle, left, same, tracked', unfinished', symbols, waiting'⟩ :=
            next_of_completes wellFormed conflictFree tracked unfinished waiting symbol later
          obtain ⟨count, results, machine', input', ran, suffix⟩ :=
            ih tracked' unfinished' waiting' carriedBehind
              (by rw [symbols, List.reverse_cons, stacked]) rest
          rw [Parser.Machine.runs_first, ← same, ← Parser.Machine.runs_first] at ran
          exact ⟨count, results, machine', input', ran, suffix⟩
  | @contract _ _ rest contracted later ih =>
      cases word with
      | nil =>
          rw [List.length_nil, List.drop_zero, ← waiting]
          exact nothing machine input
      | cons t word =>
          have leads : Grammar.Leads t rest := by
            rw [← whole]
            rfl
          have question := asked_of_carried carried
          have reduces := reduces_of_contracts wellFormed conflictFree Automaton.follow?_nil
            contracted later leads
          obtain ⟨p, arguments, middle, left, next, tracked', unfinished', stacked', waiting'⟩ :=
            next_of_reduces wellFormed tracked unfinished waiting question stacked reduces
          obtain ⟨count, results, machine', input', ran, suffix⟩ :=
            ih tracked' unfinished' waiting' carried stacked' whole
          refine ⟨count + 1, .ok (.reduce p arguments) :: results, machine', input', ?_, suffix⟩
          rw [Parser.Machine.runs_first, next, ran]

/-- Tokens that can begin a form that the start symbol derives are shifted. -/
theorem exists_shifted_of_derives {tokens : List (Parser.Token Symbol)} {word : List TerminalId}
    (carried : tokens.map Parser.Token.symbol = word.map .terminal) {length : Nat}
    {after : List Symbol} (inside : length ≤ tokens.length)
    (derived : g.Derives [.nonterminal g.start] ((word.take length).map .terminal ++ after)) :
    ∃ count results machine input shifted,
      g.parse defaultReductions tokens count = (results, machine, input) ∧
        machine.pending input = (tokens.drop shifted).map .ok ∧ length ≤ shifted ∧
        shifted ≤ tokens.length := by
  have sameLength : tokens.length = word.length := by
    simpa using congrArg List.length carried
  obtain ⟨count, results, machine, input, ran, suffix⟩ := shifts_of_completes wellFormed conflictFree
    (tracks_start g defaultReductions) (by simp [Parser.Machine.start]) rfl
    (carried.trans (by rw [List.take_append_drop])) rfl derived.completes
  obtain ⟨shifted, most, waiting⟩ := exists_shifted ran
  refine ⟨count + 1, results, machine, input, shifted, ran, waiting, ?_, most⟩
  have shorter := suffix.length_le
  rw [waiting, List.length_map, List.length_map, List.length_drop, List.length_drop,
    List.length_take] at shorter
  omega

end ConflictFree

/-- At any time, all that has been shifted can begin a form that the start symbol derives.  With a
table without conflicts, all tokens that can begin such a form are shifted. -/
theorem errors_at_first_bad_token (defined : g.IsDefined) (defaultReductions : Bool)
    {tokens : List (Parser.Token Symbol)} {word : List TerminalId}
    (carried : tokens.map Parser.Token.symbol = word.map .terminal)
    (user : ∀ t ∈ word, g.Declares (.terminal t)) :
    (∀ count results machine input,
      g.parse defaultReductions tokens count = (results, machine, input) →
      ∃ shifted ≤ tokens.length, machine.pending input = (tokens.drop shifted).map .ok ∧
        ∀ length ≤ shifted, ∃ after, (∀ symbol ∈ after, g.Declares symbol) ∧
          g.Derives [.nonterminal g.start] ((word.take length).map .terminal ++ after)) ∧
    ((g.generate defaultReductions).table.conflicts = [] →
      ∀ length ≤ tokens.length, ∀ after,
        g.Derives [.nonterminal g.start] ((word.take length).map .terminal ++ after) →
        ∃ count results machine input shifted,
          g.parse defaultReductions tokens count = (results, machine, input) ∧
            machine.pending input = (tokens.drop shifted).map .ok ∧ length ≤ shifted ∧
            shifted ≤ tokens.length) := by
  have wellFormed := defined.wellFormed
  have inner : endTerminal ∉ word := fun member => (user _ member).1 rfl
  constructor
  · intro count results machine input ran
    obtain ⟨shifted, inside, waiting⟩ := exists_shifted ran
    obtain ⟨after, derived⟩ := exists_derives_of_shifted wellFormed carried inner ran waiting
    refine ⟨shifted, inside, waiting, ?_⟩
    -- Of what has been shifted, any part may be taken for what follows.
    intro length most
    refine ⟨((word.take shifted).drop length).map .terminal ++ after, ?_, ?_⟩
    · intro symbol member
      refine wellFormed.declares_of_derives derived symbol ?_
      rw [List.map_drop, List.mem_append] at member
      exact List.mem_append.2 (member.imp_left List.mem_of_mem_drop)
    · rwa [← List.append_assoc, ← List.map_append, ← Nat.min_eq_left most, ← List.take_take,
        Nat.min_eq_left most, List.take_append_drop]
  · intro conflictFree length inside after derived
    exact exists_shifted_of_derives wellFormed conflictFree carried inside derived

/-- Of an opening bracket and two closing ones, the first two are shifted. -/
theorem errors_at_first_bad_token_brackets :
    ∃ count results machine input shifted,
      Grammar.brackets.parse true [⟨.terminal 1, "("⟩, ⟨.terminal 2, ")"⟩, ⟨.terminal 2, ")"⟩]
          count = (results, machine, input) ∧
        machine.pending input = ([⟨.terminal 1, "("⟩, ⟨.terminal 2, ")"⟩,
          ⟨.terminal 2, ")"⟩].drop shifted).map .ok ∧ 2 ≤ shifted ∧ shifted ≤ 3 := by
  have outer : Grammar.brackets.Rewrites [.nonterminal 1]
      [.terminal 1, .nonterminal 1, .terminal 2] :=
    @Grammar.Rewrites.replace .brackets 1
      ⟨1, #[.terminal 1, .nonterminal 1, .terminal 2], none⟩ [] [] rfl
  have inner : Grammar.brackets.Rewrites [.terminal 1, .nonterminal 1, .terminal 2]
      [.terminal 1, .terminal 2] :=
    @Grammar.Rewrites.replace .brackets 2 ⟨1, #[], none⟩ [.terminal 1] [.terminal 2] rfl
  have derived : Grammar.brackets.Derives [.nonterminal 1] [.terminal 1, .terminal 2] :=
    .tail (.single outer) inner
  exact (@errors_at_first_bad_token _ Grammar.isDefined_brackets true
    [⟨.terminal 1, "("⟩, ⟨.terminal 2, ")"⟩, ⟨.terminal 2, ")"⟩] [1, 2, 2] rfl
    (by simp [Grammar.Declares, Grammar.brackets, endTerminal])).2 (by decide +kernel) 2
    (by decide) [] derived

end Lalr
