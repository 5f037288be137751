import Lalr.Proofs.Parser.Stack

/-!
# A parser accepts sentences only

At any time the symbols on the stack, followed by the tokens that wait, are a form from which the
reductions so far, read backwards, derive the word that was given.  A shift leaves this form as it is
and a reduction goes one step back in the derivation.  When the input is accepted, the form is the
start symbol.  Conflicts play no part in this, whichever way they are decided.
-/

namespace Lalr

variable {g : Grammar} {defaultReductions : Bool} {word : List TerminalId}
  {results : List (Parser.Result Symbol ProductionId)}
  {machine machine' : Parser.Machine StateId Symbol} {input input' : Parser.Input Symbol}

/-- The productions that were reduced, in the order of the reports. -/
def reduced (results : List (Parser.Result Symbol ProductionId)) : List ProductionId :=
  results.filterMap fun
    | .ok (.reduce p _) => some p
    | _ => none

/-- A reported reduction is of a right-hand side. -/
def Truthful (g : Grammar) (result : Parser.Result Symbol ProductionId) : Prop :=
  ∀ p arguments, result = .ok (.reduce p arguments) → ∃ production,
    g.productions[p]? = some production ∧
      arguments.map Parser.Item.symbol = production.right.toList

/-- What holds while a word is parsed, after the given reports. -/
inductive Parsing (g : Grammar) (word : List TerminalId)
    (results : List (Parser.Result Symbol ProductionId)) :
    Parser.Machine StateId Symbol → Parser.Input Symbol → Prop
  | running {machine : Parser.Machine StateId Symbol} {input : Parser.Input Symbol}
      {tokens : List (Parser.Token Symbol)} {rest : List TerminalId}
      (tracked : Tracks (Automaton.build g) machine) (unfinished : machine.phase ≠ .accepted)
      (waiting : machine.pending input = tokens.map .ok)
      (carried : tokens.map Parser.Token.symbol = rest.map .terminal)
      (inner : endTerminal ∉ rest)
      (unaccepted : ∀ argument, .ok (.accept argument) ∉ results)
      (derived : g.RightmostDerivation (reduced results).reverse
        (machine.symbols.reverse ++ rest.map .terminal) (word.map .terminal)) :
      Parsing g word results machine input
  | accepted {machine : Parser.Machine StateId Symbol} {input : Parser.Input Symbol}
      (finished : machine.phase = .accepted) (waiting : machine.pending input = [])
      (derived : g.RightmostDerivation (reduced results).reverse [.nonterminal g.start]
        (word.map .terminal)) :
      Parsing g word results machine input

/-- A silent step does not change the form. -/
theorem Parsing.next (wellFormed : g.WellFormed) (parsing : Parsing g word results machine input)
    (stepped : machine.step (g.parser defaultReductions) input = .next machine' input') :
    Parsing g word results machine' input' := by
  cases parsing with
  | accepted finished _ _ => simp [Parser.Machine.step, finished] at stepped
  | @running tokens rest tracked unfinished waiting carried inner unaccepted derived =>
      cases step_outcome wellFormed tracked waiting stepped with
      | goto spelled =>
          exact .running (.reading spelled) (by simp) waiting carried inner unaccepted derived
      | @shift _ _ _ _ token later first spelled =>
          subst first
          cases rest with
          | nil => simp at carried
          | cons t rest =>
              rw [List.map_cons, List.map_cons, List.cons.injEq] at carried
              refine .running (.reading spelled) (by simp) rfl carried.2
                (fun member => inner (List.mem_cons_of_mem _ member)) unaccepted ?_
              simpa [Parser.Machine.symbols, Parser.Item.symbol, carried.1] using derived

/-- A step with something to report goes back in the derivation if it reduces, and otherwise leaves
the form as it is. -/
theorem Parsing.stop (wellFormed : g.WellFormed) (parsing : Parsing g word results machine input)
    {result : Parser.Result Symbol ProductionId}
    (stepped : machine.step (g.parser defaultReductions) input = .stop result machine' input') :
    Truthful g result ∧ Parsing g word (results ++ [result]) machine' input' := by
  cases parsing with
  | accepted finished waiting derived =>
      simp only [Parser.Machine.step, finished] at stepped
      cases stepped
      exact ⟨by simp [Truthful], .accepted finished waiting (by simpa [reduced] using derived)⟩
  | @running tokens rest tracked unfinished waiting carried inner unaccepted derived =>
      cases step_outcome wellFormed tracked waiting stepped with
      | @reduce _ _ arguments below _ p production listed recognised reducedTo =>
          have truthful : Truthful g (.ok (.reduce p arguments)) := by
            rintro q others same
            cases same
            exact ⟨production, listed, recognised⟩
          refine ⟨truthful, .running reducedTo (by simp) (Parser.Machine.pending_peeked tokens)
            carried inner (by simpa using unaccepted) ?_⟩
          have form : (arguments.reverse ++ below).map Parser.Item.symbol =
              production.right.toList.reverse ++ below.map Parser.Item.symbol := by
            rw [List.map_append, List.map_reverse, recognised]
          simp only [Parser.Machine.symbols, form, List.reverse_append,
            List.reverse_reverse] at derived
          have back := Grammar.RightmostDerivation.replace rest listed derived
          simpa [reduced, Parser.Machine.symbols, Parser.Item.symbol] using back
      | accept start ended =>
          -- Only the end of input is accepted, as no token carries `$end`.
          cases tokens with
          | cons token later =>
              cases rest with
              | nil => simp at carried
              | cons t rest =>
                  rw [List.map_cons, List.map_cons, List.cons.injEq] at carried
                  rw [List.head?_cons, Option.map_some, carried.1] at ended
                  cases ended
                  exact absurd (List.mem_cons_self ..) inner
          | nil =>
              have none_left : rest = [] := List.map_eq_nil_iff.1 carried.symm
              subst none_left
              refine ⟨by simp [Truthful], .accepted rfl rfl ?_⟩
              simpa [reduced, Parser.Machine.symbols, start] using derived
      | refuse spelled =>
          refine ⟨by simp [Truthful], .running (.reading spelled) (by simp)
            (Parser.Machine.pending_peeked tokens) carried inner (by simpa using unaccepted) ?_⟩
          simpa [reduced, Parser.Machine.symbols] using derived
      | finished => exact absurd rfl unfinished

/-- What holds of the reports and of the machine after any number of runs. -/
theorem parsing_runs (wellFormed : g.WellFormed) {tokens : List (Parser.Token Symbol)}
    (carried : tokens.map Parser.Token.symbol = word.map .terminal) (inner : endTerminal ∉ word)
    {count : Nat}
    (ran : g.parse defaultReductions tokens count = (results, machine, input)) :
    (∀ result ∈ results, Truthful g result) ∧ Parsing g word results machine input := by
  induction count generalizing results machine input with
  | zero =>
      cases ran
      exact ⟨by simp, .running (tracks_start g defaultReductions) (by simp [Parser.Machine.start])
        rfl carried inner (by simp) (.done _)⟩
  | succ count ih =>
      rcases earlier : g.parse defaultReductions tokens count with ⟨before, middle, left⟩
      obtain ⟨truthful, parsing⟩ := ih earlier
      rcases next : middle.next (g.parser defaultReductions) left with ⟨result, after, remaining⟩
      rw [Grammar.parse, Parser.Machine.runs_succ earlier, next] at ran
      cases ran
      obtain ⟨last, rest, kept, stopped⟩ := Parser.Machine.exists_stop next (Parsing g word before)
        (fun _ _ _ _ parsing stepped => parsing.next wellFormed stepped) parsing
      obtain ⟨truthfulLast, parsed⟩ := kept.stop wellFormed stopped
      have truthfulAll := List.forall_mem_append.2
        ⟨truthful, List.forall_mem_singleton.2 truthfulLast⟩
      exact ⟨truthfulAll, parsed⟩

/-- Whatever the conflicts, a parser that accepts has shifted all tokens, and its reductions, read
backwards, are a rightmost derivation of their word from the start symbol.  Every reduction it reports
is of the right-hand side of its production. -/
theorem accepted_is_derived (defined : g.IsDefined) (defaultReductions : Bool)
    {tokens : List (Parser.Token Symbol)} {word : List TerminalId}
    (carried : tokens.map Parser.Token.symbol = word.map .terminal)
    (user : ∀ t ∈ word, g.Declares (.terminal t)) {count : Nat}
    {results : List (Parser.Result Symbol ProductionId)}
    {machine : Parser.Machine StateId Symbol} {input : Parser.Input Symbol}
    (ran : g.parse defaultReductions tokens count = (results, machine, input)) :
    (∀ p arguments, .ok (.reduce p arguments) ∈ results → ∃ production,
      g.productions[p]? = some production ∧
        arguments.map Parser.Item.symbol = production.right.toList) ∧
    (∀ argument, .ok (.accept argument) ∈ results →
      machine.pending input = [] ∧
        g.RightmostDerivation (reduced results).reverse [.nonterminal g.start]
          (word.map .terminal)) := by
  have inner : endTerminal ∉ word := fun member => (user _ member).1 rfl
  obtain ⟨truthful, parsing⟩ := parsing_runs defined.wellFormed carried inner ran
  refine ⟨fun p arguments member => truthful _ member p arguments rfl, ?_⟩
  intro argument member
  cases parsing with
  | running _ _ _ _ _ unaccepted _ => exact absurd member (unaccepted argument)
  | accepted _ waiting derived => exact ⟨waiting, derived⟩

theorem accepted_is_derived_brackets :
    Grammar.brackets.RightmostDerivation [1, 2] [.nonterminal 1] [.terminal 1, .terminal 2] := by
  have sound := @accepted_is_derived _ Grammar.isDefined_brackets true
    [⟨.terminal 1, "("⟩, ⟨.terminal 2, ")"⟩] [1, 2] rfl
    (by simp [Grammar.Declares, Grammar.brackets, endTerminal]) 3
    [.ok (.reduce 2 []),
      .ok (.reduce 1 [.token ⟨.terminal 1, "("⟩, .node (.nonterminal 1), .token ⟨.terminal 2, ")"⟩]),
      .ok (.accept (.node (.nonterminal 1)))]
    ⟨[1, 0], [], .accepted, none⟩ [] (by decide +kernel)
  exact (sound.2 (.node (.nonterminal 1)) (by simp)).2

end Lalr
