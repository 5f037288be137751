import Lalr.Proofs.Parser.Stack

/-!
# Default reductions change no parse

With default reductions a parser may reduce on a token that it would otherwise refuse.  Such a token
is not one that is expected after the symbols on the stack.  Reductions do not change this, whether
they are done by default or because the state that they lead to is also reached in other contexts, in
which the token can follow: whatever is expected after a reduction was expected before it.  So the
token is never shifted, and the parser either goes on reducing or refuses it in the end.
-/

namespace Lalr

open Parser.Machine (pending)

variable {g : Grammar} {setting : Bool} {tokens : List (Parser.Token Symbol)}
  {machine machine' : Parser.Machine StateId Symbol} {input input' : Parser.Input Symbol}
  {result : Parser.Result Symbol ProductionId}

/-! ## Failing parses -/

/-- What a parser reports when the next token cannot be shifted. -/
def Fails (result : Parser.Result Symbol ProductionId) : Prop :=
  (∃ p arguments, result = .ok (.reduce p arguments)) ∨
    result = .error (.refused .unexpectedSymbol)

/-- The first of the tokens that wait will not be shifted: it is not expected, or it is being
refused. -/
inductive Failing (g : Grammar) (setting : Bool) (tokens : List (Parser.Token Symbol)) :
    Parser.Machine StateId Symbol → Parser.Input Symbol → Prop
  | unexpected {machine : Parser.Machine StateId Symbol} {input : Parser.Input Symbol}
      {t : TerminalId} (tracked : Tracks (Automaton.build g) machine)
      (unfinished : machine.phase ≠ .accepted)
      (waiting : machine.pending input = tokens.map .ok)
      (question : asked (tokens.head?.map Parser.Token.symbol) = some t)
      (unexpected : ¬ g.Expects machine.symbols.reverse t) :
      Failing g setting tokens machine input
  | stuck {machine : Parser.Machine StateId Symbol} {input : Parser.Input Symbol}
      (waiting : machine.pending input = tokens.map .ok)
      (refused : machine.step (g.parser setting) input =
        .stop (.error (.refused .unexpectedSymbol)) machine input) :
      Failing g setting tokens machine input

namespace Failing

theorem pending_eq (failing : Failing g setting tokens machine input) :
    machine.pending input = tokens.map .ok := by
  cases failing with
  | unexpected _ _ waiting _ _ => exact waiting
  | stuck waiting _ => exact waiting

theorem unfinished (failing : Failing g setting tokens machine input) :
    machine.phase ≠ .accepted := by
  cases failing with
  | unexpected _ unfinished _ _ _ => exact unfinished
  | stuck _ refused =>
      intro finished
      simp [Parser.Machine.step, finished] at refused

/-- Nothing is shifted. -/
theorem next (wellFormed : g.WellFormed) (failing : Failing g setting tokens machine input)
    (stepped : machine.step (g.parser setting) input = .next machine' input') :
    Failing g setting tokens machine' input' := by
  cases failing with
  | stuck _ refused =>
      rw [refused] at stepped
      cases stepped
  | @unexpected t tracked unfinished waiting question unexpected =>
      cases step_outcome wellFormed tracked waiting stepped with
      | goto spelled =>
          exact .unexpected (.reading spelled) (by simp) waiting question unexpected
      | shift first pushed =>
          subst first
          rw [List.head?_cons, Option.map_some] at question
          rw [symbol_of_asked question] at pushed
          cases pushed with
          | push spelled led =>
              exact absurd ((Automaton.canonical_build wellFormed).expects_of_step spelled.path led)
                unexpected

/-- Nothing is accepted, and reductions leave the token unexpected. -/
theorem stop (wellFormed : g.WellFormed) (failing : Failing g setting tokens machine input)
    (stepped : machine.step (g.parser setting) input = .stop result machine' input') :
    Fails result ∧ Failing g setting tokens machine' input' := by
  cases failing with
  | stuck waiting refused =>
      have same := refused.symm.trans stepped
      cases same
      exact ⟨.inr rfl, .stuck waiting refused⟩
  | @unexpected t tracked unfinished waiting question unexpected =>
      cases step_outcome wellFormed tracked waiting stepped with
      | @reduce _ _ arguments below _ p production listed recognised reducedTo =>
          refine ⟨.inl ⟨p, arguments, rfl⟩, .unexpected reducedTo (by simp)
            (Parser.Machine.pending_peeked tokens) question ?_⟩
          intro expected
          apply unexpected
          have reduced : g.Expects ((below.map Parser.Item.symbol).reverse ++
              [.nonterminal production.left]) t := by
            simpa [Parser.Machine.symbols, Parser.Item.symbol] using expected
          have before := reduced.unreduce wellFormed listed
          simpa [Parser.Machine.symbols, ← recognised] using before
      | accept start ended =>
          rw [ended] at question
          cases question
          refine absurd ?_ unexpected
          simpa [Parser.Machine.symbols, start] using wellFormed.expects_end
      | refuse spelled =>
          exact ⟨.inr rfl, .unexpected (.reading spelled) (by simp)
            (Parser.Machine.pending_peeked tokens) question unexpected⟩
      | finished => exact absurd rfl unfinished

theorem run (wellFormed : g.WellFormed) (failing : Failing g setting tokens machine input)
    (ran : machine.next (g.parser setting) input = (result, machine', input')) :
    Fails result ∧ Failing g setting tokens machine' input' := by
  obtain ⟨last, rest, kept, stopped⟩ := Parser.Machine.exists_stop ran (Failing g setting tokens)
    (fun _ _ _ _ failing stepped => failing.next wellFormed stepped) failing
  exact kept.stop wellFormed stopped

/-- Once a parse is failing, it goes on failing. -/
theorem runs (wellFormed : g.WellFormed) (failing : Failing g setting tokens machine input)
    {count : Nat} {results : List (Parser.Result Symbol ProductionId)}
    (ran : Parser.Machine.runs (g.parser setting) count machine input =
      (results, machine', input')) :
    (∀ result ∈ results, Fails result) ∧ Failing g setting tokens machine' input' := by
  induction count generalizing results machine' input' with
  | zero =>
      cases ran
      exact ⟨by simp, failing⟩
  | succ count ih =>
      rcases earlier : Parser.Machine.runs (g.parser setting) count machine input with
        ⟨before, middle, left⟩
      rcases next : middle.next (g.parser setting) left with ⟨result, after, remaining⟩
      rw [Parser.Machine.runs_succ earlier, next] at ran
      cases ran
      obtain ⟨fails, stillFailing⟩ := ih earlier
      obtain ⟨failsLast, failingLast⟩ := stillFailing.run wellFormed next
      have failsAll := List.forall_mem_append.2 ⟨fails, List.forall_mem_singleton.2 failsLast⟩
      exact ⟨failsAll, failingLast⟩

end Failing

/-! ## The two settings compared -/

theorem failing_of_refused (wellFormed : g.WellFormed) (inOrder : InOrder g machine input)
    {reason : Parser.Refusal}
    (stepped : machine.step (g.parser setting) input =
      .stop (.error (.refused reason)) machine' input') :
    reason = .unexpectedSymbol ∧ ∃ tokens, Failing g setting tokens machine' input' := by
  obtain ⟨tracked, tokens, waiting⟩ := inOrder
  cases step_outcome wellFormed tracked waiting stepped with
  | refuse spelled =>
      refine ⟨rfl, tokens, .stuck (Parser.Machine.pending_peeked tokens) ?_⟩
      rw [Parser.Machine.step_peeked waiting, stepped]

/-- The settings take the same step, unless a parser without default reductions refuses a token that
is not expected. -/
theorem step_agrees (wellFormed : g.WellFormed) (inOrder : InOrder g machine input) :
    machine.step (g.parser true) input = machine.step (g.parser false) input ∨
      ∃ tokens machine' input', Failing g true tokens machine input ∧
        Failing g false tokens machine' input' ∧
        machine.step (g.parser false) input =
          .stop (.error (.refused .unexpectedSymbol)) machine' input' := by
  obtain ⟨tracked, tokens, waiting⟩ := inOrder
  cases tracked with
  | accepted => exact .inl rfl
  | pendingGoto spelled led =>
      rw [step_goto wellFormed spelled led, step_goto wellFormed spelled led]
      exact .inl rfl
  | @reading states items peeked spelled =>
      obtain ⟨id, below, rfl, path⟩ := spelled.exists_top
      rcases parser_agrees g id (tokens.head?.map Parser.Token.symbol) with
        same | ⟨state, t, found, question, undecided⟩
      · left
        rw [Parser.Machine.step_of_reading waiting rfl rfl,
          Parser.Machine.step_of_reading waiting rfl rfl, same]
      · right
        have unexpected : ¬ g.Expects (items.map Parser.Item.symbol).reverse t := fun expected =>
          decided_of_expects wellFormed found path expected undecided
        refine ⟨tokens, ⟨id :: below, items, .reading, tokens.head?⟩, tokens.tail.map .ok,
          .unexpected (.reading spelled) (by simp) waiting question unexpected,
          .unexpected (.reading spelled) (by simp) (Parser.Machine.pending_peeked tokens) question
            unexpected, ?_⟩
        rw [Parser.Machine.step_of_reading waiting rfl rfl,
          parser_of_undecided found question undecided]
        rfl

/-- The settings report the same, unless a parser without default reductions refuses a token; then
both fail on it. -/
theorem next_agrees (wellFormed : g.WellFormed) (inOrder : InOrder g machine input) :
    machine.next (g.parser true) input = machine.next (g.parser false) input ∨
      ∃ tokens machine' input', machine.next (g.parser false) input =
          (.error (.refused .unexpectedSymbol), machine', input') ∧
        Failing g false tokens machine' input' ∧
        Fails (machine.next (g.parser true) input).1 ∧
        Failing g true tokens (machine.next (g.parser true) input).2.1
          (machine.next (g.parser true) input).2.2 := by
  rcases ran : machine.next (g.parser false) input with ⟨result, machine', input'⟩
  -- As long as the steps are silent, both settings take them.
  obtain ⟨last, rest, ⟨kept, together⟩, stopped⟩ := Parser.Machine.exists_stop ran
    (fun last rest => InOrder g last rest ∧
      machine.next (g.parser true) input = last.next (g.parser true) rest)
    (by
      intro last rest last' rest' kept stepped
      refine ⟨kept.1.next wellFormed stepped, kept.2.trans ?_⟩
      rcases step_agrees wellFormed kept.1 with same | ⟨_, _, _, _, _, refused⟩
      · exact Parser.Machine.next_of_silent (same.trans stepped)
      · rw [refused] at stepped
        cases stepped)
    ⟨inOrder, rfl⟩
  rcases step_agrees wellFormed kept with same | ⟨tokens, after, left, failing, failing', refused⟩
  · left
    rw [together, Parser.Machine.next_of_stop (same.trans stopped)]
  · right
    rw [refused] at stopped
    cases stopped
    obtain ⟨fails, failingLater⟩ := failing.run wellFormed (Prod.ext rfl (Prod.ext rfl rfl))
    rw [together]
    exact ⟨tokens, _, _, rfl, failing', fails, failingLater⟩

/-- What the two settings report, without default reductions first, and where they leave the parser:
the same, or both fail on the same token and never accept. -/
inductive Compared (g : Grammar) :
    (List (Parser.Result Symbol ProductionId) × Parser.Machine StateId Symbol ×
      Parser.Input Symbol) →
    (List (Parser.Result Symbol ProductionId) × Parser.Machine StateId Symbol ×
      Parser.Input Symbol) → Prop
  | same {results : List (Parser.Result Symbol ProductionId)}
      {machine : Parser.Machine StateId Symbol} {input : Parser.Input Symbol}
      (inOrder : InOrder g machine input)
      (unaccepted : machine.phase ≠ .accepted → ∀ argument, .ok (.accept argument) ∉ results) :
      Compared g (results, machine, input) (results, machine, input)
  | parted {results results' : List (Parser.Result Symbol ProductionId)}
      {machine machine' : Parser.Machine StateId Symbol} {input input' : Parser.Input Symbol}
      {tokens : List (Parser.Token Symbol)} (failing : Failing g false tokens machine input)
      (failing' : Failing g true tokens machine' input')
      (refused : .error (.refused .unexpectedSymbol) ∈ results)
      (unaccepted : ∀ argument, .ok (.accept argument) ∉ results)
      (unaccepted' : ∀ argument, .ok (.accept argument) ∉ results') :
      Compared g (results, machine, input) (results', machine', input')

theorem Fails.ne_accept (fails : Fails result) (argument : Parser.Item Symbol) :
    result ≠ .ok (.accept argument) := by
  rcases fails with ⟨p, arguments, rfl⟩ | rfl
  · simp
  · simp

theorem unaccepted_concat {results : List (Parser.Result Symbol ProductionId)}
    (before : ∀ argument, .ok (.accept argument) ∉ results)
    (last : ∀ argument, result ≠ .ok (.accept argument)) :
    ∀ argument, .ok (.accept argument) ∉ results ++ [result] := by
  intro argument member
  rcases List.mem_append.1 member with old | new
  · exact before argument old
  · exact last argument (List.mem_singleton.1 new).symm

theorem compared_runs (wellFormed : g.WellFormed) (tokens : List (Parser.Token Symbol))
    (count : Nat) :
    Compared g (g.parse false tokens count) (g.parse true tokens count) := by
  induction count with
  | zero => exact .same ⟨tracks_start g false, tokens, rfl⟩ (by simp)
  | succ count ih =>
      rcases first : g.parse false tokens count with ⟨results, machine, input⟩
      rcases second : g.parse true tokens count with ⟨results', machine', input'⟩
      rw [first, second] at ih
      rw [Grammar.parse, Grammar.parse, Parser.Machine.runs_succ first,
        Parser.Machine.runs_succ second]
      cases ih with
      | same inOrder unaccepted =>
          rcases ran : machine.next (g.parser false) input with ⟨result, after, left⟩
          obtain ⟨ordered, known, unfinished⟩ := inOrder.run wellFormed ran
          rcases next_agrees wellFormed inOrder with equal | ⟨waiting, _, _, refused, failing, fails,
            failing'⟩
          · rw [equal, ran]
            refine .same ordered ?_
            intro other
            exact unaccepted_concat (unaccepted (unfinished other)) (known other)
          · rw [ran] at refused
            cases refused
            have before := unaccepted (unfinished failing.unfinished)
            exact .parted failing failing' (by simp) (unaccepted_concat before (by simp))
              (unaccepted_concat before fails.ne_accept)
      | parted failing failing' refused unaccepted unaccepted' =>
          obtain ⟨fails, stillFailing⟩ := failing.run wellFormed (Prod.ext rfl (Prod.ext rfl rfl))
          obtain ⟨fails', stillFailing'⟩ :=
            failing'.run wellFormed (Prod.ext rfl (Prod.ext rfl rfl))
          exact .parted stillFailing stillFailing' (List.mem_append_left _ refused)
            (unaccepted_concat unaccepted fails.ne_accept)
            (unaccepted_concat unaccepted' fails'.ne_accept)

theorem failing_of_next_refused (wellFormed : g.WellFormed) (inOrder : InOrder g machine input)
    {reason : Parser.Refusal}
    (ran : machine.next (g.parser false) input = (.error (.refused reason), machine', input')) :
    ∃ tokens, machine'.pending input' = tokens.map .ok ∧
      Fails (machine.next (g.parser true) input).1 ∧
      Failing g true tokens (machine.next (g.parser true) input).2.1
        (machine.next (g.parser true) input).2.2 := by
  rcases next_agrees wellFormed inOrder with equal | ⟨tokens, _, _, refused, failing, rest⟩
  · rw [equal, ran]
    obtain ⟨last, left, kept, stopped⟩ := Parser.Machine.exists_stop (equal.trans ran) (InOrder g)
      (fun _ _ _ _ inOrder stepped => inOrder.next wellFormed stepped) inOrder
    obtain ⟨rfl, tokens, failing⟩ := failing_of_refused wellFormed kept stopped
    exact ⟨tokens, failing.pending_eq, .inr rfl, failing⟩
  · rw [ran] at refused
    cases refused
    exact ⟨tokens, failing.pending_eq, rest⟩

/-- Default reductions change no parse.  With and without them the same tokens are accepted, after the
same reports.  If a parser without them refuses a token, a parser with them reports the same events
first; whatever it reports later is a reduction or the refusal of that token, and no further token is
shifted. -/
theorem defaultReductions_change_no_parse (defined : g.IsDefined)
    (tokens : List (Parser.Token Symbol)) :
    (∀ count,
      ((∃ argument, .ok (.accept argument) ∈ (g.parse false tokens count).1) ↔
        ∃ argument, .ok (.accept argument) ∈ (g.parse true tokens count).1) ∧
      ((∃ argument, .ok (.accept argument) ∈ (g.parse false tokens count).1) →
        g.parse true tokens count = g.parse false tokens count)) ∧
    ∀ (events : List (Parser.Event Symbol ProductionId)) (reason : Parser.Refusal)
      (machine : Parser.Machine StateId Symbol) (input : Parser.Input Symbol),
      g.parse false tokens (events.length + 1) =
          (events.map .ok ++ [.error (.refused reason)], machine, input) →
      ∀ count, ∃ later machine' input',
        g.parse true tokens (events.length + (count + 1)) =
          (events.map .ok ++ later, machine', input') ∧
        (∀ result ∈ later, (∃ p arguments, result = .ok (.reduce p arguments)) ∨
          result = .error (.refused .unexpectedSymbol)) ∧
        machine'.pending input' = machine.pending input := by
  have wellFormed := defined.wellFormed
  constructor
  · intro count
    have compared := compared_runs wellFormed tokens count
    generalize g.parse false tokens count = first at compared ⊢
    generalize g.parse true tokens count = second at compared ⊢
    cases compared with
    | same _ _ => exact ⟨Iff.rfl, fun _ => rfl⟩
    | parted _ _ _ unaccepted unaccepted' =>
        refine ⟨⟨?_, ?_⟩, ?_⟩
        · rintro ⟨argument, member⟩
          exact absurd member (unaccepted argument)
        · rintro ⟨argument, member⟩
          exact absurd member (unaccepted' argument)
        · rintro ⟨argument, member⟩
          exact absurd member (unaccepted argument)
  · intro events reason machine input ran count
    have compared := compared_runs wellFormed tokens events.length
    rcases first : g.parse false tokens events.length with ⟨results, middle, left⟩
    rcases second : g.parse true tokens events.length with ⟨results', middle', left'⟩
    rw [first, second] at compared
    rw [Grammar.parse, Parser.Machine.runs_succ first, Prod.mk.injEq] at ran
    obtain ⟨rfl, last⟩ := List.append_inj' ran.1 rfl
    have refused : middle.next (g.parser false) left =
        (.error (.refused reason), machine, input) :=
      Prod.ext (List.cons.inj last).1 ran.2
    cases compared with
    | parted _ _ earlier _ _ => simp at earlier
    | same inOrder _ =>
        obtain ⟨waiting, pendingEq, fails, failing⟩ :=
          failing_of_next_refused wellFormed inOrder refused
        rcases further : Parser.Machine.runs (g.parser true) count
          (middle.next (g.parser true) left).2.1 (middle.next (g.parser true) left).2.2 with
          ⟨later, machine', input'⟩
        obtain ⟨failsLater, failingLater⟩ := failing.runs wellFormed further
        refine ⟨(middle.next (g.parser true) left).1 :: later, machine', input', ?_,
          List.forall_mem_cons.2 ⟨fails, failsLater⟩, ?_⟩
        · refine Parser.Machine.runs_add second ?_
          rw [Parser.Machine.runs_first, further]
        · rw [failingLater.pending_eq, pendingEq]

/-- After a pair of brackets another opening bracket is refused, with default reductions only once
the pair has been reduced. -/
theorem defaultReductions_change_no_parse_brackets :
    ∃ later machine' input',
      Grammar.brackets.parse true
          [⟨.terminal 1, "("⟩, ⟨.terminal 2, ")"⟩, ⟨.terminal 1, "("⟩] 3 =
        (.ok (.reduce 2 []) :: later, machine', input') ∧
      (∀ result ∈ later, (∃ p arguments, result = .ok (.reduce p arguments)) ∨
        result = .error (.refused .unexpectedSymbol)) ∧
      machine'.pending input' = [.ok ⟨.terminal 1, "("⟩] :=
  (defaultReductions_change_no_parse Grammar.isDefined_brackets
    [⟨.terminal 1, "("⟩, ⟨.terminal 2, ")"⟩, ⟨.terminal 1, "("⟩]).2
    [.reduce 2 []] .unexpectedSymbol
    ⟨[4, 3, 2, 0],
      [.token ⟨.terminal 2, ")"⟩, .node (.nonterminal 1), .token ⟨.terminal 1, "("⟩],
      .reading, some ⟨.terminal 1, "("⟩⟩
    [] (by decide +kernel) 1

end Lalr
