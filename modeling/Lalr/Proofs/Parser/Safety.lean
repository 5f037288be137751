import Lalr.Proofs.Parser.Stack
import Lalr.Proofs.Parser.Waiting

/-!
# A generated table never leads a parser astray

Whatever tokens a parser is given, also such as carry `$end` or nonterminals, and wherever the lexer
fails in between: the states remain those that the items spell.  So a parser only ever fails because
of its input, or because it has accepted already.  It finds the goto after every reduction, and what
it accepts is the start symbol alone on its stack.
-/

namespace Lalr

variable {g : Grammar} {defaultReductions : Bool} {machine machine' : Parser.Machine StateId Symbol}
  {input input' : Parser.Input Symbol} {result : Parser.Result Symbol ProductionId}

/-- A failure that is not the fault of the table. -/
inductive Outward : Parser.Failure → Prop
  | lexer (message : String) : Outward (.lexer message)
  | unexpectedSymbol : Outward (.refused .unexpectedSymbol)
  | alreadyAccepted : Outward .alreadyAccepted

/-- What a parser has reported fits with where it is left. -/
inductive Fits (g : Grammar) :
    Parser.Result Symbol ProductionId → Parser.Machine StateId Symbol → Prop
  | reduce {p : ProductionId} {production : Production} {id target : StateId}
      {below : List StateId} {arguments items : List (Parser.Item Symbol)}
      {peeked : Option (Parser.Token Symbol)} (listed : g.productions[p]? = some production)
      (spelled : Spells (Automaton.build g) (id :: below) (items.map Parser.Item.symbol))
      (stepped : (Automaton.build g).step? id (.nonterminal production.left) = some target) :
      Fits g (.ok (.reduce p arguments))
        ⟨id :: below, .node (.nonterminal production.left) :: items, .pendingGoto, peeked⟩
  | accept {argument : Parser.Item Symbol} {id : StateId} {peeked : Option (Parser.Token Symbol)}
      (start : argument.symbol = .nonterminal g.start)
      (accepting : (Automaton.build g).accepting? g = some id) :
      Fits g (.ok (.accept argument)) ⟨[id, initialState], [], .accepted, peeked⟩
  | fail {failure : Parser.Failure} {machine : Parser.Machine StateId Symbol}
      (outward : Outward failure) : Fits g (.error failure) machine

theorem fits_of_outcome {tokens : List (Parser.Token Symbol)}
    (tracked : Tracks (Automaton.build g) machine)
    (outcome : Outcome g tokens input machine (.stop result machine' input')) :
    Tracks (Automaton.build g) machine' ∧ Fits g result machine' := by
  cases outcome with
  | reduce listed recognised reduced =>
      refine ⟨reduced, ?_⟩
      cases reduced with
      | pendingGoto spelled stepped => exact .reduce listed spelled stepped
  | accept start ended =>
      refine ⟨.accepted, ?_⟩
      cases tracked with
      | reading spelled =>
          rw [List.map_cons, List.map_nil, start] at spelled
          cases spelled with
          | push bottom stepped =>
              cases bottom
              exact .accept start stepped
  | refuse spelled => exact ⟨.reading spelled, .fail .unexpectedSymbol⟩
  | finished => exact ⟨.accepted, .fail .alreadyAccepted⟩

/-- A step reports an error of the lexer, or does what it would do if only some tokens waited. -/
theorem Tracks.exists_outcome (wellFormed : g.WellFormed)
    (tracked : Tracks (Automaton.build g) machine)
    {after : Parser.Step StateId Symbol ProductionId}
    (stepped : machine.step (g.parser defaultReductions) input = after) :
    (∃ message rest, after = .stop (.error (.lexer message)) machine rest) ∨
      ∃ tokens first more step, Outcome g tokens first machine step ∧
        after = step.followedBy more := by
  rcases Parser.Machine.step_looks (g.parser defaultReductions) machine input with
    ⟨message, rest, failed⟩ | ⟨tokens, first, more, waiting, further⟩
  · exact .inl ⟨message, rest, stepped.symm.trans failed⟩
  · exact .inr ⟨tokens, first, more, _, step_outcome wellFormed tracked waiting rfl,
      stepped.symm.trans further⟩

theorem Tracks.next (wellFormed : g.WellFormed) (tracked : Tracks (Automaton.build g) machine)
    (stepped : machine.step (g.parser defaultReductions) input = .next machine' input') :
    Tracks (Automaton.build g) machine' := by
  rcases tracked.exists_outcome wellFormed stepped with
    ⟨_, _, failed⟩ | ⟨tokens, first, more, step, outcome, further⟩
  · cases failed
  · cases outcome with
    | goto spelled =>
        cases further
        exact .reading spelled
    | shift _ spelled =>
        cases further
        exact .reading spelled
    | reduce _ _ _ => cases further
    | accept _ _ => cases further
    | refuse _ => cases further
    | finished => cases further

theorem Tracks.stop (wellFormed : g.WellFormed) (tracked : Tracks (Automaton.build g) machine)
    (stepped : machine.step (g.parser defaultReductions) input = .stop result machine' input') :
    Tracks (Automaton.build g) machine' ∧ Fits g result machine' := by
  rcases tracked.exists_outcome wellFormed stepped with
    ⟨message, rest, failed⟩ | ⟨tokens, first, more, step, outcome, further⟩
  · cases failed
    exact ⟨tracked, .fail (.lexer message)⟩
  · cases step with
    | next _ _ => cases further
    | stop _ _ _ =>
        cases further
        exact fits_of_outcome tracked outcome

/-- A run leaves the stacks in order. -/
theorem Tracks.run (wellFormed : g.WellFormed) (tracked : Tracks (Automaton.build g) machine)
    (ran : machine.next (g.parser defaultReductions) input = (result, machine', input')) :
    Tracks (Automaton.build g) machine' ∧ Fits g result machine' := by
  obtain ⟨last, rest, kept, stopped⟩ := Parser.Machine.exists_stop ran
    (fun last _ => Tracks (Automaton.build g) last)
    (fun _ _ _ _ tracked stepped => tracked.next wellFormed stepped) tracked
  exact kept.stop wellFormed stopped

theorem Tracks.runs (wellFormed : g.WellFormed) (tracked : Tracks (Automaton.build g) machine)
    {count : Nat} {results : List (Parser.Result Symbol ProductionId)}
    (ran : Parser.Machine.runs (g.parser defaultReductions) count machine input =
      (results, machine', input')) :
    Tracks (Automaton.build g) machine' ∧
      (∀ result ∈ results, ∃ left, Fits g result left) ∧
      ∀ earlier last, results = earlier ++ [last] → Fits g last machine' := by
  induction count generalizing results machine' input' with
  | zero =>
      cases ran
      exact ⟨tracked, by simp, by simp⟩
  | succ count ih =>
      rcases earlier : Parser.Machine.runs (g.parser defaultReductions) count machine input with
        ⟨before, middle, left⟩
      rcases next : middle.next (g.parser defaultReductions) left with ⟨result, after, remaining⟩
      rw [Parser.Machine.runs_succ earlier, next] at ran
      cases ran
      obtain ⟨kept, fit, _⟩ := ih earlier
      obtain ⟨trackedLast, fitsLast⟩ := kept.run wellFormed next
      refine ⟨trackedLast, ?_, ?_⟩
      · intro report member
        rcases List.mem_append.1 member with old | new
        · exact fit report old
        · cases List.mem_singleton.1 new
          exact ⟨_, fitsLast⟩
      · intro most last same
        obtain ⟨_, equal⟩ := List.append_inj' same rfl
        cases equal
        exact fitsLast

/-- The gotos of a generated table are the steps of the automaton. -/
theorem goto?_generate (g : Grammar) (defaultReductions : Bool) (id : StateId)
    (n : NonterminalId) :
    (g.generate defaultReductions).table.goto? id n =
      (Automaton.build g).step? id (.nonterminal n) := by
  have row : (g.generate defaultReductions).table.rows[id]? = _ :=
    Table.getElem?_rows defaultReductions id
  rw [Table.goto?, row, Automaton.step?]
  cases (Automaton.build g).states[id]? with
  | none => rfl
  | some state => exact Table.lookup_gotos state n

/-- Whatever tokens and errors of the lexer a parser is given, and however often it is run, it fails
only for the reasons that lie outside of the table.  After a reduction it finds the goto of the
nonterminal, and when it has accepted, the start symbol was all that was on its stack. -/
theorem parser_is_safe (defined : g.IsDefined) (defaultReductions : Bool)
    {input input' : Parser.Input Symbol} {count : Nat}
    {results : List (Parser.Result Symbol ProductionId)}
    {machine : Parser.Machine StateId Symbol}
    (ran : Parser.Machine.runs (g.parser defaultReductions) count
      (.start (g.parser defaultReductions)) input = (results, machine, input')) :
    (∀ failure, .error failure ∈ results →
      (∃ message, failure = .lexer message) ∨ failure = .refused .unexpectedSymbol ∨
        failure = .alreadyAccepted) ∧
    (∀ earlier p arguments, results = earlier ++ [.ok (.reduce p arguments)] →
      ∃ production id below items target, g.productions[p]? = some production ∧
        machine.states = id :: below ∧
        machine.items = .node (.nonterminal production.left) :: items ∧
        (g.generate defaultReductions).table.goto? id production.left = some target ∧
        machine.step (g.parser defaultReductions) input' =
          .next ⟨target :: machine.states, machine.items, .reading, machine.peeked⟩ input') ∧
    (∀ earlier argument, results = earlier ++ [.ok (.accept argument)] →
      argument.symbol = .nonterminal g.start ∧ machine.items = [] ∧
        ∃ id, (Automaton.build g).accepting? g = some id ∧ machine.states = [id, initialState]) := by
  have wellFormed := defined.wellFormed
  obtain ⟨_, fit, fitsLast⟩ := (tracks_start g defaultReductions).runs wellFormed ran
  refine ⟨?_, ?_, ?_⟩
  · intro failure member
    obtain ⟨left, fits⟩ := fit _ member
    cases fits with
    | fail outward =>
        cases outward with
        | lexer message => exact .inl ⟨message, rfl⟩
        | unexpectedSymbol => exact .inr (.inl rfl)
        | alreadyAccepted => exact .inr (.inr rfl)
  · intro earlier p arguments last
    cases fitsLast earlier _ last with
    | reduce listed spelled stepped =>
        exact ⟨_, _, _, _, _, listed, rfl, rfl, (goto?_generate ..).trans stepped,
          step_goto wellFormed spelled stepped⟩
  · intro earlier argument last
    cases fitsLast earlier _ last with
    | accept start accepting => exact ⟨start, rfl, _, accepting, rfl⟩

/-- A token may carry the nonterminal between the brackets, and the lexer may fail in between. -/
theorem parser_is_safe_brackets :
    (Parser.Item.node (Symbol.nonterminal 1)).symbol = .nonterminal Grammar.brackets.start ∧
      ∃ id, (Automaton.build .brackets).accepting? .brackets = some id ∧
        [1, 0] = [id, initialState] := by
  have safe := @parser_is_safe _ Grammar.isDefined_brackets true
    [.ok ⟨.terminal 1, "("⟩, .error "bad character", .ok ⟨.nonterminal 1, "S"⟩,
      .ok ⟨.terminal 2, ")"⟩] [] 3
    [.error (.lexer "bad character"),
      .ok (.reduce 1 [.token ⟨.terminal 1, "("⟩, .token ⟨.nonterminal 1, "S"⟩,
        .token ⟨.terminal 2, ")"⟩]),
      .ok (.accept (.node (.nonterminal 1)))]
    ⟨[1, 0], [], .accepted, none⟩ (by decide +kernel)
  obtain ⟨start, _, accepting⟩ := safe.2.2 (_ :: [_]) _ rfl
  exact ⟨start, accepting⟩

end Lalr
