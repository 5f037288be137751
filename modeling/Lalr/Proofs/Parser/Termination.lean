import Lalr.Proofs.Parser.Endless
import Lalr.Proofs.Parser.Prefix
import Lalr.Proofs.Parser.Safety

/-!
# A parser does not reduce for ever

While a token waits, a parser on a table without conflicts and without default reductions comes to an
end with its reductions, and then shifts the token, accepts or fails.  With default reductions this is
so if every nonterminal can vanish or begin with a terminal.  If a parser goes on reducing for ever in
spite of that, it does so in front of a token that cannot follow what it has shifted.
-/

namespace Lalr

open Parser.Machine (pending)

variable {g : Grammar} {setting : Bool}

/-- Further runs report reductions, and then something else. -/
inductive Settles (table : Parser.ActionTable StateId Symbol ProductionId) :
    Parser.Machine StateId Symbol → Parser.Input Symbol → Prop
  | settled {machine machine' : Parser.Machine StateId Symbol} {input input' : Parser.Input Symbol}
      {result : Parser.Result Symbol ProductionId}
      (next : machine.next table input = (result, machine', input'))
      (other : ∀ p arguments, result ≠ .ok (.reduce p arguments)) : Settles table machine input
  | reduce {machine machine' : Parser.Machine StateId Symbol} {input input' : Parser.Input Symbol}
      {p : ProductionId} {arguments : List (Parser.Item Symbol)}
      (next : machine.next table input = (.ok (.reduce p arguments), machine', input'))
      (later : Settles table machine' input') : Settles table machine input

namespace Settles

variable {table : Parser.ActionTable StateId Symbol ProductionId}
  {machine machine' : Parser.Machine StateId Symbol} {input input' : Parser.Input Symbol}
  {result : Parser.Result Symbol ProductionId}

theorem of_next (settles : Settles table machine' input')
    (same : machine.next table input = machine'.next table input') :
    Settles table machine input := by
  cases settles with
  | settled next other => exact .settled (same.trans next) other
  | reduce next later => exact .reduce (same.trans next) later

theorem of_stop (stopped : machine.step table input = .stop result machine' input')
    (other : ∀ p arguments, result ≠ .ok (.reduce p arguments)) : Settles table machine input :=
  .settled (Parser.Machine.next_of_stop stopped) other

theorem of_accepted (finished : machine.phase = .accepted) : Settles table machine input := by
  have stopped : machine.step table input = .stop (.error .alreadyAccepted) machine input := by
    simp [Parser.Machine.step, finished]
  exact .of_stop stopped (by simp)

theorem before (settles : Settles table machine' input')
    (next : machine.next table input = (result, machine', input')) :
    Settles table machine input := by
  by_cases reduction : ∃ p arguments, result = .ok (.reduce p arguments)
  · obtain ⟨p, arguments, rfl⟩ := reduction
    exact .reduce next settles
  · refine .settled next ?_
    rintro p arguments rfl
    exact reduction ⟨p, arguments, rfl⟩

theorem of_runs {count : Nat} {results : List (Parser.Result Symbol ProductionId)}
    (settles : Settles table machine' input')
    (ran : Parser.Machine.runs table count machine input = (results, machine', input')) :
    Settles table machine input := by
  induction count generalizing results machine' input' with
  | zero =>
      cases ran
      exact settles
  | succ count ih =>
      rcases earlier : Parser.Machine.runs table count machine input with ⟨before, middle, left⟩
      rcases next : middle.next table left with ⟨result, after, remaining⟩
      rw [Parser.Machine.runs_succ earlier, next] at ran
      cases ran
      exact ih (settles.before next) earlier

theorem runs (settles : Settles table machine input) :
    ∃ reductions last machine' input',
      Parser.Machine.runs table (reductions.length + 1) machine input =
        (reductions ++ [last], machine', input') ∧
      (∀ result ∈ reductions, ∃ p arguments, result = .ok (.reduce p arguments)) ∧
      ((∃ argument, last = .ok (.accept argument)) ∨ ∃ failure, last = .error failure) := by
  induction settles with
  | @settled machine machine' input input' result next other =>
      refine ⟨[], result, machine', input', ?_, by simp, ?_⟩
      · rw [List.length_nil, Parser.Machine.runs_first, next]
        rfl
      · cases result with
        | error failure => exact .inr ⟨failure, rfl⟩
        | ok event =>
            cases event with
            | accept argument => exact .inl ⟨argument, rfl⟩
            | reduce p arguments => exact absurd rfl (other p arguments)
  | @reduce machine machine' input input' p arguments next _ ih =>
      obtain ⟨reductions, last, after, left, ran, reports, ended⟩ := ih
      refine ⟨.ok (.reduce p arguments) :: reductions, last, after, left, ?_,
        List.forall_mem_cons.2 ⟨⟨p, arguments, rfl⟩, reports⟩, ended⟩
      rw [List.length_cons, Parser.Machine.runs_first, next, ran]
      rfl

end Settles

/-- Where nothing is reduced, a machine stops or shifts a token. -/
theorem settles_of_irreducible (wellFormed : g.WellFormed) {t : TerminalId}
    {states : List StateId} {items : List (Parser.Item Symbol)}
    {peeked : Option (Parser.Token Symbol)} {input : Parser.Input Symbol}
    {tokens : List (Parser.Token Symbol)}
    (spelled : Spells (Automaton.build g) states (items.map Parser.Item.symbol))
    (waiting : pending ⟨states, items, .reading, peeked⟩ input = tokens.map .ok)
    (question : asked (tokens.head?.map Parser.Token.symbol) = some t)
    (irreducible : ∀ next, ¬ Reduces g setting t initialState
      (items.map Parser.Item.symbol).reverse next)
    (shifted : ∀ token behind, tokens = token :: behind → ∀ machine' input',
      Tracks (Automaton.build g) machine' → machine'.pending input' = behind.map .ok →
      Settles (g.parser setting) machine' input') :
    Settles (g.parser setting) ⟨states, items, .reading, peeked⟩ input := by
  have outcome := @reading_outcome g setting input tokens wellFormed _ _ _ spelled waiting
  generalize stepped : Parser.Machine.step (g.parser setting) ⟨states, items, .reading, peeked⟩
    input = step at outcome
  cases outcome with
  | shift first spelled' =>
      exact (shifted _ _ first _ _ (.reading spelled') rfl).of_next
        (Parser.Machine.next_of_silent stepped)
  | reduce _ _ _ =>
      obtain ⟨id, below, rfl, path⟩ := spelled.exists_top
      rw [Parser.Machine.step_of_reading waiting rfl rfl, parser_asked question] at stepped
      obtain ⟨_, _, answered⟩ := Parser.Machine.exists_reduce_of_perform stepped
      obtain ⟨next, reduces⟩ := exists_reduces wellFormed path answered
      exact absurd reduces (irreducible next)
  | accept _ _ => exact .of_stop stepped (by simp)
  | refuse _ => exact .of_stop stepped (by simp)

/-- Where the reductions on the token that waits end, a machine comes to an end with them. -/
theorem settles_of_ends (wellFormed : g.WellFormed) {symbols : List Symbol} {t : TerminalId}
    (ends : Ends g setting t initialState symbols)
    {machine : Parser.Machine StateId Symbol} {input : Parser.Input Symbol}
    {tokens : List (Parser.Token Symbol)} (tracked : Tracks (Automaton.build g) machine)
    (waiting : machine.pending input = tokens.map .ok)
    (question : asked (tokens.head?.map Parser.Token.symbol) = some t)
    (stacked : machine.symbols.reverse = symbols)
    (shifted : ∀ token behind, tokens = token :: behind → ∀ machine' input',
      Tracks (Automaton.build g) machine' → machine'.pending input' = behind.map .ok →
      Settles (g.parser setting) machine' input') :
    Settles (g.parser setting) machine input := by
  induction ends generalizing machine input with
  | intro symbols _ ih =>
      by_cases finished : machine.phase = .accepted
      · exact .of_accepted finished
      by_cases more : ∃ next, Reduces g setting t initialState symbols next
      · obtain ⟨next, reduces⟩ := more
        obtain ⟨p, arguments, machine', input', ran, tracked', _, stacked', waiting'⟩ :=
          next_of_reduces wellFormed tracked finished waiting question stacked reduces
        exact .reduce ran (ih next reduces tracked' waiting' stacked')
      · obtain ⟨states, spelled, goesOn⟩ :=
          @next_tracked g setting wellFormed machine tracked finished input
        rw [← stacked] at more
        exact (settles_of_irreducible wellFormed spelled waiting question (not_exists.1 more)
          shifted).of_next goesOn

/-- If all reductions end, a machine comes to an end with them on every token. -/
theorem settles_of_all_end (wellFormed : g.WellFormed)
    (ends : ∀ t symbols, Ends g setting t initialState symbols)
    {machine : Parser.Machine StateId Symbol} {input : Parser.Input Symbol}
    {tokens : List (Parser.Token Symbol)} {word : List TerminalId}
    (tracked : Tracks (Automaton.build g) machine)
    (waiting : machine.pending input = tokens.map .ok)
    (carried : tokens.map Parser.Token.symbol = word.map .terminal) :
    Settles (g.parser setting) machine input := by
  induction tokens generalizing machine input word with
  | nil =>
      refine settles_of_ends wellFormed (ends _ _) tracked waiting (asked_of_carried carried) rfl ?_
      rintro token behind ⟨⟩
  | cons token tokens ih =>
      refine settles_of_ends wellFormed (ends _ _) tracked waiting (asked_of_carried carried) rfl ?_
      rintro token behind ⟨rfl, rfl⟩ machine' input' tracked' waiting'
      obtain ⟨t, word, rfl, _, carriedBehind⟩ := List.map_eq_cons_iff.1 carried.symm
      exact ih tracked' waiting' carriedBehind.symm

/-- However often a parser of the tokens has been run, it reports finitely many reductions before it
accepts or fails. -/
def Grammar.Stops (g : Grammar) (defaultReductions : Bool) (tokens : List (Parser.Token Symbol)) :
    Prop :=
  ∀ count, ∃ reductions last machine input,
    g.parse defaultReductions tokens (count + (reductions.length + 1)) =
      ((g.parse defaultReductions tokens count).1 ++ (reductions ++ [last]), machine, input) ∧
    (∀ result ∈ reductions, ∃ p arguments, result = .ok (.reduce p arguments)) ∧
    ((∃ argument, last = .ok (.accept argument)) ∨ ∃ failure, last = .error failure)

theorem stops_of_settles {tokens : List (Parser.Token Symbol)}
    (settles : ∀ count results machine input,
      g.parse setting tokens count = (results, machine, input) →
      Settles (g.parser setting) machine input) : g.Stops setting tokens := by
  intro count
  rcases ran : g.parse setting tokens count with ⟨results, machine, input⟩
  obtain ⟨reductions, last, machine', input', further, reports, ended⟩ :=
    (settles count results machine input ran).runs
  exact ⟨reductions, last, machine', input', Parser.Machine.runs_add ran further, reports, ended⟩

theorem stops_of_all_end (wellFormed : g.WellFormed)
    (ends : ∀ t symbols, Ends g setting t initialState symbols)
    {tokens : List (Parser.Token Symbol)} {word : List TerminalId}
    (carried : tokens.map Parser.Token.symbol = word.map .terminal) : g.Stops setting tokens := by
  refine stops_of_settles ?_
  intro count results machine input ran
  obtain ⟨tracked, _⟩ := (tracks_start g setting).runs wellFormed ran
  obtain ⟨shifted, _, waiting⟩ := exists_shifted ran
  have carriedBehind : (tokens.drop shifted).map Parser.Token.symbol =
      (word.drop shifted).map .terminal := by
    rw [List.map_drop, List.map_drop, carried]
  exact settles_of_all_end wellFormed ends tracked waiting carriedBehind

/-- Without conflicts and without default reductions, a parser always stops.  There is no endless
sequence of reductions on one terminal, whatever the symbols on the stack. -/
theorem explicit_reductions_stop (defined : g.IsDefined)
    (conflictFree : (g.generate false).table.conflicts = []) :
    (∀ (tokens : List (Parser.Token Symbol)) (word : List TerminalId),
      tokens.map Parser.Token.symbol = word.map .terminal → g.Stops false tokens) ∧
    ∀ t stackAt, ¬ Endless g false t initialState stackAt := by
  have ends : ∀ t symbols, Ends g false t initialState symbols := fun _ _ =>
    ends_of_explicit defined.wellFormed conflictFree
  constructor
  · intro tokens word carried
    exact stops_of_all_end defined.wellFormed ends carried
  · intro t stackAt
    exact (ends t (stackAt 0)).not_endless

/-- Opening brackets alone are no sentence, but the parser stops. -/
theorem explicit_reductions_stop_brackets :
    Grammar.brackets.Stops false [⟨.terminal 1, "("⟩, ⟨.terminal 1, "("⟩] :=
  (explicit_reductions_stop Grammar.isDefined_brackets (by decide +kernel)).1 _ [1, 1] rfl

/-! ## Reductions without end -/

/-- A parser that has accepted or failed does not reduce for ever afterwards. -/
theorem settles_of_stopped (wellFormed : g.WellFormed)
    {machine machine' : Parser.Machine StateId Symbol} {input input' : Parser.Input Symbol}
    {result : Parser.Result Symbol ProductionId} (inOrder : InOrder g machine input)
    (ran : machine.next (g.parser setting) input = (result, machine', input'))
    (other : ∀ p arguments, result ≠ .ok (.reduce p arguments)) :
    Settles (g.parser setting) machine' input' := by
  obtain ⟨last, rest, ⟨tracked, tokens, waiting⟩, stopped⟩ := Parser.Machine.exists_stop ran
    (InOrder g) (fun _ _ _ _ inOrder stepped => inOrder.next wellFormed stepped) inOrder
  cases step_outcome wellFormed tracked waiting stopped with
  | reduce _ _ _ => exact absurd rfl (other _ _)
  | accept _ _ => exact .of_accepted rfl
  | refuse _ => exact .of_stop ((Parser.Machine.step_peeked waiting).trans stopped) (by simp)
  | finished => exact .of_accepted rfl

theorem settles_of_reported (wellFormed : g.WellFormed) {tokens : List (Parser.Token Symbol)}
    {count : Nat} {results : List (Parser.Result Symbol ProductionId)}
    {result : Parser.Result Symbol ProductionId} {machine : Parser.Machine StateId Symbol}
    {input : Parser.Input Symbol} (ran : g.parse setting tokens count = (results, machine, input))
    (member : result ∈ results) (other : ∀ p arguments, result ≠ .ok (.reduce p arguments)) :
    Settles (g.parser setting) machine input := by
  induction count generalizing results machine input with
  | zero =>
      cases ran
      simp at member
  | succ count ih =>
      rcases earlier : g.parse setting tokens count with ⟨before, middle, left⟩
      rcases next : middle.next (g.parser setting) left with ⟨last, after, remaining⟩
      rw [Grammar.parse, Parser.Machine.runs_succ earlier, next] at ran
      cases ran
      obtain ⟨tracked, _⟩ := (tracks_start g setting).runs wellFormed earlier
      obtain ⟨_, _, waiting⟩ := exists_shifted earlier
      have inOrder : InOrder g middle left := ⟨tracked, _, waiting⟩
      rcases List.mem_append.1 member with old | new
      · cases ih earlier old with
        | settled next' other' =>
            rw [next] at next'
            cases next'
            exact settles_of_stopped wellFormed inOrder next other'
        | reduce next' later =>
            rw [next] at next'
            cases next'
            exact later
      · cases List.mem_singleton.1 new
        exact settles_of_stopped wellFormed inOrder next other

/-- A parser that reports something else than a reduction once does so again and again. -/
theorem stops_of_reported (wellFormed : g.WellFormed) {tokens : List (Parser.Token Symbol)}
    {bound : Nat} {result : Parser.Result Symbol ProductionId}
    (member : result ∈ (g.parse setting tokens bound).1)
    (other : ∀ p arguments, result ≠ .ok (.reduce p arguments)) : g.Stops setting tokens := by
  refine stops_of_settles ?_
  intro count results machine input ran
  rcases further : Parser.Machine.runs (g.parser setting) bound machine input with
    ⟨later, last, rest⟩
  have whole := Parser.Machine.runs_add ran further
  refine (settles_of_reported wellFormed whole ?_ other).of_runs further
  -- The report is still there after so many runs.
  rcases first : g.parse setting tokens bound with ⟨known, middle, left⟩
  rcases second : Parser.Machine.runs (g.parser setting) count middle left with ⟨more, end', rest'⟩
  have again := Parser.Machine.runs_add first second
  rw [Nat.add_comm, whole, Prod.mk.injEq] at again
  rw [first] at member
  rw [again.1]
  exact List.mem_append_left more member

/-- From some time on, no more tokens are shifted. -/
theorem exists_last_shifted (g : Grammar) (setting : Bool) (tokens : List (Parser.Token Symbol)) :
    ∃ shifted ≤ tokens.length,
      (∀ count results machine input, g.parse setting tokens count = (results, machine, input) →
        tokens.length - shifted ≤ (machine.pending input).length) ∧
      ∃ bound, ∀ count ≥ bound, ∀ results machine input,
        g.parse setting tokens count = (results, machine, input) →
        machine.pending input = (tokens.drop shifted).map .ok := by
  let left : Nat → Nat := fun count =>
    ((g.parse setting tokens count).2.1.pending (g.parse setting tokens count).2.2).length
  obtain ⟨bound, _, least⟩ :=
    (InvImage.wf left wellFounded_lt).has_min Set.univ ⟨0, Set.mem_univ 0⟩
  rcases first : g.parse setting tokens bound with ⟨results, machine, input⟩
  obtain ⟨shifted, inside, waiting⟩ := exists_shifted first
  have leftBound : left bound = tokens.length - shifted := by
    simp only [left, first, waiting, List.length_map, List.length_drop]
  have most : ∀ count results machine input,
      g.parse setting tokens count = (results, machine, input) →
      tokens.length - shifted ≤ (machine.pending input).length := by
    intro count results machine input ran
    have more := Nat.not_lt.1 (least count (Set.mem_univ count))
    rw [leftBound] at more
    simpa only [left, ran] using more
  refine ⟨shifted, inside, most, bound, ?_⟩
  intro count behind results' machine' input' ran
  obtain ⟨more, rfl⟩ := Nat.exists_eq_add_of_le behind
  rcases further : Parser.Machine.runs (g.parser setting) more machine input with
    ⟨later, last, rest⟩
  have whole := ran.symm.trans (Parser.Machine.runs_add first further)
  cases whole
  rw [← waiting]
  refine (Parser.Machine.pending_runs further).eq_of_length_le ?_
  rw [waiting, List.length_map, List.length_drop]
  exact most _ _ _ _ ran

/-- Without conflicts, a parser with default reductions stops as well, if every nonterminal of a form
that the start symbol derives can vanish or begin with a terminal.  Otherwise it may also go on
reducing for ever, but only in front of a token, or of the end of input, that cannot follow what it
has shifted. -/
theorem default_reductions_stop (defined : g.IsDefined)
    (conflictFree : (g.generate true).table.conflicts = [])
    {tokens : List (Parser.Token Symbol)} {word : List TerminalId}
    (carried : tokens.map Parser.Token.symbol = word.map .terminal) :
    g.Stops true tokens ∨
      ¬ g.HasFirsts ∧
      (∀ count, ∀ result ∈ (g.parse true tokens count).1,
        ∃ p arguments, result = .ok (.reduce p arguments)) ∧
      ∃ shifted ≤ tokens.length,
        (∃ bound, ∀ count ≥ bound, ∀ results machine input,
          g.parse true tokens count = (results, machine, input) →
          machine.pending input = (tokens.drop shifted).map .ok) ∧
        (shifted < tokens.length → ∀ after,
          ¬ g.Derives [.nonterminal g.start] ((word.take (shifted + 1)).map .terminal ++ after)) ∧
        (shifted = tokens.length → ¬ g.Derives [.nonterminal g.start] (word.map .terminal)) := by
  have wellFormed := defined.wellFormed
  by_cases stops : g.Stops true tokens
  · exact .inl stops
  right
  refine ⟨?_, ?_, ?_⟩
  · intro hasFirsts
    exact stops (stops_of_all_end wellFormed
      (fun _ _ => ends_of_hasFirsts wellFormed conflictFree hasFirsts) carried)
  · intro count result member
    by_contra other
    refine stops (stops_of_reported wellFormed member ?_)
    rintro p arguments rfl
    exact other ⟨p, arguments, rfl⟩
  · obtain ⟨shifted, inside, most, last⟩ := exists_last_shifted g true tokens
    refine ⟨shifted, inside, last, ?_, ?_⟩
    · intro waits after derived
      obtain ⟨count, results, machine, input, further, ran, waiting, beyond, _⟩ :=
        exists_shifted_of_derives wellFormed conflictFree carried waits derived
      have left := most count results machine input ran
      rw [waiting, List.length_map, List.length_drop] at left
      omega
    · intro _ derived
      obtain ⟨ps, rightmost⟩ := derived.rightmostDerivation
      obtain ⟨results, argument, machine, input, ran, _, _⟩ :=
        (finishes_sentence wellFormed conflictFree carried rightmost).runs
      have accepted : .ok (.accept argument) ∈ (g.parse true tokens (ps.reverse.length + 1)).1 := by
        rw [Grammar.parse, ran]
        simp
      exact stops (stops_of_reported wellFormed accepted (by simp))

theorem default_reductions_stop_brackets :
    Grammar.brackets.Stops true [⟨.terminal 1, "("⟩, ⟨.terminal 1, "("⟩] := by
  rcases @default_reductions_stop _ Grammar.isDefined_brackets (by decide +kernel)
    [⟨.terminal 1, "("⟩, ⟨.terminal 1, "("⟩] [1, 1] rfl with stops | ⟨_, forever, _⟩
  · exact stops
  · obtain ⟨p, arguments, same⟩ :=
      forever 2 (.error (.refused .unexpectedSymbol)) (by decide +kernel)
    cases same

/-! ## A parser that does not stop -/

/-- A grammar whose parser can tread on the spot.  After a `b` there may be any number of `C`, each of
them an empty `B`, and only `y` is expected: nothing begins with `U`.  On a `z`, a `B` is reduced by
default.  The state behind it is shared with what comes after a `c`, where a `B` in front of a `z` is
a `C`; and behind that `C` there can be a `B` again. -/
def Grammar.treadmill : Grammar where
  terminals := #[⟨"$end", none, none⟩, ⟨"b", none, none⟩, ⟨"c", none, none⟩, ⟨"u", none, none⟩,
    ⟨"y", none, none⟩, ⟨"z", none, none⟩]
  nonterminals := #[⟨"$start", none⟩, ⟨"S", none⟩, ⟨"A", none⟩, ⟨"B", none⟩, ⟨"C", none⟩,
    ⟨"D", none⟩, ⟨"E", none⟩, ⟨"U", none⟩]
  productions := #[
    ⟨startNonterminal, #[.nonterminal 1, .terminal endTerminal], none⟩,
    ⟨1, #[.terminal 1, .nonterminal 2], none⟩,
    ⟨1, #[.terminal 1, .nonterminal 6, .terminal 4], none⟩,
    ⟨1, #[.terminal 2, .nonterminal 4, .terminal 5], none⟩,
    ⟨1, #[.terminal 2, .nonterminal 5, .terminal 4], none⟩,
    ⟨2, #[.nonterminal 4, .nonterminal 2, .nonterminal 7], none⟩,
    ⟨2, #[.nonterminal 6, .nonterminal 7], none⟩,
    ⟨6, #[.nonterminal 4, .nonterminal 5], none⟩,
    ⟨4, #[.nonterminal 3], none⟩,
    ⟨5, #[.nonterminal 3], none⟩,
    ⟨3, #[], none⟩,
    ⟨7, #[.nonterminal 7, .terminal 3], none⟩]
  start := 1
  groups := #[[acceptProduction], [1, 2, 3, 4], [5, 6], [10], [8], [9], [7], [11]]

theorem Grammar.isDefined_treadmill : treadmill.IsDefined :=
  ⟨[.terminal "b", .terminal "c", .terminal "u", .terminal "y", .terminal "z",
    .nonterminal "S", .nonterminal "A", .nonterminal "B", .nonterminal "C", .nonterminal "D",
    .nonterminal "E", .nonterminal "U",
    .rule "S" ["b", "A"] none, .rule "S" ["b", "E", "y"] none, .rule "S" ["c", "C", "z"] none,
    .rule "S" ["c", "D", "y"] none, .rule "A" ["C", "A", "U"] none, .rule "A" ["E", "U"] none,
    .rule "E" ["C", "D"] none, .rule "C" ["B"] none, .rule "D" ["B"] none, .rule "B" [] none,
    .rule "U" ["U", "u"] none], by decide +kernel⟩

/-- The machine has just reduced a `B` or a `C` after a `b`, and a `z` waits. -/
inductive Treading : Parser.Machine StateId Symbol → Parser.Input Symbol → Prop
  | intro {top : StateId} {below : List StateId} {n : NonterminalId}
      {items : List (Parser.Item Symbol)} (known : top = 2 ∨ top = 6) (reduced : n = 3 ∨ n = 4) :
      Treading ⟨top :: below, .node (.nonterminal n) :: items, .pendingGoto,
        some ⟨.terminal 5, "z"⟩⟩ []

/-- A goto that is followed by a reduction of at most the symbol it was done for. -/
theorem next_of_goto {table : Parser.ActionTable StateId Symbol ProductionId} {top target : StateId}
    {below : List StateId} {node : Parser.Item Symbol} {items : List (Parser.Item Symbol)}
    {token : Parser.Token Symbol} {input : Parser.Input Symbol} {p : ProductionId} {left : Symbol}
    {length : Nat} (led : table.action top (some node.symbol) = .shift target)
    (answered : table.action target (some token.symbol) = .reduce p left length)
    (short : length ≤ 1) :
    Parser.Machine.next table ⟨top :: below, node :: items, .pendingGoto, some token⟩ input =
      (.ok (.reduce p ((node :: items).take length).reverse),
        ⟨(target :: top :: below).drop length, .node left :: (node :: items).drop length,
          .pendingGoto, some token⟩, input) := by
  have silent : Parser.Machine.step table
      ⟨top :: below, node :: items, .pendingGoto, some token⟩ input =
      .next ⟨target :: top :: below, node :: items, .reading, some token⟩ input := by
    simp only [Parser.Machine.step, led, Parser.Machine.perform]
  have enough : ¬ ((node :: items).length < length ∨ (target :: top :: below).length ≤ length) := by
    simp only [List.length_cons]
    omega
  have stopped : Parser.Machine.step table
      ⟨target :: top :: below, node :: items, .reading, some token⟩ input =
      .stop (.ok (.reduce p ((node :: items).take length).reverse))
        ⟨(target :: top :: below).drop length, .node left :: (node :: items).drop length,
          .pendingGoto, some token⟩ input := by
    simp only [Parser.Machine.step, Parser.Machine.read, answered, Parser.Machine.perform,
      if_neg enough]
  exact (Parser.Machine.next_of_silent silent).trans (Parser.Machine.next_of_stop stopped)

/-- A `B` is reduced to a `C`, and behind that to a `B` again out of nothing. -/
theorem treadmill_answers {top : StateId} (known : top = 2 ∨ top = 6) :
    (∃ target, (Grammar.treadmill.parser true).action top (some (.nonterminal 3)) = .shift target ∧
      (Grammar.treadmill.parser true).action target (some (.terminal 5)) =
        .reduce 8 (.nonterminal 4) 1) ∧
    (Grammar.treadmill.parser true).action top (some (.nonterminal 4)) = .shift 6 ∧
    (Grammar.treadmill.parser true).action 6 (some (.terminal 5)) =
      .reduce 10 (.nonterminal 3) 0 := by
  -- The table is generated once for all its answers.
  have answers : ∀ asked ∈ [
      ((2, .nonterminal 3), .shift 7), ((7, .terminal 5), .reduce 8 (.nonterminal 4) 1),
      ((2, .nonterminal 4), .shift 6), ((6, .terminal 5), .reduce 10 (.nonterminal 3) 0),
      ((6, .nonterminal 3), .shift 10), ((10, .terminal 5), .reduce 8 (.nonterminal 4) 1),
      ((6, .nonterminal 4), .shift 6)],
      (Grammar.treadmill.parser true).action asked.1.1 (some asked.1.2) = asked.2 := by
    decide +kernel
  simp only [List.forall_mem_cons] at answers
  obtain ⟨first, second, third, fourth, fifth, sixth, seventh, _⟩ := answers
  rcases known with rfl | rfl
  · exact ⟨⟨7, first, second⟩, third, fourth⟩
  · exact ⟨⟨10, fifth, sixth⟩, seventh, fourth⟩

theorem Treading.next {machine : Parser.Machine StateId Symbol} {input : Parser.Input Symbol}
    (treading : Treading machine input) :
    ∃ p arguments machine' input',
      machine.next (Grammar.treadmill.parser true) input =
        (.ok (.reduce p arguments), machine', input') ∧ Treading machine' input' := by
  cases treading with
  | intro known reduced =>
      obtain ⟨⟨target, ledB, answeredB⟩, ledC, answeredC⟩ := treadmill_answers known
      rcases reduced with rfl | rfl
      · exact ⟨_, _, _, _, next_of_goto ledB answeredB (Nat.le_refl 1), .intro known (.inr rfl)⟩
      · exact ⟨_, _, _, _, next_of_goto ledC answeredC (Nat.zero_le 1),
          .intro (.inr rfl) (.inl rfl)⟩

theorem Treading.runs {count : Nat} {machine machine' : Parser.Machine StateId Symbol}
    {input input' : Parser.Input Symbol} {results : List (Parser.Result Symbol ProductionId)}
    (treading : Treading machine input)
    (ran : Parser.Machine.runs (Grammar.treadmill.parser true) count machine input =
      (results, machine', input')) :
    (∀ result ∈ results, ∃ p arguments, result = .ok (.reduce p arguments)) ∧
      Treading machine' input' := by
  induction count generalizing results machine' input' with
  | zero =>
      cases ran
      exact ⟨by simp, treading⟩
  | succ count ih =>
      rcases earlier : Parser.Machine.runs (Grammar.treadmill.parser true) count machine input with
        ⟨before, middle, left⟩
      obtain ⟨reports, kept⟩ := ih earlier
      obtain ⟨p, arguments, after, remaining, next, still⟩ := kept.next
      rw [Parser.Machine.runs_succ earlier, next] at ran
      cases ran
      exact ⟨List.forall_mem_append.2 ⟨reports, List.forall_mem_singleton.2 ⟨p, arguments, rfl⟩⟩,
        still⟩

/-- There is a grammar without conflicts whose parser reduces for ever on some tokens. -/
theorem treadmill_reduces_forever :
    Grammar.treadmill.IsDefined ∧ (Grammar.treadmill.generate true).table.conflicts = [] ∧
      ∀ count, ∀ result ∈ (Grammar.treadmill.parse true
          [⟨.terminal 1, "b"⟩, ⟨.terminal 5, "z"⟩] count).1,
        ∃ p arguments, result = .ok (.reduce p arguments) := by
  refine ⟨Grammar.isDefined_treadmill, by decide +kernel, ?_⟩
  have first : (Parser.Machine.start (Grammar.treadmill.parser true)).next
      (Grammar.treadmill.parser true) [.ok ⟨.terminal 1, "b"⟩, .ok ⟨.terminal 5, "z"⟩] =
      (.ok (.reduce 10 []), ⟨[2, 0], [.node (.nonterminal 3), .token ⟨.terminal 1, "b"⟩],
        .pendingGoto, some ⟨.terminal 5, "z"⟩⟩, []) := by decide +kernel
  intro count result member
  cases count with
  | zero => simp [Grammar.parse, Parser.Machine.runs] at member
  | succ count =>
      simp only [Grammar.parse, Parser.Machine.runs_first, List.map_cons, List.map_nil, first,
        List.mem_cons] at member
      rcases member with rfl | later
      · exact ⟨10, [], rfl⟩
      · have treading : Treading ⟨[2, 0], [.node (.nonterminal 3), .token ⟨.terminal 1, "b"⟩],
            .pendingGoto, some ⟨.terminal 5, "z"⟩⟩ [] := .intro (.inl rfl) (.inl rfl)
        exact (treading.runs rfl).1 result later

end Lalr
