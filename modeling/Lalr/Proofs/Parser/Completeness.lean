import Lalr.Proofs.Parser.Soundness

/-!
# Without conflicts, a parser accepts all sentences

A rightmost derivation of a word is followed backwards.  Its last step has put a right-hand side in
place of a nonterminal.  The parser shifts until this right-hand side is complete on its stack, and
then reduces it: at every step the automaton allows just that, and without conflicts the table can
answer nothing else.

Since the parser does not know which derivation is followed, there is only one.
-/

namespace Lalr

open Parser.Machine (pending)

variable {g : Grammar} {defaultReductions : Bool}

/-! ## Finished parses -/

/-- Further runs reduce the productions, one after the other, and then accept. -/
inductive Finishes (table : Parser.ActionTable StateId Symbol ProductionId) :
    List ProductionId → Parser.Machine StateId Symbol → Parser.Input Symbol → Prop
  | accept {machine machine' : Parser.Machine StateId Symbol} {input input' : Parser.Input Symbol}
      {argument : Parser.Item Symbol}
      (next : machine.next table input = (.ok (.accept argument), machine', input')) :
      Finishes table [] machine input
  | reduce {machine machine' : Parser.Machine StateId Symbol} {input input' : Parser.Input Symbol}
      {p : ProductionId} {ps : List ProductionId} {arguments : List (Parser.Item Symbol)}
      (next : machine.next table input = (.ok (.reduce p arguments), machine', input'))
      (later : Finishes table ps machine' input') :
      Finishes table (p :: ps) machine input

namespace Finishes

variable {table : Parser.ActionTable StateId Symbol ProductionId} {ps qs : List ProductionId}
  {machine : Parser.Machine StateId Symbol} {input : Parser.Input Symbol}

theorem unique (first : Finishes table ps machine input)
    (second : Finishes table qs machine input) : ps = qs := by
  induction first generalizing qs with
  | accept next =>
      cases second with
      | accept _ => rfl
      | reduce next' _ =>
          rw [next] at next'
          cases next'
  | reduce next _ ih =>
      cases second with
      | accept next' =>
          rw [next] at next'
          cases next'
      | reduce next' later =>
          rw [next] at next'
          cases next'
          rw [ih later]

theorem runs (finishes : Finishes table ps machine input) :
    ∃ results argument machine' input',
      Parser.Machine.runs table (ps.length + 1) machine input =
        (results ++ [.ok (.accept argument)], machine', input') ∧
      (∀ result ∈ results, ∃ p arguments, result = .ok (.reduce p arguments)) ∧
      reduced results = ps := by
  induction finishes with
  | @accept machine machine' input input' argument next =>
      refine ⟨[], argument, machine', input', ?_, by simp, rfl⟩
      rw [List.length_nil, Parser.Machine.runs_first, next]
      rfl
  | @reduce machine machine' input input' p ps arguments next _ ih =>
      obtain ⟨results, argument, last, rest, ran, reductions, same⟩ := ih
      refine ⟨.ok (.reduce p arguments) :: results, argument, last, rest, ?_,
        List.forall_mem_cons.2 ⟨⟨p, arguments, rfl⟩, reductions⟩, ?_⟩
      · rw [List.length_cons, Parser.Machine.runs_first, next, ran]
        rfl
      · rw [← same]
        rfl

end Finishes

/-! ## Following a derivation -/

theorem asked_of_carried {tokens : List (Parser.Token Symbol)} {rest : List TerminalId}
    (carried : tokens.map Parser.Token.symbol = rest.map .terminal) :
    asked (tokens.head?.map Parser.Token.symbol) = some (rest.head?.getD endTerminal) := by
  rw [← List.head?_map, carried, List.head?_map]
  cases rest.head? <;> rfl

/-- The next reduction is at the end of the stack or further on in the input. -/
theorem exists_unread {symbols front : List Symbol} {rest word : List TerminalId}
    (ends : symbols = [] ∨ ∃ n below, symbols = .nonterminal n :: below)
    (same : symbols.reverse ++ rest.map .terminal = front ++ word.map .terminal) :
    ∃ unread, rest = unread ++ word ∧ front = symbols.reverse ++ unread.map .terminal := by
  have injective : Function.Injective Symbol.terminal := fun _ _ equal => by cases equal; rfl
  rcases List.append_eq_append_iff.1 same with ⟨gap, frontEq, restEq⟩ | ⟨gap, stackEq, wordEq⟩
  · obtain ⟨unread, others, rfl, rfl, equal⟩ := List.map_eq_append_iff.1 restEq
    rw [List.map_injective_iff.2 injective equal]
    exact ⟨unread, rfl, frontEq⟩
  · -- What is read already ends with a nonterminal, and so cannot reach into the word.
    have none_over : gap = [] := by
      rcases List.eq_nil_or_concat gap with empty | ⟨most, last, rfl⟩
      · exact empty
      · have lastTerminal : last ∈ word.map Symbol.terminal := by simp [wordEq]
        rcases ends with rfl | ⟨n, below, rfl⟩
        · simp at stackEq
        · rw [List.reverse_cons, List.concat_eq_append, ← List.append_assoc] at stackEq
          obtain ⟨_, equal⟩ := List.append_inj' stackEq rfl
          cases equal
          simp at lastTerminal
    subst none_over
    refine ⟨[], ?_, by simpa using stackEq.symm⟩
    exact (List.map_injective_iff.2 injective wordEq).symm

/-- A parser that has just reduced goes on like one that reads. -/
theorem next_tracked (wellFormed : g.WellFormed) {machine : Parser.Machine StateId Symbol}
    (tracked : Tracks (Automaton.build g) machine) (unfinished : machine.phase ≠ .accepted)
    (input : Parser.Input Symbol) :
    ∃ states, Spells (Automaton.build g) states machine.symbols ∧
      machine.next (g.parser defaultReductions) input =
        Parser.Machine.next (g.parser defaultReductions)
          ⟨states, machine.items, .reading, machine.peeked⟩ input := by
  cases tracked with
  | reading spelled => exact ⟨_, spelled, rfl⟩
  | pendingGoto spelled stepped =>
      exact ⟨_, spelled.push stepped, Parser.Machine.next_of_silent (step_goto wellFormed spelled stepped)⟩
  | accepted => exact absurd rfl unfinished

section ConflictFree

variable (wellFormed : g.WellFormed)
  (conflictFree : (g.generate defaultReductions).table.conflicts = [])

include wellFormed conflictFree

/-- A parser shifts until the right-hand side is complete, and then reduces it. -/
theorem next_of_handle {p : ProductionId} {production : Production} {front after : List Symbol}
    {unread word : List TerminalId} (listed : g.productions[p]? = some production)
    (valid : g.Valid (front ++ production.right.toList) ⟨p, production.right.size⟩ after)
    (begins : g.Begins after (word.head?.getD endTerminal))
    (inner : .terminal endTerminal ∉ front ++ production.right.toList)
    {states : List StateId} {items : List (Parser.Item Symbol)}
    {peeked : Option (Parser.Token Symbol)} {input : Parser.Input Symbol}
    {tokens : List (Parser.Token Symbol)}
    (spelled : Spells (Automaton.build g) states (items.map Parser.Item.symbol))
    (waiting : pending ⟨states, items, .reading, peeked⟩ input = tokens.map .ok)
    (carried : tokens.map Parser.Token.symbol = (unread ++ word).map .terminal)
    (whole : front ++ production.right.toList =
      (items.map Parser.Item.symbol).reverse ++ unread.map .terminal) :
    ∃ arguments machine' input', ∃ tokens' : List (Parser.Token Symbol),
      Parser.Machine.next (g.parser defaultReductions) ⟨states, items, .reading, peeked⟩ input =
        (.ok (.reduce p arguments), machine', input') ∧
      Tracks (Automaton.build g) machine' ∧ machine'.phase = .pendingGoto ∧
      machine'.symbols = .nonterminal production.left :: front.reverse ∧
      machine'.pending input' = tokens'.map .ok ∧
      tokens'.map Parser.Token.symbol = word.map .terminal := by
  have canonical := Automaton.canonical_build wellFormed
  induction unread generalizing states items peeked input tokens with
  | nil =>
      rw [List.map_nil, List.append_nil] at whole
      obtain ⟨id, below, rfl, path⟩ := spelled.exists_top
      rw [← whole] at path
      obtain ⟨state, found⟩ := canonical.exists_state path
      have answered := parser_reduce wellFormed conflictFree found (asked_of_carried carried) path
        listed valid begins
      obtain ⟨arguments, left, states, rfl, recognised, tracked, next⟩ :=
        next_of_reduce wellFormed spelled waiting (asked_of_carried carried) listed answered
      refine ⟨arguments, _, _, tokens, next, tracked, rfl, ?_,
        Parser.Machine.pending_peeked tokens, carried⟩
      rw [List.map_append, List.map_reverse, recognised, List.reverse_append,
        List.reverse_reverse, List.append_cancel_right_eq] at whole
      rw [whole, List.reverse_reverse]
      rfl
  | cons t unread ih =>
      cases tokens with
      | nil => simp at carried
      | cons token tokens =>
          rw [List.map_cons, List.cons_append, List.map_cons, List.cons.injEq] at carried
          obtain ⟨id, below, rfl, path⟩ := spelled.exists_top
          obtain ⟨last, toEnd, _⟩ := canonical.path_of_valid wellFormed valid inner
          rw [whole, Automaton.follow?_append, path, Option.bind_some] at toEnd
          obtain ⟨target, stepped, _⟩ := Option.bind_eq_some_iff.1 toEnd
          obtain ⟨state, found⟩ := canonical.exists_state path
          have question : asked (some token.symbol) = some t := by
            rw [carried.1]
            rfl
          have answered := parser_shift wellFormed conflictFree found question stepped
          rw [Parser.Machine.next_of_silent (Parser.Machine.step_of_shift waiting answered)]
          rw [← carried.1] at stepped
          refine @ih _ (.token token :: items) none (tokens.map .ok) tokens
            (spelled.push stepped) rfl carried.2 ?_
          rw [whole, List.map_cons, List.map_cons, List.reverse_cons, ← carried.1]
          simp [Parser.Item.symbol]

theorem next_of_start {states : List StateId} {items : List (Parser.Item Symbol)}
    {peeked : Option (Parser.Token Symbol)} {input : Parser.Input Symbol}
    (spelled : Spells (Automaton.build g) states (items.map Parser.Item.symbol))
    (start : items.map Parser.Item.symbol = [.nonterminal g.start])
    (waiting : pending ⟨states, items, .reading, peeked⟩ input = []) :
    ∃ argument machine' input',
      Parser.Machine.next (g.parser defaultReductions) ⟨states, items, .reading, peeked⟩ input =
        (.ok (.accept argument), machine', input') := by
  obtain ⟨id, below, rfl, path⟩ := spelled.exists_top
  obtain ⟨state, found⟩ := (Automaton.canonical_build wellFormed).exists_state path
  have accepting : (Automaton.build g).accepting? g = some id := by
    rw [start, List.reverse_singleton] at path
    obtain ⟨target, stepped, same⟩ := Option.bind_eq_some_iff.1 path
    cases same
    exact stepped
  have question : asked none = some endTerminal := rfl
  have answered := parser_accept conflictFree found question accepting
  obtain ⟨top, rfl, _⟩ := List.map_eq_singleton_iff.1 start
  have stopped : Parser.Machine.step (g.parser defaultReductions)
      ⟨id :: below, [top], .reading, peeked⟩ input =
      .stop (.ok (.accept top)) ⟨id :: below, [], .accepted, none⟩ [] := by
    have nothing : pending ⟨id :: below, [top], .reading, peeked⟩ input =
        ([] : List (Parser.Token Symbol)).map .ok := waiting
    rw [Parser.Machine.step_of_reading nothing rfl rfl, List.head?_nil, Option.map_none, answered]
    rfl
  exact ⟨top, _, _, Parser.Machine.next_of_stop stopped⟩

/-- A parser reduces the steps of a derivation of what it has and what waits, the last one first. -/
theorem finishes_of_derived {ps : List ProductionId} {machine : Parser.Machine StateId Symbol}
    {input : Parser.Input Symbol} {tokens : List (Parser.Token Symbol)} {rest : List TerminalId}
    (tracked : Tracks (Automaton.build g) machine) (unfinished : machine.phase ≠ .accepted)
    (ends : machine.symbols = [] ∨ ∃ n below, machine.symbols = .nonterminal n :: below)
    (waiting : machine.pending input = tokens.map .ok)
    (carried : tokens.map Parser.Token.symbol = rest.map .terminal)
    (derived : g.RightmostDerivation ps [.nonterminal g.start]
      (machine.symbols.reverse ++ rest.map .terminal)) :
    Finishes (g.parser defaultReductions) ps.reverse machine input := by
  induction ps using List.reverseRecOn generalizing machine input tokens rest with
  | nil =>
      generalize whole : machine.symbols.reverse ++ rest.map Symbol.terminal = form at derived
      cases derived
      obtain ⟨start, none_left⟩ : machine.symbols = [.nonterminal g.start] ∧ rest = [] := by
        rcases List.append_eq_singleton_iff.1 whole with ⟨_, later⟩ | ⟨symbols, later⟩
        · simp [List.map_eq_singleton_iff] at later
        · exact ⟨by simpa using congrArg List.reverse symbols, List.map_eq_nil_iff.1 later⟩
      subst none_left
      rw [List.map_nil, List.map_eq_nil_iff] at carried
      rw [carried] at waiting
      obtain ⟨states, spelled, goesOn⟩ := next_tracked wellFormed tracked unfinished input
      obtain ⟨argument, machine', input', next⟩ :=
        next_of_start wellFormed conflictFree spelled start waiting
      exact .accept (goesOn.trans next)
  | append_singleton ps p ih =>
      obtain ⟨production, front, word, listed, earlier, same⟩ := derived.of_concat
      obtain ⟨unread, rfl, whole⟩ := exists_unread ends same
      obtain ⟨after, context, further⟩ := earlier.exists_context wellFormed
      have valid := (context.valid wellFormed listed rfl).complete listed
      have begins : g.Begins after (word.head?.getD endTerminal) := by
        cases word with
        | nil => exact ⟨_, further⟩
        | cons t word => exact ⟨_, further⟩
      have inner : .terminal endTerminal ∉ front ++ production.right.toList := by
        intro member
        have declared := wellFormed.declares_of_derives derived.derives (.terminal endTerminal)
          (by rw [same]; exact List.mem_append_left _ member)
        exact declared.1 rfl
      obtain ⟨states, spelled, goesOn⟩ := next_tracked wellFormed tracked unfinished input
      obtain ⟨arguments, machine', input', tokens', next, tracked', pendingGoto, symbols, waiting',
        carried'⟩ := next_of_handle wellFormed conflictFree listed valid begins inner spelled waiting
          carried whole
      rw [List.reverse_append, List.reverse_singleton, List.singleton_append]
      refine .reduce (goesOn.trans next) (ih tracked' ?_ (.inr ⟨_, _, symbols⟩) waiting' carried' ?_)
      · rw [pendingGoto]
        simp
      · rw [symbols]
        simpa using earlier

/-- A parser of a word reduces the steps of each of its rightmost derivations, the last one first,
and then accepts. -/
theorem finishes_sentence {ps : List ProductionId} {tokens : List (Parser.Token Symbol)}
    {word : List TerminalId} (carried : tokens.map Parser.Token.symbol = word.map .terminal)
    (derived : g.RightmostDerivation ps [.nonterminal g.start] (word.map .terminal)) :
    Finishes (g.parser defaultReductions) ps.reverse (.start (g.parser defaultReductions))
      (tokens.map .ok) :=
  finishes_of_derived wellFormed conflictFree (tracks_start g defaultReductions)
    (by simp [Parser.Machine.start]) (.inl rfl) rfl carried derived

end ConflictFree

/-- With a table without conflicts, a parser accepts every word that the start symbol derives.  Its
reductions, read backwards, are the only rightmost derivation of the word; so a grammar with a word
that has two of them has a conflict. -/
theorem conflictFree_accepts (defined : g.IsDefined) (defaultReductions : Bool) :
    ((g.generate defaultReductions).table.conflicts = [] →
      ∀ (tokens : List (Parser.Token Symbol)) (word : List TerminalId),
        tokens.map Parser.Token.symbol = word.map .terminal →
        g.Derives [.nonterminal g.start] (word.map .terminal) →
        ∃ count results argument machine input,
          g.parse defaultReductions tokens count =
            (results ++ [.ok (.accept argument)], machine, input) ∧
          (∀ result ∈ results, ∃ p arguments, result = .ok (.reduce p arguments)) ∧
          ∀ ps, g.RightmostDerivation ps [.nonterminal g.start] (word.map .terminal) ↔
            ps = (reduced results).reverse) ∧
    ∀ (word : List TerminalId) (ps qs : List ProductionId),
      g.RightmostDerivation ps [.nonterminal g.start] (word.map .terminal) →
      g.RightmostDerivation qs [.nonterminal g.start] (word.map .terminal) →
      ps ≠ qs → (g.generate defaultReductions).table.conflicts ≠ [] := by
  have wellFormed := defined.wellFormed
  constructor
  · intro conflictFree tokens word carried derivable
    obtain ⟨ps, derived⟩ := derivable.rightmostDerivation
    have finishes := finishes_sentence wellFormed conflictFree carried derived
    obtain ⟨results, argument, machine, input, ran, reductions, same⟩ := finishes.runs
    refine ⟨_, results, argument, machine, input, ran, reductions, ?_⟩
    rw [same, List.reverse_reverse]
    intro qs
    constructor
    · intro other
      have again := finishes_sentence wellFormed conflictFree carried other
      exact List.reverse_injective (again.unique finishes)
    · rintro rfl
      exact derived
  · intro word ps qs first second different conflictFree
    have carried : (word.map fun t => (⟨.terminal t, ""⟩ : Parser.Token Symbol)).map
        Parser.Token.symbol = word.map .terminal := by
      simp [Function.comp_def]
    have finishes := finishes_sentence wellFormed conflictFree carried first
    have again := finishes_sentence wellFormed conflictFree carried second
    exact different (List.reverse_injective (finishes.unique again))

theorem conflictFree_accepts_brackets :
    ∃ count results argument machine input,
      Grammar.brackets.parse true [⟨.terminal 1, "("⟩, ⟨.terminal 2, ")"⟩] count =
        (results ++ [.ok (.accept argument)], machine, input) ∧
      (∀ result ∈ results, ∃ p arguments, result = .ok (.reduce p arguments)) ∧
      ∀ ps, Grammar.brackets.RightmostDerivation ps [.nonterminal 1]
          [.terminal 1, .terminal 2] ↔ ps = (reduced results).reverse := by
  have outer : Grammar.brackets.Rewrites [.nonterminal 1]
      [.terminal 1, .nonterminal 1, .terminal 2] :=
    @Grammar.Rewrites.replace .brackets 1
      ⟨1, #[.terminal 1, .nonterminal 1, .terminal 2], none⟩ [] [] rfl
  have inner : Grammar.brackets.Rewrites [.terminal 1, .nonterminal 1, .terminal 2]
      [.terminal 1, .terminal 2] :=
    @Grammar.Rewrites.replace .brackets 2 ⟨1, #[], none⟩ [.terminal 1] [.terminal 2] rfl
  have derivable : Grammar.brackets.Derives [.nonterminal 1] [.terminal 1, .terminal 2] :=
    .tail (.single outer) inner
  exact (conflictFree_accepts Grammar.isDefined_brackets true).1 (by decide +kernel)
    [⟨.terminal 1, "("⟩, ⟨.terminal 2, ")"⟩] [1, 2] rfl derivable

end Lalr
