import Lalr.Proofs.Expression.Conflicts
import Lalr.Proofs.Parser.Completeness

/-!
# Parsing expressions

A parser of expressions keeps a stack of trees, each but the last with an operator behind it.  When the
next operator comes up, precedence decides whether the last two trees are put together or the operator
is shifted, and in both cases the stack stays in order.  At the end of input the stack is put together
to one tree.

The proof follows the input, and within it the stack: a reduction leaves the input as it is and makes the
stack shorter, and a shift takes an operator and an operand from the input.
-/

namespace Lalr

open Lalr.Parser (Tree Waiting)
open Parser.Machine (pending)

/-- The precedence of a symbol. -/
def Grammar.rank (g : Grammar) : Symbol → Option Precedence
  | .terminal t => g.terminalPrecedence t
  | .nonterminal _ => none

namespace Parser.Waiting

variable {Symbol ρ : Type}

/-- The items of a stack whose trees have all been reduced to the same symbol, the last one first. -/
def items (phrase : Symbol) : List (Waiting Symbol ρ) → List (Item Symbol)
  | [] => [.node phrase]
  | top :: below => .node phrase :: .token top.operator :: items phrase below

theorem items_eq_cons (phrase : Symbol) (waiting : List (Waiting Symbol ρ)) :
    items phrase waiting = .node phrase :: (items phrase waiting).tail := by
  cases waiting <;> rfl

end Parser.Waiting

namespace Grammar

variable {g : Grammar}

/-- The tokens are operators, with an operand behind each of them. -/
inductive Alternating (g : Grammar) (operand : TerminalId) : List (Parser.Token Symbol) → Prop
  | nil : Alternating g operand []
  | cons {operator following : Parser.Token Symbol} {rest : List (Parser.Token Symbol)}
      {t : TerminalId} (symbol : operator.symbol = .terminal t) (operates : g.IsOperator t)
      (symbol' : following.symbol = .terminal operand) (alternating : Alternating g operand rest) :
      Alternating g operand (operator :: following :: rest)

theorem Alternating.exists_look {operand : TerminalId} {tokens : List (Parser.Token Symbol)}
    (alternating : g.Alternating operand tokens) :
    ∃ look, asked (tokens.head?.map Parser.Token.symbol) = some look ∧ g.EndsPhrase look := by
  cases alternating with
  | nil => exact ⟨endTerminal, rfl, .inl rfl⟩
  | @cons operator following rest t symbol operates _ _ =>
      refine ⟨t, ?_, .inr operates⟩
      rw [List.head?_cons, Option.map_some, symbol]
      rfl

/-- The machine holds the stack. -/
structure Holds (g : Grammar) (waiting : List (Waiting Symbol ProductionId))
    (machine : Parser.Machine StateId Symbol) : Prop where
  tracked : Tracks (Automaton.build g) machine
  unfinished : machine.phase ≠ .accepted
  items : machine.items = Waiting.items (.nonterminal g.start) waiting
  operators : ∀ entry ∈ waiting, ∃ t, entry.operator.symbol = .terminal t ∧ g.IsOperator t

/-- The symbols of a stack are a spine and an expression behind it. -/
theorem exists_spine {waiting : List (Waiting Symbol ProductionId)}
    (operates : ∀ entry ∈ waiting, ∃ t, entry.operator.symbol = .terminal t ∧ g.IsOperator t) :
    ∃ operators, (∀ t ∈ operators, g.IsOperator t) ∧
      ((Waiting.items (.nonterminal g.start) waiting).map Parser.Item.symbol).reverse =
        g.spine operators ++ [.nonterminal g.start] := by
  induction waiting with
  | nil => exact ⟨[], by simp, rfl⟩
  | cons top below ih =>
      obtain ⟨operators, known, same⟩ := ih fun entry member => operates entry (by simp [member])
      obtain ⟨t, symbol, operator⟩ := operates top (by simp)
      refine ⟨operators ++ [t], ?_, ?_⟩
      · exact List.forall_mem_append.2 ⟨known, List.forall_mem_singleton.2 operator⟩
      · rw [Waiting.items, List.map_cons, List.map_cons, List.reverse_cons, List.reverse_cons, same,
          spine_concat]
        simp [Parser.Item.symbol, symbol]

namespace Expressions

variable {operand : TerminalId} (expressions : g.Expressions operand)
  {defaultReductions : Bool} {id : StateId} {state : State} {below : List StateId}
  {items : List (Parser.Item Symbol)} {peeked : Option (Parser.Token Symbol)}
  {input : Parser.Input Symbol} {rest tokens : List (Parser.Token Symbol)} {look t : TerminalId}
  {operators : List TerminalId} {token operator : Parser.Token Symbol}

include expressions

/-! ## Steps -/

section Steps

variable (spelled : Spells (Automaton.build g) (id :: below) (items.map Parser.Item.symbol))
  (operates : ∀ t ∈ operators, g.IsOperator t)

include spelled operates

/-- An operand is shifted and reduced. -/
theorem next_operand (spine : (items.map Parser.Item.symbol).reverse = g.spine operators)
    (waiting : pending ⟨id :: below, items, .reading, peeked⟩ input = (token :: rest).map .ok)
    (symbol : token.symbol = .terminal operand) (alternating : g.Alternating operand rest) :
    ∃ p machine' input',
      Parser.Machine.next (g.parser defaultReductions) ⟨id :: below, items, .reading, peeked⟩
          input = (.ok (.reduce p [.token token]), machine', input') ∧
      Tracks (Automaton.build g) machine' ∧ machine'.phase ≠ .accepted ∧
      machine'.items = .node (.nonterminal g.start) :: items ∧
      machine'.pending input' = rest.map .ok := by
  have wellFormed := expressions.wellFormed
  have path := spelled.path
  rw [spine] at path
  obtain ⟨state, found⟩ := (Automaton.canonical_build wellFormed).exists_state path
  obtain ⟨target, stepped, shifting⟩ := expressions.decision_operand found operates path
  have shifted : (g.parser defaultReductions).action id (some token.symbol) = .shift target := by
    rw [symbol]
    exact parser_of_decided found rfl (congrArg Prod.fst shifting)
  rw [Parser.Machine.next_of_silent (Parser.Machine.step_of_shift waiting shifted)]
  -- The machine has the operand on top now, and the state behind it reduces it.
  have further : (Automaton.build g).follow? initialState
      (g.spine operators ++ [.terminal operand]) = some target :=
    Automaton.follow?_concat.2 ⟨id, path, stepped⟩
  obtain ⟨state', found'⟩ := (Automaton.canonical_build wellFormed).exists_state further
  obtain ⟨look, question, ends⟩ := alternating.exists_look
  obtain ⟨p, listed, reducing⟩ := expressions.decision_unit found' operates ends further
  have reduced : (g.parser defaultReductions).action target
      (rest.head?.map Parser.Token.symbol) = .reduce p (.nonterminal g.start) 1 := by
    rw [parser_of_decided found' question (congrArg Prod.fst reducing), Table.respond, listed]
    rfl
  rw [← symbol] at stepped
  obtain ⟨arguments, left, states, same, recognised, tracked, next⟩ :=
    @next_of_reduce g defaultReductions (rest.map .ok) rest wellFormed target (id :: below)
      (.token token :: items) none look p _ (spelled.push stepped) rfl question listed reduced
  obtain ⟨argument, rfl, _⟩ := List.map_eq_singleton_iff.1 recognised
  cases same
  exact ⟨p, _, _, next, tracked, by simp, rfl, Parser.Machine.pending_peeked rest⟩

/-- An operator is shifted, and the operand behind it is shifted and reduced. -/
theorem next_operator
    (spine : (items.map Parser.Item.symbol).reverse = g.spine operators ++ [.nonterminal g.start])
    (waiting : pending ⟨id :: below, items, .reading, peeked⟩ input =
      (operator :: token :: rest).map .ok)
    (symbol : operator.symbol = .terminal t) (operator_t : g.IsOperator t)
    (symbol' : token.symbol = .terminal operand) (alternating : g.Alternating operand rest)
    (found : (Automaton.build g).states[id]? = some state) {target : StateId}
    (stepped : (Automaton.build g).step? id (.terminal t) = some target)
    (decided : (g.decision id state t).1 = some (.shift target)) :
    ∃ p machine' input',
      Parser.Machine.next (g.parser defaultReductions) ⟨id :: below, items, .reading, peeked⟩
          input = (.ok (.reduce p [.token token]), machine', input') ∧
      Tracks (Automaton.build g) machine' ∧ machine'.phase ≠ .accepted ∧
      machine'.items = .node (.nonterminal g.start) :: .token operator :: items ∧
      machine'.pending input' = rest.map .ok := by
  have shifted : (g.parser defaultReductions).action id (some operator.symbol) =
      .shift target := by
    rw [symbol]
    exact parser_of_decided found rfl decided
  rw [Parser.Machine.next_of_silent (Parser.Machine.step_of_shift waiting shifted)]
  have longer : ∀ u ∈ operators ++ [t], g.IsOperator u :=
    List.forall_mem_append.2 ⟨operates, List.forall_mem_singleton.2 operator_t⟩
  have spine' : ((Parser.Item.token operator :: items).map Parser.Item.symbol).reverse =
      g.spine (operators ++ [t]) := by
    rw [List.map_cons, List.reverse_cons, spine, spine_concat]
    simp [Parser.Item.symbol, symbol]
  rw [← symbol] at stepped
  exact @next_operand g operand expressions defaultReductions target (id :: below)
    (.token operator :: items) none ((token :: rest).map .ok) rest (operators ++ [t]) token
    (spelled.push stepped) longer spine' rfl symbol' alternating

end Steps

/-- Two expressions and the operator between them are reduced. -/
theorem next_binary {others : List (Parser.Item Symbol)}
    (spelled : Spells (Automaton.build g) (id :: below)
      ((.node (.nonterminal g.start) :: .token operator :: .node (.nonterminal g.start) ::
        others : List (Parser.Item Symbol)).map Parser.Item.symbol))
    (waiting : pending ⟨id :: below, .node (.nonterminal g.start) :: .token operator ::
      .node (.nonterminal g.start) :: others, .reading, peeked⟩ input = tokens.map .ok)
    (question : asked (tokens.head?.map Parser.Token.symbol) = some look)
    (found : (Automaton.build g).states[id]? = some state) {p : ProductionId}
    (listed : g.productions[p]? = some (g.binary t))
    (decided : (g.decision id state look).1 = some (.reduce p)) :
    ∃ machine' input',
      Parser.Machine.next (g.parser defaultReductions)
          ⟨id :: below, .node (.nonterminal g.start) :: .token operator ::
            .node (.nonterminal g.start) :: others, .reading, peeked⟩ input =
        (.ok (.reduce p [.node (.nonterminal g.start), .token operator,
          .node (.nonterminal g.start)]), machine', input') ∧
      Tracks (Automaton.build g) machine' ∧ machine'.phase ≠ .accepted ∧
      machine'.items = .node (.nonterminal g.start) :: others ∧
      machine'.pending input' = tokens.map .ok := by
  have reduced : (g.parser defaultReductions).action id
      (tokens.head?.map Parser.Token.symbol) = .reduce p (.nonterminal g.start) 3 := by
    rw [parser_of_decided found question decided, Table.respond, listed]
    rfl
  obtain ⟨arguments, left, states, same, recognised, tracked, next⟩ :=
    next_of_reduce expressions.wellFormed spelled waiting question listed reduced
  have length : arguments.reverse.length = 3 := by
    have total := congrArg List.length recognised
    simpa [binary] using total
  have split : [.node (.nonterminal g.start), .token operator, .node (.nonterminal g.start)] ++
      others = arguments.reverse ++ left := same
  obtain ⟨first, rfl⟩ := List.append_inj split length.symm
  have order : arguments = [.node (.nonterminal g.start), .token operator,
      .node (.nonterminal g.start)] := by
    rw [← List.reverse_reverse arguments, ← first]
    rfl
  subst order
  exact ⟨_, _, next, tracked, by simp, rfl,
    Parser.Machine.pending_peeked tokens⟩

end Expressions

/-! ## Runs -/

section Runs

variable {operand : TerminalId} {defaultReductions : Bool}
  {machine : Parser.Machine StateId Symbol} {input : Parser.Input Symbol}
  {tokens : List (Parser.Token Symbol)} {waiting : List (Waiting Symbol ProductionId)}

/-- The machine goes on like one that reads behind the last expression of the stack. -/
structure Reads (g : Grammar) (defaultReductions : Bool)
    (waiting : List (Waiting Symbol ProductionId)) (machine : Parser.Machine StateId Symbol)
    (input : Parser.Input Symbol) (id : StateId) (below : List StateId) (state : State) :
    Prop where
  spelled : Spells (Automaton.build g) (id :: below)
    ((Waiting.items (.nonterminal g.start) waiting).map Parser.Item.symbol)
  found : (Automaton.build g).states[id]? = some state
  goesOn : machine.next (g.parser defaultReductions) input =
    Parser.Machine.next (g.parser defaultReductions)
      ⟨id :: below, Waiting.items (.nonterminal g.start) waiting, .reading, machine.peeked⟩ input

theorem Holds.exists_reads (wellFormed : g.WellFormed) (holds : g.Holds waiting machine)
    (defaultReductions : Bool) (input : Parser.Input Symbol) :
    ∃ id below state, g.Reads defaultReductions waiting machine input id below state := by
  obtain ⟨states, spelled, goesOn⟩ := next_tracked wellFormed holds.tracked holds.unfinished input
  rw [Parser.Machine.symbols, holds.items] at spelled
  rw [holds.items] at goesOn
  obtain ⟨id, below, rfl, path⟩ := spelled.exists_top
  obtain ⟨state, found⟩ := (Automaton.canonical_build wellFormed).exists_state path
  exact ⟨id, below, state, spelled, found, goesOn⟩

theorem Holds.pop {top : Waiting Symbol ProductionId} (holds : g.Holds (top :: waiting) machine)
    {machine' : Parser.Machine StateId Symbol} (tracked : Tracks (Automaton.build g) machine')
    (unfinished : machine'.phase ≠ .accepted)
    (items : machine'.items = Waiting.items (.nonterminal g.start) waiting) :
    g.Holds waiting machine' :=
  ⟨tracked, unfinished, items, fun entry member => holds.operators entry (by simp [member])⟩

theorem Holds.push (holds : g.Holds waiting machine) {left : Tree Symbol ProductionId}
    {operator : Parser.Token Symbol} {t : TerminalId} (symbol : operator.symbol = .terminal t)
    (operates : g.IsOperator t) {machine' : Parser.Machine StateId Symbol}
    (tracked : Tracks (Automaton.build g) machine') (unfinished : machine'.phase ≠ .accepted)
    (items : machine'.items = .node (.nonterminal g.start) :: .token operator ::
      Waiting.items (.nonterminal g.start) waiting) :
    g.Holds (⟨left, operator⟩ :: waiting) machine' := by
  refine ⟨tracked, unfinished, items, ?_⟩
  intro entry member
  rcases List.mem_cons.1 member with rfl | known
  · exact ⟨t, symbol, operates⟩
  · exact holds.operators entry known

variable (expressions : g.Expressions operand)

include expressions

/-- Behind two trees with an operator between them, a machine reads in a state that decides about
them. -/
theorem Expressions.exists_binary {top : Waiting Symbol ProductionId}
    (holds : g.Holds (top :: waiting) machine) (input : Parser.Input Symbol) :
    ∃ id below state operators t,
      g.Reads defaultReductions (top :: waiting) machine input id below state ∧
      (∀ u ∈ operators, g.IsOperator u) ∧ g.IsOperator t ∧ top.operator.symbol = .terminal t ∧
      (Automaton.build g).follow? initialState (g.spine operators ++
        [.nonterminal g.start, .terminal t, .nonterminal g.start]) = some id := by
  obtain ⟨id, below, state, reads⟩ :=
    holds.exists_reads expressions.wellFormed defaultReductions input
  obtain ⟨t, symbol, operator⟩ := holds.operators top (by simp)
  obtain ⟨operators, operates, same⟩ :=
    exists_spine fun entry member => holds.operators entry (List.mem_cons_of_mem _ member)
  have path := reads.spelled.path
  rw [Waiting.items, List.map_cons, List.map_cons, List.reverse_cons, List.reverse_cons, same] at path
  simp only [Parser.Item.symbol, symbol, List.append_assoc, List.cons_append,
    List.nil_append] at path
  exact ⟨id, below, state, operators, t, reads, operates, operator, symbol, path⟩

/-- At the end of input, a single tree is accepted. -/
theorem Expressions.next_whole (holds : g.Holds [] machine) (pending : machine.pending input = []) :
    ∃ argument machine' input', machine.next (g.parser defaultReductions) input =
      (.ok (.accept argument), machine', input') := by
  obtain ⟨id, below, state, reads⟩ :=
    holds.exists_reads expressions.wellFormed defaultReductions input
  have decided := expressions.decision_whole_end reads.found reads.spelled.path
  have answered : (g.parser defaultReductions).action id none = .accept :=
    parser_of_decided reads.found rfl (congrArg Prod.fst decided)
  have nothing : Parser.Machine.pending
      ⟨id :: below, [.node (.nonterminal g.start)], .reading, machine.peeked⟩ input =
      ([] : List (Parser.Token Symbol)).map .ok := pending
  have stopped : Parser.Machine.step (g.parser defaultReductions)
      ⟨id :: below, [.node (.nonterminal g.start)], .reading, machine.peeked⟩ input =
      .stop (.ok (.accept (.node (.nonterminal g.start))))
        ⟨id :: below, [], .accepted, none⟩ [] := by
    rw [Parser.Machine.step_of_reading nothing rfl rfl, List.head?_nil, Option.map_none, answered]
    rfl
  exact ⟨_, _, _, reads.goesOn.trans (Parser.Machine.next_of_stop stopped)⟩

/-- Two trees are put together, with the operator between them. -/
theorem Expressions.next_together {top : Waiting Symbol ProductionId}
    (holds : g.Holds (top :: waiting) machine) (pending : machine.pending input = tokens.map .ok)
    {look : TerminalId} (question : asked (tokens.head?.map Parser.Token.symbol) = some look)
    {id : StateId} {below : List StateId} {state : State} {p : ProductionId} {t : TerminalId}
    (reads : g.Reads defaultReductions (top :: waiting) machine input id below state)
    (listed : g.productions[p]? = some (g.binary t))
    (decided : (g.decision id state look).1 = some (.reduce p)) :
    ∃ machine' input', machine.next (g.parser defaultReductions) input =
        (.ok (.reduce p [.node (.nonterminal g.start), .token top.operator,
          .node (.nonterminal g.start)]), machine', input') ∧
      g.Holds waiting machine' ∧ machine'.pending input' = tokens.map .ok := by
  obtain ⟨spelled, found, goesOn⟩ := reads
  rw [Waiting.items, Waiting.items_eq_cons] at spelled goesOn
  obtain ⟨machine', input', next, tracked, unfinished, items, pending'⟩ :=
    expressions.next_binary spelled pending question found listed decided
  rw [← Waiting.items_eq_cons] at items
  exact ⟨machine', input', goesOn.trans next, holds.pop tracked unfinished items, pending'⟩

/-- An operator and the operand behind it are put on the stack. -/
theorem Expressions.next_shift {operator following : Parser.Token Symbol} {t : TerminalId}
    (symbol : operator.symbol = .terminal t) (operates : g.IsOperator t)
    (symbol' : following.symbol = .terminal operand) (alternating : g.Alternating operand tokens)
    (holds : g.Holds waiting machine)
    (pending : machine.pending input = (operator :: following :: tokens).map .ok)
    {id target : StateId} {below : List StateId} {state : State}
    (reads : g.Reads defaultReductions waiting machine input id below state)
    (stepped : (Automaton.build g).step? id (.terminal t) = some target)
    (decided : (g.decision id state t).1 = some (.shift target)) :
    ∃ p machine' input', machine.next (g.parser defaultReductions) input =
        (.ok (.reduce p [.token following]), machine', input') ∧
      (∀ left, g.Holds (⟨left, operator⟩ :: waiting) machine') ∧
      machine'.pending input' = tokens.map .ok := by
  obtain ⟨operators, known, spine⟩ := exists_spine holds.operators
  obtain ⟨p, machine', input', next, tracked, unfinished, items, pending'⟩ :=
    expressions.next_operator reads.spelled known spine pending symbol operates symbol' alternating
      reads.found stepped decided
  exact ⟨p, machine', input', reads.goesOn.trans next,
    fun _ => holds.push symbol operates tracked unfinished items, pending'⟩

/-- Whatever stack a machine holds, the tokens make one tree of it, which is grouped by precedence. -/
def Unites (g : Grammar) (defaultReductions : Bool) (tokens : List (Parser.Token Symbol)) : Prop :=
  ∀ (waiting : List (Waiting Symbol ProductionId)) (last : Tree Symbol ProductionId)
    (machine : Parser.Machine StateId Symbol) (input : Parser.Input Symbol),
    g.Holds waiting machine → machine.pending input = tokens.map .ok →
    Waiting.Ordered g.rank waiting last →
    (∀ token ∈ tokens.head?, ∀ outer, g.rank token.symbol = some outer →
      last.Fits g.rank Precedence.FitsLeft outer) →
    ∃ tree, Tree.Builds (g.parser defaultReductions) tree (last :: waiting.map (·.left)) machine
        input ∧ tree.Grouped g.rank ∧
      tree.leaves = Waiting.leaves waiting ++ last.leaves ++ tokens

/-- The end of input puts all trees together. -/
theorem Expressions.unites_nil : g.Unites defaultReductions [] := by
  intro waiting
  induction waiting with
  | nil =>
      intro last machine input holds pending ordered _
      obtain ⟨argument, machine', input', next⟩ :=
        @Expressions.next_whole g operand defaultReductions machine input expressions holds pending
      exact ⟨last, .accept next, ordered.grouped, by simp [Waiting.leaves]⟩
  | cons top waiting ih =>
      intro last machine input holds pending ordered _
      obtain ⟨id, below, state, operators, t, reads, operates, operator, symbol, path⟩ :=
        expressions.exists_binary holds input
      obtain ⟨p, listed, decided⟩ :=
        expressions.decision_binary_end reads.found operates operator path
      obtain ⟨machine', input', next, holds', pending'⟩ := expressions.next_together holds pending
        rfl reads listed (congrArg Prod.fst decided)
      obtain ⟨tree, builds, grouped, leaves⟩ :=
        ih _ machine' input' holds' pending' (ordered.reduce p) (by simp)
      refine ⟨tree, .reduce next builds, grouped, ?_⟩
      simpa [Waiting.leaves, Tree.leaves, Tree.leavesOf] using leaves

/-- Once an operator is shifted with the operand behind it, later tokens do the rest. -/
theorem Expressions.unites_shift {operator following : Parser.Token Symbol} {t : TerminalId}
    (symbol : operator.symbol = .terminal t) (operates : g.IsOperator t)
    (symbol' : following.symbol = .terminal operand) (alternating : g.Alternating operand tokens)
    (unites : g.Unites defaultReductions tokens) {last : Tree Symbol ProductionId}
    (holds : g.Holds waiting machine)
    (pending : machine.pending input = (operator :: following :: tokens).map .ok)
    (ordered : Waiting.Ordered g.rank waiting last) {above : Precedence}
    (ranked : g.terminalPrecedence t = some above) (admitted : Waiting.Admits g.rank waiting above)
    (fits : last.Fits g.rank Precedence.FitsLeft above)
    {id target : StateId} {below : List StateId} {state : State}
    (reads : g.Reads defaultReductions waiting machine input id below state)
    (stepped : (Automaton.build g).step? id (.terminal t) = some target)
    (decided : (g.decision id state t).1 = some (.shift target)) :
    ∃ tree, Tree.Builds (g.parser defaultReductions) tree (last :: waiting.map (·.left)) machine
        input ∧ tree.Grouped g.rank ∧
      tree.leaves = Waiting.leaves waiting ++ last.leaves ++ operator :: following :: tokens := by
  have operatorRank : g.rank operator.symbol = some above := by
    rw [symbol]
    exact ranked
  have followingRank : g.rank following.symbol = none := by
    rw [symbol']
    exact expressions.unranked
  obtain ⟨p, machine', input', next, holds', pending'⟩ := expressions.next_shift symbol operates
    symbol' alternating holds pending reads stepped decided
  obtain ⟨tree, builds, grouped, leaves⟩ := unites _ _ machine' input' (holds' last) pending'
    (ordered.shift operatorRank admitted fits followingRank p)
    fun _ _ outer _ => Tree.fits_operand _ outer p following
  refine ⟨tree, .reduce next builds, grouped, ?_⟩
  simpa [Waiting.leaves, Tree.leaves, Tree.leavesOf] using leaves

/-- A further operator puts trees together as long as precedence says so, and is then shifted. -/
theorem Expressions.unites_cons {operator following : Parser.Token Symbol} {t : TerminalId}
    (symbol : operator.symbol = .terminal t) (operates : g.IsOperator t)
    (symbol' : following.symbol = .terminal operand) (alternating : g.Alternating operand tokens)
    (unites : g.Unites defaultReductions tokens) :
    g.Unites defaultReductions (operator :: following :: tokens) := by
  obtain ⟨above, ranked⟩ := expressions.ranked operates
  have operatorRank : g.rank operator.symbol = some above := by
    rw [symbol]
    exact ranked
  intro waiting
  induction waiting with
  | nil =>
      intro last machine input holds pending ordered fits
      obtain ⟨id, below, state, reads⟩ :=
        holds.exists_reads expressions.wellFormed defaultReductions input
      obtain ⟨target, stepped, decided⟩ :=
        expressions.decision_whole_operator reads.found reads.spelled.path operates
      have admitted : Waiting.Admits g.rank ([] : List (Waiting Symbol ProductionId)) above := by
        simp [Waiting.Admits]
      exact expressions.unites_shift symbol operates symbol' alternating unites holds pending ordered
        ranked admitted (fits operator rfl above operatorRank) reads stepped
        (congrArg Prod.fst decided)
  | cons top waiting ih =>
      intro last machine input holds pending ordered fits
      obtain ⟨id, stack, state, operators, u, reads, known, operator', symbol'', path⟩ :=
        expressions.exists_binary holds input
      obtain ⟨p, target, listed, stepped, decided⟩ :=
        expressions.decision_binary_operator reads.found known operator' operates path
      obtain ⟨below, ranked'⟩ := expressions.ranked operator'
      have topRank : g.rank top.operator.symbol = some below := by
        rw [symbol'']
        exact ranked'
      have taken := congrArg Prod.fst decided
      rcases expressions.resolve_cases listed ranked' ranked (.shift target) with
        ⟨reduce, fitsLeft⟩ | ⟨shift, fitsRight⟩
      · rw [reduce] at taken
        have question : asked (some operator.symbol) = some t := by
          rw [symbol]
          rfl
        obtain ⟨machine', input', next, holds', pending'⟩ :=
          expressions.next_together holds pending question reads listed taken
        have fits' : ∀ token ∈ (operator :: following :: tokens).head?, ∀ outer,
            g.rank token.symbol = some outer → Tree.Fits g.rank Precedence.FitsLeft outer
              (.node p [top.left, .leaf top.operator, last]) := by
          rintro token member outer same
          cases member
          rw [operatorRank, Option.some.injEq] at same
          exact Tree.fits_binary topRank (same ▸ fitsLeft) p _ _
        obtain ⟨tree, builds, grouped, leaves⟩ :=
          ih _ machine' input' holds' pending' (ordered.reduce p) fits'
        refine ⟨tree, .reduce next builds, grouped, ?_⟩
        simpa [Waiting.leaves, Tree.leaves, Tree.leavesOf] using leaves
      · rw [shift] at taken
        have admitted : Waiting.Admits g.rank (top :: waiting) above := by
          rintro entry member
          cases member
          exact ⟨below, topRank, fitsRight⟩
        exact expressions.unites_shift symbol operates symbol' alternating unites holds pending
          ordered ranked admitted (fits operator rfl above operatorRank) reads stepped taken

theorem Expressions.unites (alternating : g.Alternating operand tokens) :
    g.Unites defaultReductions tokens := by
  induction alternating with
  | nil => exact expressions.unites_nil
  | cons symbol operates symbol' alternating ih =>
      exact expressions.unites_cons symbol operates symbol' alternating ih

/-- A parser builds one tree of an operand with operators and operands behind it, and the tree is
grouped by precedence. -/
theorem Expressions.exists_tree {token : Parser.Token Symbol}
    (symbol : token.symbol = .terminal operand) (alternating : g.Alternating operand tokens) :
    ∃ count results argument machine input tree,
      g.parse defaultReductions (token :: tokens) count =
        (results ++ [.ok (.accept argument)], machine, input) ∧
      (∀ result ∈ results, ∃ p arguments, result = .ok (.reduce p arguments)) ∧
      Tree.build results = [tree] ∧ tree.Grouped g.rank ∧ tree.leaves = token :: tokens := by
  obtain ⟨p, machine, input, next, tracked, unfinished, items, pending⟩ :=
    @Expressions.next_operand g operand expressions defaultReductions initialState [] [] none
      ((token :: tokens).map .ok) tokens [] token .start (by simp) rfl rfl symbol alternating
  have holds : g.Holds [] machine := ⟨tracked, unfinished, items, by simp⟩
  have ordered : Waiting.Ordered g.rank [] (.node p [.leaf token]) := by
    apply Waiting.Ordered.bottom
    apply Tree.Grouped.operand
    rw [symbol]
    exact expressions.unranked
  obtain ⟨tree, builds, grouped, leaves⟩ := expressions.unites alternating [] _ machine input holds
    pending ordered fun _ _ outer _ => Tree.fits_operand _ outer p token
  have whole : Tree.Builds (g.parser defaultReductions) tree []
      (.start (g.parser defaultReductions)) ((token :: tokens).map .ok) := .reduce next builds
  obtain ⟨count, results, argument, machine', input', ran, reductions, built⟩ := whole.runs
  refine ⟨count, results, argument, machine', input', tree, ran, reductions, built, grouped, ?_⟩
  simpa [Waiting.leaves, Tree.leaves, Tree.leavesOf] using leaves

end Runs

end Grammar

end Lalr
