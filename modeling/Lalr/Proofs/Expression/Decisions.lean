import Lalr.Proofs.Expression.Grammar
import Lalr.Proofs.Table.Conflicts

/-!
# Decisions on expressions

What the table of an expression grammar decides follows from the symbols on the way to a state.
Behind a spine, an operand is shifted, and it is reduced at once.  Behind two expressions with an
operator between them, they can be reduced or a further operator can be shifted, so there a conflict
is met for every operator that can follow.  Nowhere else is there a choice.
-/

namespace Lalr

namespace Grammar.Expressions

variable {g : Grammar} {operand : TerminalId} {id : StateId} {state : State} {look t : TerminalId}
  {operators : List TerminalId} {before : List Symbol}

theorem decision_eq {shift : Option Action} {reductions : List ProductionId}
    (shifted : (g.candidates id state look).shift = shift)
    (reduced : (g.candidates id state look).reductions = reductions) :
    g.decision id state look = Table.decideAction g id look ⟨shift, reductions⟩ := by
  rw [Grammar.decision, ← shifted, ← reduced]

variable (expressions : g.Expressions operand)

include expressions

/-- A spine ends with an operator. -/
theorem getLast?_spine (operates : ∀ t ∈ operators, g.IsOperator t) :
    (g.spine operators).getLast? ≠ some (.nonterminal g.start) ∧
      (g.spine operators).getLast? ≠ some (.terminal operand) := by
  rcases List.eq_nil_or_concat operators with rfl | ⟨front, t, rfl⟩
  · simp
  · have operator := operates t (by simp)
    rw [List.concat_eq_append, spine_concat]
    constructor
    · simp
    · rw [List.getLast?_append]
      simp only [List.getLast?_cons_cons, List.getLast?_singleton, Option.some_or, ne_eq,
        Option.some.injEq, Symbol.terminal.injEq]
      rintro rfl
      exact expressions.apart operator

theorem valid_take {p : ProductionId} {production : Production}
    (listed : g.productions[p]? = some production) (left : production.left = g.start)
    (operates : ∀ t ∈ operators, g.IsOperator t) (ends : g.EndsPhrase look) {dot : Nat}
    (inside : dot ≤ production.right.size) :
    ∃ after, g.Valid (g.spine operators ++ production.right.toList.take dot) ⟨p, dot⟩ after ∧
      g.Begins after look := by
  obtain ⟨after, context, begins⟩ := expressions.exists_context operates ends
  have valid := (context.valid expressions.wellFormed listed left).take listed inside
  exact ⟨after, valid, begins⟩

variable (found : (Automaton.build g).states[id]? = some state)

section Candidates

variable (path : (Automaton.build g).follow? initialState before = some id)

include found path

/-- What can be reduced stands at the end of the path, and what ends a phrase follows. -/
theorem of_reduction {p : ProductionId} (member : p ∈ (g.candidates id state look).reductions) :
    g.EndsPhrase look ∧ ∃ operators, (∀ t ∈ operators, g.IsOperator t) ∧
      (g.productions[p]? = some (g.unit operand) ∧
          before = g.spine operators ++ [.terminal operand] ∨
        ∃ t, g.productions[p]? = some (g.binary t) ∧
          before = g.spine operators ++
            [.nonterminal g.start, .terminal t, .nonterminal g.start]) := by
  have wellFormed := expressions.wellFormed
  have canonical := Automaton.canonical_build wellFormed
  obtain ⟨after, valid⟩ := canonical.valid_of_hasCore path (hasCore_of_candidate found member)
  obtain ⟨before', after', _, valid', begins⟩ := follows_of_candidate wellFormed found member
  obtain ⟨front, production, listed, _, _, whole⟩ := (Grammar.valid_iff wellFormed).1 valid
  dsimp only at listed whole
  rw [Core.right_of_listed listed] at valid valid'
  by_cases accept : p = acceptProduction
  · rw [accept, wellFormed.augmented] at listed
    cases listed
    rw [whole, accept, Core.right_of_listed wellFormed.augmented] at path
    exact absurd (by simp [Definition.augmented]) (canonical.end_not_mem_path path)
  · have left : production.left = g.start := by
      rcases expressions.production listed accept with rfl | ⟨t, rfl⟩ <;> rfl
    obtain ⟨operators, operates, same, _⟩ := expressions.of_valid valid listed left
    obtain ⟨_, _, _, ends⟩ := expressions.of_valid valid' listed left
    refine ⟨ends _ begins, operators, operates, ?_⟩
    rcases expressions.production listed accept with rfl | ⟨t, rfl⟩
    · exact .inl ⟨listed, same⟩
    · exact .inr ⟨t, listed, same⟩

/-- What can be shifted is an operand behind a spine, or an operator behind an expression. -/
theorem of_shift {action : Action} (shifted : (g.candidates id state look).shift = some action) :
    action = .accept ∧ look = endTerminal ∧ before = [.nonterminal g.start] ∨
      ∃ target, action = .shift target ∧
        (Automaton.build g).step? id (.terminal look) = some target ∧
        ∃ operators, (∀ t ∈ operators, g.IsOperator t) ∧
          (look = operand ∧ before = g.spine operators ∨
            g.IsOperator look ∧ before = g.spine operators ++ [.nonterminal g.start]) := by
  have wellFormed := expressions.wellFormed
  have canonical := Automaton.canonical_build wellFormed
  rcases Table.shiftOn?_cases shifted with ⟨accept, accepting, ended⟩ | ⟨target, shift, led⟩
  · have same := canonical.path_of_accepting wellFormed (by simpa using accepting) path
    exact .inl ⟨accept, ended, same⟩
  · right
    have stepped : (Automaton.build g).step? id (.terminal look) = some target := by
      rw [Automaton.step?, found, Option.bind_some, led]
    refine ⟨target, shift, stepped, ?_⟩
    obtain ⟨inner, core, has, next⟩ := canonical.exists_next_of_step stepped
    obtain ⟨after, valid⟩ := canonical.valid_of_hasCore path has
    rcases expressions.of_next next with ended | ⟨dot, listed, same⟩ | ⟨dot, listed⟩
    · exact absurd (congrArg Symbol.terminal ended) inner
    · obtain ⟨operators, operates, whole, _⟩ := expressions.of_valid valid listed rfl
      rw [dot, List.take_zero, List.append_nil] at whole
      exact ⟨operators, operates, .inl ⟨same, whole⟩⟩
    · obtain ⟨operators, operates, whole, _⟩ := expressions.of_valid valid listed rfl
      rw [dot] at whole
      exact ⟨operators, operates, .inr ⟨⟨_, listed⟩, whole⟩⟩

/-- The dot of a valid core can be moved across an operand or an operator. -/
theorem exists_shift {core : Core} {after : List Symbol} (valid : g.Valid before core after)
    (next : core.next g = some (.terminal look)) (inner : look ≠ endTerminal) :
    ∃ target, (Automaton.build g).step? id (.terminal look) = some target ∧
      (g.candidates id state look).shift = some (.shift target) := by
  have canonical := Automaton.canonical_build expressions.wellFormed
  obtain ⟨target, stepped, _⟩ := canonical.hasCore_advance
    (canonical.hasCore_of_valid expressions.wellFormed valid path) next (by simpa using inner)
  exact ⟨target, stepped, shift_candidate expressions.wellFormed found stepped⟩

end Candidates

section Spine

variable (operates : ∀ t ∈ operators, g.IsOperator t)

include found operates

/-- A right-hand side at the end of the path can be reduced, whatever ends the phrase. -/
theorem mem_reductions {p : ProductionId} {production : Production}
    (listed : g.productions[p]? = some production) (left : production.left = g.start)
    (ends : g.EndsPhrase look) (path : (Automaton.build g).follow? initialState
      (g.spine operators ++ production.right.toList) = some id) :
    p ∈ (g.candidates id state look).reductions := by
  obtain ⟨after, valid, begins⟩ :=
    expressions.valid_take listed left operates ends (Nat.le_refl _)
  rw [← Array.length_toList, List.take_length] at valid
  apply candidate_of_valid expressions.wellFormed found path _ begins
  rwa [Core.right_of_listed listed, ← Array.length_toList]

section Operand

/-- Behind a spine, an operand is shifted. -/
theorem decision_operand
    (path : (Automaton.build g).follow? initialState (g.spine operators) = some id) :
    ∃ target, (Automaton.build g).step? id (.terminal operand) = some target ∧
      g.decision id state operand = (some (.shift target), []) := by
  obtain ⟨p, listed⟩ := expressions.unit
  obtain ⟨after, valid, _⟩ :=
    expressions.valid_take listed rfl operates (.inl rfl) (Nat.zero_le _)
  rw [List.take_zero, List.append_nil] at valid
  obtain ⟨target, stepped, shifted⟩ := expressions.exists_shift found path valid
    (Core.next_eq_some.2 ⟨_, listed, rfl⟩) expressions.operand_ne_end
  have reduced : (g.candidates id state operand).reductions = [] := by
    rw [List.eq_nil_iff_forall_not_mem]
    intro q member
    exact expressions.operand_not_ends (expressions.of_reduction found path member).1
  refine ⟨target, stepped, ?_⟩
  rw [decision_eq shifted reduced]
  rfl

/-- An operand is reduced to an expression, whatever ends it. -/
theorem decision_unit (ends : g.EndsPhrase look) (path : (Automaton.build g).follow? initialState
      (g.spine operators ++ [.terminal operand]) = some id) :
    ∃ p : ProductionId, g.productions[p]? = some (g.unit operand) ∧
      g.decision id state look = (some (.reduce p), []) := by
  obtain ⟨p, listed⟩ := expressions.unit
  have member := expressions.mem_reductions found operates listed rfl ends path
  have reduced : (g.candidates id state look).reductions = [p] := by
    apply Table.eq_singleton_of_ascending (Table.pairwise_reductionsOn _ _) member
    intro q other
    obtain ⟨_, others, _, ⟨unit, _⟩ | ⟨t, _, same⟩⟩ := expressions.of_reduction found path other
    · exact expressions.distinct unit listed
    · simpa using congrArg List.getLast? same
  have shifted : (g.candidates id state look).shift = none := by
    cases shift : (g.candidates id state look).shift with
    | none => rfl
    | some action =>
        rcases expressions.of_shift found path shift with ⟨_, _, same⟩ | ⟨target, _, _, others,
            operates', ⟨_, same⟩ | ⟨_, same⟩⟩
        · simpa using congrArg List.getLast? same
        · have last := (expressions.getLast?_spine operates').2
          rw [← same] at last
          simp at last
        · simpa using congrArg List.getLast? same
  refine ⟨p, listed, ?_⟩
  rw [decision_eq shifted reduced]
  rfl

end Operand

/-- An operator can be shifted behind an expression. -/
theorem exists_shift_operator (operator : g.IsOperator look)
    (path : (Automaton.build g).follow? initialState
      (g.spine operators ++ [.nonterminal g.start]) = some id) :
    ∃ target, (Automaton.build g).step? id (.terminal look) = some target ∧
      (g.candidates id state look).shift = some (.shift target) := by
  have inner := expressions.operator_ne_end operator
  obtain ⟨p, listed⟩ := operator
  have inside : 1 ≤ (g.binary look).right.size := by simp [Grammar.binary]
  obtain ⟨after, valid, _⟩ := expressions.valid_take listed rfl operates (.inl rfl) inside
  exact expressions.exists_shift found path valid (Core.next_eq_some.2 ⟨_, listed, rfl⟩) inner

/-- Two expressions and the operator between them are all that can be reduced behind them. -/
theorem reductions_binary (operator : g.IsOperator t) (ends : g.EndsPhrase look)
    (path : (Automaton.build g).follow? initialState (g.spine operators ++
      [.nonterminal g.start, .terminal t, .nonterminal g.start]) = some id) :
    ∃ p : ProductionId, g.productions[p]? = some (g.binary t) ∧
      (g.candidates id state look).reductions = [p] := by
  obtain ⟨p, listed⟩ := operator
  have member := expressions.mem_reductions found operates listed rfl ends path
  refine ⟨p, listed, ?_⟩
  apply Table.eq_singleton_of_ascending (Table.pairwise_reductionsOn _ _) member
  intro q other
  obtain ⟨_, others, _, ⟨_, same⟩ | ⟨u, known, same⟩⟩ := expressions.of_reduction found path other
  · simpa using congrArg List.getLast? same
  · have equal := List.append_inj' same rfl
    simp only [List.cons.injEq, Symbol.terminal.injEq, true_and, and_true] at equal
    rw [← equal.2] at known
    exact expressions.distinct known listed

/-- At the end of input, two expressions and the operator between them are reduced. -/
theorem decision_binary_end (operator : g.IsOperator t)
    (path : (Automaton.build g).follow? initialState (g.spine operators ++
      [.nonterminal g.start, .terminal t, .nonterminal g.start]) = some id) :
    ∃ p : ProductionId, g.productions[p]? = some (g.binary t) ∧
      g.decision id state endTerminal = (some (.reduce p), []) := by
  obtain ⟨p, listed, reduced⟩ :=
    expressions.reductions_binary found operates operator (.inl rfl) path
  have shifted : (g.candidates id state endTerminal).shift = none := by
    cases shift : (g.candidates id state endTerminal).shift with
    | none => rfl
    | some action =>
        rcases expressions.of_shift found path shift with ⟨_, _, same⟩ | ⟨target, _, _, others, _,
            ⟨same, _⟩ | ⟨ending, _⟩⟩
        · have shorter := congrArg List.length same
          simp at shorter
        · exact absurd same.symm expressions.operand_ne_end
        · exact absurd rfl (expressions.operator_ne_end ending)
  refine ⟨p, listed, ?_⟩
  rw [decision_eq shifted reduced]
  rfl

/-- Before a further operator, precedence decides, and the conflict is noted. -/
theorem decision_binary_operator (operator : g.IsOperator t) (further : g.IsOperator look)
    (path : (Automaton.build g).follow? initialState (g.spine operators ++
      [.nonterminal g.start, .terminal t, .nonterminal g.start]) = some id) :
    ∃ (p : ProductionId) (target : StateId), g.productions[p]? = some (g.binary t) ∧
      (Automaton.build g).step? id (.terminal look) = some target ∧
      g.decision id state look = (some (Table.resolve g look (.shift target) p).1,
        [Table.shiftConflict g id look (.shift target) p]) := by
  obtain ⟨p, listed, reduced⟩ :=
    expressions.reductions_binary found operates operator (.inr further) path
  have longer : ∀ u ∈ operators ++ [t], g.IsOperator u :=
    List.forall_mem_append.2 ⟨operates, List.forall_mem_singleton.2 operator⟩
  obtain ⟨target, stepped, shifted⟩ :=
    expressions.exists_shift_operator found longer further (by simpa using path)
  refine ⟨p, target, listed, stepped, ?_⟩
  rw [decision_eq shifted reduced]
  rfl

end Spine

section Whole

variable (path : (Automaton.build g).follow? initialState [.nonterminal g.start] = some id)

include found path

theorem reductions_whole : (g.candidates id state look).reductions = [] := by
  rw [List.eq_nil_iff_forall_not_mem]
  intro q member
  obtain ⟨_, others, _, ⟨_, same⟩ | ⟨u, _, same⟩⟩ := expressions.of_reduction found path member
  · simpa using congrArg List.getLast? same
  · have longer := congrArg List.length same
    simp at longer

/-- At the end of input, a whole expression is accepted. -/
theorem decision_whole_end : g.decision id state endTerminal = (some .accept, []) := by
  have accepting : (Automaton.build g).accepting? g = some id := by
    obtain ⟨target, stepped, same⟩ := Option.bind_eq_some_iff.1 path
    cases same
    exact stepped
  rw [decision_eq (accept_candidate accepting) (expressions.reductions_whole found path)]
  rfl

/-- An operator behind a whole expression is shifted. -/
theorem decision_whole_operator (further : g.IsOperator look) :
    ∃ target, (Automaton.build g).step? id (.terminal look) = some target ∧
      g.decision id state look = (some (.shift target), []) := by
  obtain ⟨target, stepped, shifted⟩ := @exists_shift_operator g operand id state look []
    expressions found (by simp) further path
  refine ⟨target, stepped, ?_⟩
  rw [decision_eq shifted (expressions.reductions_whole found path)]
  rfl

end Whole

end Grammar.Expressions

end Lalr
