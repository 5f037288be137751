import Lalr.Proofs.Grammar.Context

/-!
# Grammars of expressions

An expression is an operand, or two expressions with an operator between them.  Such a grammar is
ambiguous; precedences tell which trees are meant.

What can stand before an expression is a *spine*: expressions, each with an operator behind it.  What
can stand after it begins with an operator or ends the input.  This settles which cores are valid
where.
-/

namespace Lalr

namespace Grammar

variable {g : Grammar} {operand : TerminalId}

/-- The production of two expressions with an operator between them. -/
def binary (g : Grammar) (t : TerminalId) : Production where
  left := g.start
  right := #[.nonterminal g.start, .terminal t, .nonterminal g.start]

/-- The production of a lone operand. -/
def unit (g : Grammar) (operand : TerminalId) : Production where
  left := g.start
  right := #[.terminal operand]

def IsOperator (g : Grammar) (t : TerminalId) : Prop :=
  ∃ p : ProductionId, g.productions[p]? = some (g.binary t)

/-- The grammar is that of expressions with the given operand.  All its operators have a precedence,
and those of one level group alike. -/
structure Expressions (g : Grammar) (operand : TerminalId) : Prop where
  wellFormed : g.WellFormed
  production : ∀ {p : ProductionId} {production : Production},
    g.productions[p]? = some production → p ≠ acceptProduction →
      production = g.unit operand ∨ ∃ t, production = g.binary t
  unit : ∃ p : ProductionId, g.productions[p]? = some (g.unit operand)
  distinct : ∀ {p q : ProductionId} {production : Production},
    g.productions[p]? = some production → g.productions[q]? = some production → p = q
  apart : ¬ g.IsOperator operand
  ranked : ∀ {t : TerminalId}, g.IsOperator t → ∃ precedence, g.terminalPrecedence t = some precedence
  unranked : g.terminalPrecedence operand = none
  associativity : ∀ {t u : TerminalId} {first second : Precedence},
    g.terminalPrecedence t = some first → g.terminalPrecedence u = some second →
      first.level = second.level → first = second

/-- The symbols before an expression: other expressions, each with an operator behind it. -/
def spine (g : Grammar) (operators : List TerminalId) : List Symbol :=
  operators.flatMap fun t => [.nonterminal g.start, .terminal t]

@[simp] theorem spine_nil (g : Grammar) : g.spine [] = [] := rfl

@[simp] theorem spine_concat (g : Grammar) (operators : List TerminalId) (t : TerminalId) :
    g.spine (operators ++ [t]) = g.spine operators ++ [.nonterminal g.start, .terminal t] := by
  simp [spine]

/-- What can come right behind an expression. -/
def EndsPhrase (g : Grammar) (t : TerminalId) : Prop := t = endTerminal ∨ g.IsOperator t

theorem begins_terminal_iff {t u : TerminalId} {rest : List Symbol} :
    g.Begins (.terminal t :: rest) u ↔ u = t := by
  rw [begins_iff_exposes]
  constructor
  · intro exposed
    cases exposed
    rfl
  · rintro rfl
    exact .front u rest

/-! ## Contexts -/

section Contexts

variable {p : ProductionId} {t look : TerminalId} {before after : List Symbol}
  {operators : List TerminalId}

theorem Context.binary_left (context : g.Context before g.start after)
    (listed : g.productions[p]? = some (g.binary t)) :
    g.Context before g.start (.terminal t :: .nonterminal g.start :: after) := by
  have inner := @Context.descend g p _ before after [] [.terminal t, .nonterminal g.start] g.start
    context listed rfl
  rwa [List.append_nil] at inner

theorem Context.binary_right (context : g.Context before g.start after)
    (listed : g.productions[p]? = some (g.binary t)) :
    g.Context (before ++ [.nonterminal g.start, .terminal t]) g.start after :=
  @Context.descend g p _ before after [.nonterminal g.start, .terminal t] [] g.start context listed
    rfl

variable (expressions : g.Expressions operand)

include expressions

theorem Expressions.ne_accept {production : Production}
    (listed : g.productions[p]? = some production) (left : production.left = g.start) :
    p ≠ acceptProduction := by
  rintro rfl
  rw [expressions.wellFormed.augmented] at listed
  cases listed
  exact expressions.wellFormed.start.1 left.symm

theorem Expressions.operator_ne_end (operator : g.IsOperator t) : t ≠ endTerminal := by
  obtain ⟨p, listed⟩ := operator
  have declared := expressions.wellFormed.right listed (expressions.ne_accept listed rfl)
    (.terminal t) (by simp [binary])
  exact declared.1

theorem Expressions.operand_ne_end : operand ≠ endTerminal := by
  obtain ⟨p, listed⟩ := expressions.unit
  have declared := expressions.wellFormed.right listed (expressions.ne_accept listed rfl)
    (.terminal operand) (by simp [Grammar.unit])
  exact declared.1

theorem Expressions.operand_not_ends : ¬ g.EndsPhrase operand := by
  rintro (ended | operator)
  · exact expressions.operand_ne_end ended
  · exact expressions.apart operator

/-- Behind a spine, an expression can be followed by any operator and by the end of input. -/
theorem Expressions.exists_context (operates : ∀ t ∈ operators, g.IsOperator t)
    (ends : g.EndsPhrase look) :
    ∃ after, g.Context (g.spine operators) g.start after ∧ g.Begins after look := by
  induction operators using List.reverseRecOn with
  | nil =>
      have whole : g.Context [] g.start [.terminal endTerminal, .terminal endTerminal] :=
        @Context.descend g acceptProduction _ [] _ [] [.terminal endTerminal] g.start .start
          expressions.wellFormed.augmented rfl
      rcases ends with rfl | ⟨p, listed⟩
      · exact ⟨_, whole, begins_terminal _ _⟩
      · exact ⟨_, whole.binary_left listed, begins_terminal _ _⟩
  | append_singleton operators t ih =>
      obtain ⟨after, context, begins⟩ := ih fun u member => operates u (by simp [member])
      obtain ⟨p, listed⟩ := operates t (by simp)
      rw [spine_concat]
      exact ⟨after, context.binary_right listed, begins⟩

/-- Nothing else stands before and after an expression. -/
theorem Expressions.of_context (context : g.Context before g.start after) :
    (∃ operators, (∀ t ∈ operators, g.IsOperator t) ∧ before = g.spine operators) ∧
      ∃ look rest, g.EndsPhrase look ∧ after = .terminal look :: rest := by
  generalize same : g.start = n at context
  induction context with
  | start => exact absurd same expressions.wellFormed.start.1
  | @descend p production before after front back n outer listed split ih =>
      subst same
      by_cases accept : p = acceptProduction
      · rw [accept, expressions.wellFormed.augmented] at listed
        cases listed
        obtain ⟨rfl, rfl⟩ := outer.of_start expressions.wellFormed
        rcases front with _ | ⟨first, _ | ⟨second, rest⟩⟩
        · cases split
          exact ⟨⟨[], by simp, rfl⟩, endTerminal, _, .inl rfl, rfl⟩
        · cases split
        · simp [Definition.augmented] at split
      · rcases expressions.production listed accept with rfl | ⟨t, rfl⟩
        · rcases front with _ | ⟨first, rest⟩
          · cases split
          · simp [Grammar.unit] at split
        · obtain ⟨⟨operators, operates, rfl⟩, look, rest, ends, rfl⟩ := ih rfl
          rcases front with _ | ⟨first, _ | ⟨second, _ | ⟨third, others⟩⟩⟩
          · cases split
            rw [List.append_nil]
            exact ⟨⟨operators, operates, rfl⟩, t, _, .inr ⟨p, listed⟩, rfl⟩
          · cases split
          · cases split
            refine ⟨⟨operators ++ [t], ?_, (spine_concat ..).symm⟩, look, rest, ends, rfl⟩
            exact List.forall_mem_append.2 ⟨operates, List.forall_mem_singleton.2 ⟨p, listed⟩⟩
          · simp [binary] at split

end Contexts

/-! ## Valid cores -/

variable {before after : List Symbol} {core : Core} {t : TerminalId}
  (expressions : g.Expressions operand)

include expressions

/-- A terminal that comes next is the end of input, an operand or an operator. -/
theorem Expressions.of_next (next : core.next g = some (.terminal t)) :
    t = endTerminal ∨
      core.dot = 0 ∧ g.productions[core.production]? = some (g.unit operand) ∧ t = operand ∨
      core.dot = 1 ∧ g.productions[core.production]? = some (g.binary t) := by
  obtain ⟨production, listed, here⟩ := Core.next_eq_some.1 next
  by_cases accept : core.production = acceptProduction
  · rw [accept, expressions.wellFormed.augmented] at listed
    cases listed
    have member := List.mem_of_getElem? here
    simp only [Definition.augmented, List.mem_cons, List.not_mem_nil, reduceCtorEq, or_false,
      false_or, Symbol.terminal.injEq] at member
    exact .inl member
  · right
    rcases expressions.production listed accept with rfl | ⟨u, rfl⟩
    · rcases dot : core.dot with _ | further
      · rw [dot] at here
        cases here
        exact .inl ⟨rfl, listed, rfl⟩
      · simp [Grammar.unit, dot] at here
    · rcases dot : core.dot with _ | _ | _ | further
      · simp [binary, dot] at here
      · rw [dot] at here
        cases here
        exact .inr ⟨rfl, listed⟩
      · simp [binary, dot] at here
      · simp [binary, dot] at here

/-- Before a core of an expression stands a spine, and then the symbols before its dot. -/
theorem Expressions.of_valid (valid : g.Valid before core after) {production : Production}
    (listed : g.productions[core.production]? = some production)
    (left : production.left = g.start) : ∃ operators, (∀ t ∈ operators, g.IsOperator t) ∧
      before = g.spine operators ++ production.right.toList.take core.dot ∧
      ∀ t, g.Begins after t → g.EndsPhrase t := by
  obtain ⟨front, again, listed', _, context, rfl⟩ := (valid_iff expressions.wellFormed).1 valid
  rw [listed] at listed'
  cases listed'
  rw [left] at context
  obtain ⟨⟨operators, operates, rfl⟩, look, rest, ends, rfl⟩ := expressions.of_context context
  refine ⟨operators, operates, rfl, ?_⟩
  intro t begins
  rwa [begins_terminal_iff.1 begins]

end Grammar

end Lalr
