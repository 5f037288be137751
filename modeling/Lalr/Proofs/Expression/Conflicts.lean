import Lalr.Proofs.Expression.Decisions
import Lalr.Proofs.Expression.Tree

/-!
# The conflicts of expression grammars

A conflict says which operator stands between the expressions that could be reduced and which one
could be shifted.  Every pair of operators has one conflict: all ways to the first operator join in
the state behind it.  Precedence decides it, and only within a level without associativity the
decision is left open.
-/

namespace Lalr

/-- The operator between the expressions that a conflict could reduce. -/
def Conflict.reducedOperator? (g : Grammar) (conflict : Conflict) : Option TerminalId :=
  conflict.actions.findSome? fun
    | .reduce p => Grammar.lastTerminal? (g.right p).toList
    | _ => none

namespace Grammar.Expressions

variable {g : Grammar} {operand : TerminalId} {id : StateId} {state : State} {look t : TerminalId}
  {p : ProductionId} {before : List Symbol} {operators : List TerminalId}

theorem productionPrecedence_binary (listed : g.productions[p]? = some (g.binary t)) :
    g.productionPrecedence p = g.terminalPrecedence t := by
  rw [productionPrecedence, listed]
  rfl

theorem reducedOperator?_shiftConflict (listed : g.productions[p]? = some (g.binary t))
    (target : StateId) :
    (Table.shiftConflict g id look (.shift target) p).reducedOperator? g = some t := by
  have right : g.right p = (g.binary t).right := Core.right_of_listed listed
  simp only [Conflict.reducedOperator?, Table.shiftConflict, List.findSome?, right]
  rfl

variable (expressions : g.Expressions operand)

include expressions

section Resolution

variable (listed : g.productions[p]? = some (g.binary t)) {below above : Precedence}
  (ranked : g.terminalPrecedence t = some below) (ranked' : g.terminalPrecedence look = some above)

include listed ranked ranked'

/-- Precedence reduces what fits to the left of the next operator, and otherwise shifts the operator,
which then fits to the right. -/
theorem resolve_cases (shift : Action) :
    (Table.resolve g look shift p).1 = .reduce p ∧ below.FitsLeft above ∨
      (Table.resolve g look shift p).1 = shift ∧ above.FitsRight below := by
  have ofProduction := (productionPrecedence_binary listed).trans ranked
  simp only [Table.resolve, ranked', ofProduction]
  by_cases tighter : below.level < above.level
  · rw [if_pos tighter]
    exact .inr ⟨rfl, .inl tighter⟩
  · rw [if_neg tighter]
    by_cases looser : above.level < below.level
    · rw [if_pos looser]
      exact .inl ⟨rfl, .inl looser⟩
    · rw [if_neg looser]
      have same : above = below := expressions.associativity ranked' ranked (by omega)
      cases groups : above.associativity with
      | left => exact .inl ⟨rfl, .inr ⟨same.symm, same ▸ groups⟩⟩
      | right => exact .inr ⟨rfl, .inr ⟨same, .inl groups⟩⟩
      | nonassoc => exact .inr ⟨rfl, .inr ⟨same, .inr groups⟩⟩

/-- A decision is left open exactly within a level without associativity. -/
theorem isUnresolved_resolve (shift : Action) :
    (Table.resolve g look shift p).2.isUnresolved = true ↔
      above = below ∧ above.associativity = .nonassoc := by
  have ofProduction := (productionPrecedence_binary listed).trans ranked
  simp only [Table.resolve, ranked', ofProduction]
  by_cases tighter : below.level < above.level
  · rw [if_pos tighter]
    simp only [Justification.isUnresolved, Bool.false_eq_true, false_iff, not_and]
    rintro rfl
    exact absurd tighter (Nat.lt_irrefl _)
  · rw [if_neg tighter]
    by_cases looser : above.level < below.level
    · rw [if_pos looser]
      simp only [Justification.isUnresolved, Bool.false_eq_true, false_iff, not_and]
      rintro rfl
      exact absurd looser (Nat.lt_irrefl _)
    · rw [if_neg looser]
      have same : above = below := expressions.associativity ranked' ranked (by omega)
      cases groups : above.associativity <;> simp [Justification.isUnresolved, same]

end Resolution

/-- All steps across an operator lead to one state. -/
theorem step_unique (operator : g.IsOperator t) {source source' target target' : StateId}
    (stepped : (Automaton.build g).step? source (.terminal t) = some target)
    (stepped' : (Automaton.build g).step? source' (.terminal t) = some target') :
    target = target' := by
  have canonical := Automaton.canonical_build expressions.wellFormed
  obtain ⟨p, listed⟩ := operator
  have kernel : ∀ {source target : StateId},
      (Automaton.build g).step? source (.terminal t) = some target →
        ∃ reached, (Automaton.build g).states[target]? = some reached ∧
          ∀ core, core ∈ reached.kernel ↔ core = ⟨p, 2⟩ := by
    intro source target stepped
    obtain ⟨state, reached, found, known, kernelEq, leads⟩ := canonical.of_step stepped
    have only : ∀ core : Core, core.next g = some (.terminal t) → core = ⟨p, 1⟩ := by
      rintro ⟨q, dot⟩ next
      rcases expressions.of_next next with ended | ⟨_, _, same⟩ | ⟨rfl, known⟩
      · exact absurd ended (expressions.operator_ne_end ⟨p, listed⟩)
      · exact absurd ⟨p, same ▸ listed⟩ expressions.apart
      · rw [expressions.distinct listed known]
    refine ⟨reached, known, ?_⟩
    intro core
    rw [kernelEq, mem_goto]
    constructor
    · rintro ⟨source, member, next, rfl⟩
      rw [only source next]
      rfl
    · rintro rfl
      obtain ⟨_, source, member, next⟩ := Automaton.mem_outgoing.1 leads
      exact ⟨source, member, next, by rw [only source next]; rfl⟩
  obtain ⟨reached, known, members⟩ := kernel stepped
  obtain ⟨reached', known', members'⟩ := kernel stepped'
  apply canonical.kernels known known'
  apply (canonical.isKernel known).ext (canonical.isKernel known')
  ext core
  rw [List.mem_toFinset, List.mem_toFinset, members, members']

/-- All ways behind an operator and an expression lead to one state. -/
theorem path_unique (operator : g.IsOperator t) {front front' : List Symbol} {id' : StateId}
    (path : (Automaton.build g).follow? initialState (front ++
      [.nonterminal g.start, .terminal t, .nonterminal g.start]) = some id)
    (path' : (Automaton.build g).follow? initialState (front' ++
      [.nonterminal g.start, .terminal t, .nonterminal g.start]) = some id') : id = id' := by
  have steps : ∀ {front : List Symbol} {id : StateId},
      (Automaton.build g).follow? initialState (front ++
        [.nonterminal g.start, .terminal t, .nonterminal g.start]) = some id →
      ∃ source middle, (Automaton.build g).step? source (.terminal t) = some middle ∧
        (Automaton.build g).step? middle (.nonterminal g.start) = some id := by
    intro front id path
    have whole : front ++ [.nonterminal g.start, .terminal t, .nonterminal g.start] =
        ((front ++ [.nonterminal g.start]) ++ [.terminal t]) ++ [Symbol.nonterminal g.start] := by
      simp
    rw [whole] at path
    obtain ⟨middle, earlier, last⟩ := Automaton.follow?_concat.1 path
    obtain ⟨source, _, stepped⟩ := Automaton.follow?_concat.1 earlier
    exact ⟨source, middle, stepped, last⟩
  obtain ⟨source, middle, stepped, last⟩ := steps path
  obtain ⟨source', middle', stepped', last'⟩ := steps path'
  rw [expressions.step_unique operator stepped stepped', last'] at last
  exact (Option.some.inj last).symm

variable {defaultReductions : Bool} {conflict : Conflict}

/-- Every conflict is between two operators. -/
theorem of_conflict (member : conflict ∈ (g.generate defaultReductions).table.conflicts) :
    ∃ (operators : List TerminalId) (t look : TerminalId) (p : ProductionId)
      (id target : StateId), g.IsOperator look ∧ g.productions[p]? = some (g.binary t) ∧
      (Automaton.build g).follow? initialState (g.spine operators ++
        [.nonterminal g.start, .terminal t, .nonterminal g.start]) = some id ∧
      conflict = Table.shiftConflict g id look (.shift target) p := by
  obtain ⟨id, state, look, found, met⟩ := Table.mem_conflicts.1 member
  have decided : conflict ∈ (g.decision id state look).2 := met
  obtain ⟨before, path⟩ := (Automaton.canonical_build expressions.wellFormed).exists_path
    (Array.getElem?_eq_some_iff.1 found).1
  obtain ⟨p, reduced⟩ : ∃ p, p ∈ (g.candidates id state look).reductions := by
    apply List.exists_mem_of_ne_nil
    intro vacant
    rw [decision_eq rfl vacant] at decided
    simp [Table.decideAction] at decided
  obtain ⟨ends, operators, operates, ⟨_, rfl⟩ | ⟨t, listed, rfl⟩⟩ :=
    expressions.of_reduction found path reduced
  · obtain ⟨_, _, quiet⟩ := expressions.decision_unit found operates ends path
    rw [quiet] at decided
    cases decided
  · rcases ends with rfl | operator
    · obtain ⟨_, _, quiet⟩ :=
        expressions.decision_binary_end found operates ⟨p, listed⟩ path
      rw [quiet] at decided
      cases decided
    · obtain ⟨q, target, known, _, choice⟩ :=
        expressions.decision_binary_operator found operates ⟨p, listed⟩ operator path
      rw [choice] at decided
      exact ⟨operators, t, look, q, id, target, operator, known, path,
        List.mem_singleton.1 decided⟩

/-- Every two operators have a conflict. -/
theorem exists_conflict (defaultReductions : Bool) (operator : g.IsOperator t)
    (further : g.IsOperator look) :
    ∃ conflict ∈ (g.generate defaultReductions).table.conflicts,
      conflict.reducedOperator? g = some t ∧ conflict.lookahead = look := by
  have canonical := Automaton.canonical_build expressions.wellFormed
  obtain ⟨p, listed⟩ := operator
  obtain ⟨after, valid, _⟩ := @valid_take g operand endTerminal [] expressions p _ listed rfl
    (by simp) (.inl rfl) _ (Nat.le_refl _)
  have inner : Symbol.terminal endTerminal ∉ g.spine [] ++
      (g.binary t).right.toList.take (g.binary t).right.size := by
    have other := expressions.operator_ne_end ⟨p, listed⟩
    simpa [Grammar.binary, eq_comm] using other
  obtain ⟨id, path, _⟩ := canonical.path_of_valid expressions.wellFormed valid inner
  obtain ⟨state, found⟩ := canonical.exists_state path
  obtain ⟨q, target, known, _, choice⟩ := @decision_binary_operator g operand id state look t []
    expressions found (by simp) ⟨p, listed⟩ further path
  have met : Table.shiftConflict g id look (.shift target) q ∈ (g.decision id state look).2 := by
    rw [choice]
    exact List.mem_singleton.2 rfl
  exact ⟨_, Table.mem_conflicts.2 ⟨id, state, look, found, met⟩,
    reducedOperator?_shiftConflict known target, rfl⟩

/-- No two conflicts are between the same operators. -/
theorem nodup_conflicts :
    ((g.generate defaultReductions).table.conflicts.map fun conflict =>
      (conflict.reducedOperator? g, conflict.lookahead)).Nodup := by
  have ordered : (g.generate defaultReductions).table.conflicts.Pairwise Conflict.Before :=
    Table.pairwise_conflicts ..
  rw [List.Nodup, List.pairwise_map]
  apply ordered.imp_of_mem
  intro first second member member' earlier same
  obtain ⟨operators, t, look, p, id, target, operator, listed, path, rfl⟩ :=
    expressions.of_conflict member
  obtain ⟨operators', t', look', p', id', target', operator', listed', path', rfl⟩ :=
    expressions.of_conflict member'
  rw [reducedOperator?_shiftConflict listed, reducedOperator?_shiftConflict listed',
    Prod.mk.injEq, Option.some.injEq] at same
  obtain ⟨rfl, looks⟩ := same
  rcases earlier with states | ⟨_, lookaheads | ⟨_, kind, _⟩⟩
  · have equal := expressions.path_unique ⟨p, listed⟩ path path'
    exact absurd states (by simp [Table.shiftConflict, equal])
  · rw [looks] at lookaheads
    exact absurd lookaheads (Nat.lt_irrefl _)
  · cases kind

/-- A conflict is left open exactly if its operators have the same level, which is without
associativity. -/
theorem isUnresolved_iff (member : conflict ∈ (g.generate defaultReductions).table.conflicts) :
    conflict.kind = .shiftReduce ∧ ∃ t below above, g.IsOperator t ∧
      g.IsOperator conflict.lookahead ∧ conflict.reducedOperator? g = some t ∧
      g.terminalPrecedence t = some below ∧
      g.terminalPrecedence conflict.lookahead = some above ∧
      (conflict.isUnresolved = true ↔ above = below ∧ above.associativity = .nonassoc) := by
  obtain ⟨operators, t, look, p, id, target, operator, listed, path, rfl⟩ :=
    expressions.of_conflict member
  obtain ⟨below, ranked⟩ := expressions.ranked ⟨p, listed⟩
  obtain ⟨above, ranked'⟩ := expressions.ranked operator
  exact ⟨rfl, t, below, above, ⟨p, listed⟩, operator, reducedOperator?_shiftConflict listed target,
    ranked, ranked', expressions.isUnresolved_resolve listed ranked ranked' _⟩

end Grammar.Expressions

end Lalr
