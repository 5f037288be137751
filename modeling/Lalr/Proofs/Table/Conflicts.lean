import Lalr.Proofs.Table.Answers

/-!
# The conflicts of a table

A table lists its conflicts by state, then by terminal, and for one place the conflict between
reductions before that with the shift.  So no conflict is listed twice, and a conflict between a
shift and reductions is found once for every state and terminal where both are possible.
-/

namespace Lalr

/-- The order in which conflicts are listed. -/
def Conflict.Before (first second : Conflict) : Prop :=
  first.state < second.state ∨ first.state = second.state ∧
    (first.lookahead < second.lookahead ∨ first.lookahead = second.lookahead ∧
      first.kind = .reduceReduce ∧ second.kind = .shiftReduce)

namespace Table

variable {g : Grammar}

theorem pairwise_insertNumber {number : Nat} {numbers : List Nat}
    (ascending : numbers.Pairwise (· < ·)) : (insertNumber number numbers).Pairwise (· < ·) := by
  induction numbers with
  | nil => simp [insertNumber]
  | cons head tail ih =>
      rw [List.pairwise_cons] at ascending
      simp only [insertNumber]
      split
      · next less =>
          rw [List.pairwise_cons, List.pairwise_cons]
          refine ⟨?_, ascending⟩
          intro other member
          rcases List.mem_cons.1 member with rfl | member
          · exact less
          · exact Nat.lt_trans less (ascending.1 other member)
      · split
        · exact List.pairwise_cons.2 ascending
        · next different =>
            rw [List.pairwise_cons]
            refine ⟨?_, ih ascending.2⟩
            intro other member
            rcases mem_insertNumber.1 member with rfl | member
            · omega
            · exact ascending.1 other member

/-- The productions that can be reduced are listed in strictly ascending order. -/
theorem pairwise_reductionsOn (reductions : List (ProductionId × TerminalSet)) (t : TerminalId) :
    (reductionsOn reductions t).Pairwise (· < ·) := by
  have sorted : ∀ numbers : List Nat, (numbers.foldr insertNumber []).Pairwise (· < ·) := by
    intro numbers
    induction numbers with
    | nil => exact .nil
    | cons head tail ih => exact pairwise_insertNumber ih
  exact sorted _

theorem eq_singleton_of_ascending {numbers : List Nat} {number : Nat}
    (ascending : numbers.Pairwise (· < ·)) (member : number ∈ numbers)
    (only : ∀ other ∈ numbers, other = number) : numbers = [number] := by
  rcases numbers with _ | ⟨first, _ | ⟨second, rest⟩⟩
  · simp at member
  · rw [only first (by simp)]
  · have less : first < second := (List.pairwise_cons.1 ascending).1 second (by simp)
    rw [only first (by simp), only second (by simp)] at less
    exact absurd less (Nat.lt_irrefl _)

/-- Reductions conflict when there are several, and with a shift when there are any. -/
theorem mem_decideAction {id : StateId} {t : TerminalId} {candidates : Candidates}
    {conflict : Conflict} :
    conflict ∈ (decideAction g id t candidates).2 ↔
      (∃ p others, candidates.reductions = p :: others ∧ others ≠ [] ∧
        conflict = reduceConflict id t p (p :: others)) ∨
      ∃ shift p others, candidates.shift = some shift ∧ candidates.reductions = p :: others ∧
        conflict = shiftConflict g id t shift p := by
  rcases candidates with ⟨_ | shift, _ | ⟨p, _ | ⟨q, others⟩⟩⟩ <;> simp [decideAction]

/-- The conflicts of a decision are about its place of the table. -/
theorem of_mem_decideAction {id : StateId} {t : TerminalId} {candidates : Candidates}
    {conflict : Conflict} (member : conflict ∈ (decideAction g id t candidates).2) :
    conflict.state = id ∧ conflict.lookahead = t ∧
      (conflict.kind = .shiftReduce → ∃ shift p, candidates.shift = some shift ∧
        p ∈ candidates.reductions ∧ conflict = shiftConflict g id t shift p) := by
  rcases mem_decideAction.1 member with
    ⟨p, others, listed, _, rfl⟩ | ⟨shift, p, others, shifts, listed, rfl⟩
  · exact ⟨rfl, rfl, fun kind => by cases kind⟩
  · exact ⟨rfl, rfl, fun _ => ⟨shift, p, shifts, by simp [listed], rfl⟩⟩

theorem pairwise_decideAction (g : Grammar) (id : StateId) (t : TerminalId)
    (candidates : Candidates) : (decideAction g id t candidates).2.Pairwise Conflict.Before := by
  rcases candidates with ⟨_ | shift, _ | ⟨p, _ | ⟨q, others⟩⟩⟩
  case some.cons.cons =>
    simp only [decideAction, List.pairwise_cons, List.mem_singleton, List.not_mem_nil]
    refine ⟨?_, by simp, .nil⟩
    rintro later rfl
    exact .inr ⟨rfl, .inr ⟨rfl, rfl, rfl⟩⟩
  all_goals simp [decideAction]

theorem pairwise_conflicts_fillRow (defaultReductions accepting : Bool) (lookaheads : Lookaheads)
    (id : StateId) (state : State) :
    (fillRow g defaultReductions accepting lookaheads id state).2.Pairwise Conflict.Before := by
  rw [conflicts_fillRow_eq, List.pairwise_flatMap]
  constructor
  · intro t _
    exact pairwise_decideAction g id t _
  · apply (IdSet.pairwise_toList _).imp
    intro t u less first firstMember second secondMember
    obtain ⟨state, lookahead, _⟩ := of_mem_decideAction firstMember
    obtain ⟨state', lookahead', _⟩ := of_mem_decideAction secondMember
    exact .inr ⟨state.trans state'.symm, .inl (lookahead ▸ lookahead' ▸ less)⟩

/-- Conflicts are listed by state, then by terminal, and reductions before the shift. -/
theorem pairwise_conflicts (g : Grammar) (defaultReductions : Bool) (automaton : Automaton)
    (lookaheads : Lookaheads) :
    (ofAutomaton g defaultReductions automaton lookaheads).conflicts.Pairwise Conflict.Before := by
  have numbered : automaton.states.toList.zipIdx.Pairwise fun first second => first.2 < second.2 := by
    rw [← List.pairwise_map, List.zipIdx_map_snd]
    exact List.pairwise_lt_range'
  simp only [ofAutomaton, List.pairwise_flatMap, List.pairwise_map, List.forall_mem_map]
  constructor
  · rintro ⟨state, id⟩ _
    exact pairwise_conflicts_fillRow ..
  · apply numbered.imp
    rintro ⟨state, id⟩ ⟨state', id'⟩ less first firstMember second secondMember
    obtain ⟨t, met⟩ := mem_conflicts_fillRow.1 firstMember
    obtain ⟨t', met'⟩ := mem_conflicts_fillRow.1 secondMember
    obtain ⟨place, _⟩ := of_mem_decideAction met
    obtain ⟨place', _⟩ := of_mem_decideAction met'
    exact .inl (place ▸ place' ▸ less)

end Table

end Lalr
