import Lalr.Proofs.Automaton.Path
import Lalr.Table.Build

/-!
# How a table is filled

A row has an action on a terminal exactly if the state has a candidate for one: a shift, acceptance,
or the reduction of a complete item that has the terminal among its lookaheads.  The action taken is
one of the candidates.  Where no conflict is recorded there is at most one candidate, so that the
action is any candidate that can be named.

None of this depends on whether default reductions are asked for.
-/

namespace Lalr

namespace Table

variable {g : Grammar}

theorem mem_insertNumber {number other : Nat} {numbers : List Nat} :
    other ∈ insertNumber number numbers ↔ other = number ∨ other ∈ numbers := by
  induction numbers with
  | nil => simp [insertNumber]
  | cons head tail ih =>
      simp only [insertNumber]
      split
      · simp
      · split
        · next equal => simp [equal]
        · simp only [List.mem_cons, ih]
          exact or_left_comm

theorem mem_reductionsOn {reductions : List (ProductionId × TerminalSet)} {t : TerminalId}
    {p : ProductionId} :
    p ∈ reductionsOn reductions t ↔ ∃ set, (p, set) ∈ reductions ∧ set.contains t = true := by
  have members : ∀ numbers : List Nat, p ∈ numbers.foldr insertNumber [] ↔ p ∈ numbers := by
    intro numbers
    induction numbers with
    | nil => simp
    | cons head tail ih => rw [List.foldr_cons, mem_insertNumber, List.mem_cons, ih]
  rw [reductionsOn, members]
  simp [and_comm]

theorem contains_activeTerminals {accepting : Bool} {state : State}
    {reductions : List (ProductionId × TerminalSet)} {t : TerminalId} :
    (activeTerminals accepting state reductions).contains t = true ↔
      t ∈ state.shifts.map (·.1) ∨ (accepting = true ∧ t = endTerminal) ∨
        ∃ p set, (p, set) ∈ reductions ∧ set.contains t = true := by
  have members : ∀ (reductions : List (ProductionId × TerminalSet)) (initial : TerminalSet),
      (reductions.foldl (fun set reduction => set ∪ reduction.2) initial).contains t = true ↔
        initial.contains t = true ∨ ∃ p set, (p, set) ∈ reductions ∧ set.contains t = true := by
    intro reductions
    induction reductions with
    | nil => simp
    | cons head tail ih =>
        intro initial
        rw [List.foldl_cons, ih, IdSet.contains_union, Bool.or_eq_true, or_assoc]
        refine or_congr Iff.rfl ?_
        constructor
        · rintro (here | ⟨p, set, later, contained⟩)
          · exact ⟨head.1, head.2, List.mem_cons_self .., here⟩
          · exact ⟨p, set, List.mem_cons_of_mem _ later, contained⟩
        · rintro ⟨p, set, member, contained⟩
          rcases List.mem_cons.1 member with rfl | later
          · exact .inl contained
          · exact .inr ⟨p, set, later, contained⟩
  refine (members reductions _).trans ?_
  cases accepting with
  | false => simp [IdSet.contains_ofList]
  | true => simp [IdSet.contains_ofList, or_assoc, @eq_comm _ t]

theorem shiftOn?_cases {accepting : Bool} {state : State} {t : TerminalId} {action : Action}
    (shifted : shiftOn? accepting state t = some action) :
    (action = .accept ∧ accepting = true ∧ t = endTerminal) ∨
      ∃ target, action = .shift target ∧ state.transition? (.terminal t) = some target := by
  unfold shiftOn? at shifted
  split at shifted
  · next ended =>
      rw [Bool.and_eq_true, beq_iff_eq] at ended
      cases shifted
      exact .inl ⟨rfl, ended⟩
  · obtain ⟨target, led, rfl⟩ := Option.map_eq_some_iff.1 shifted
    exact .inr ⟨target, rfl, led⟩

/-- What a state could do on a terminal. -/
def candidates (g : Grammar) (accepting : Bool) (lookaheads : Lookaheads) (state : State)
    (t : TerminalId) : Candidates :=
  ⟨shiftOn? accepting state t, reductionsOn (state.reductions g lookaheads) t⟩

theorem candidates_of_not_active {accepting : Bool} {lookaheads : Lookaheads} {state : State}
    {t : TerminalId}
    (inactive : ¬ (activeTerminals accepting state (state.reductions g lookaheads)).contains t = true) :
    candidates g accepting lookaheads state t = ⟨none, []⟩ := by
  rw [contains_activeTerminals, not_or, not_or] at inactive
  obtain ⟨noShift, noAccept, noReduction⟩ := inactive
  have unshifted : shiftOn? accepting state t = none := by
    have unmoved : state.transition? (.terminal t) = none := by
      cases led : state.transition? (.terminal t) with
      | none => rfl
      | some target =>
          have member := mem_of_lookup led
          exact absurd (List.mem_map.2 ⟨(t, target), List.mem_filterMap.2 ⟨_, member, rfl⟩, rfl⟩)
            noShift
    have other : ¬ (accepting && t == endTerminal) = true := by simpa using noAccept
    rw [shiftOn?, if_neg other, unmoved]
    rfl
  have unreduced : reductionsOn (state.reductions g lookaheads) t = [] := by
    rw [List.eq_nil_iff_forall_not_mem]
    intro p member
    obtain ⟨set, listed, contained⟩ := mem_reductionsOn.1 member
    exact noReduction ⟨p, set, listed, contained⟩
  rw [candidates, unshifted, unreduced]

/-! ## Decisions -/

theorem decideAction_eq_none {id : StateId} {t : TerminalId} {candidates : Candidates} :
    (decideAction g id t candidates).1 = none ↔
      candidates.shift = none ∧ candidates.reductions = [] := by
  rcases candidates with ⟨_ | shift, _ | ⟨p, _ | ⟨q, others⟩⟩⟩ <;> simp [decideAction]

theorem decideAction_eq_some {id : StateId} {t : TerminalId} {candidates : Candidates}
    {action : Action} :
    (decideAction g id t candidates).1 = some action ↔
      (candidates.shift = some action ∧ candidates.reductions = []) ∨
      (∃ p others, candidates.reductions = p :: others ∧ candidates.shift = none ∧
        action = .reduce p) ∨
      ∃ shift p others, candidates.shift = some shift ∧ candidates.reductions = p :: others ∧
        action = (resolve g t shift p).1 := by
  rcases candidates with ⟨_ | shift, _ | ⟨p, _ | ⟨q, others⟩⟩⟩ <;>
    simp [decideAction, eq_comm]

/-- The action taken is a candidate. -/
theorem decideAction_mem {id : StateId} {t : TerminalId} {candidates : Candidates}
    {action : Action} (decided : (decideAction g id t candidates).1 = some action) :
    candidates.shift = some action ∨ ∃ p ∈ candidates.reductions, action = .reduce p := by
  have either : ∀ shift p, (resolve g t shift p).1 = shift ∨ (resolve g t shift p).1 = .reduce p := by
    intro shift p
    unfold resolve
    split
    · split
      · exact .inl rfl
      · split
        · exact .inr rfl
        · split
          · exact .inr rfl
          · exact .inl rfl
          · exact .inl rfl
    · exact .inl rfl
  rcases decideAction_eq_some.1 decided with
    ⟨shifts, _⟩ | ⟨p, others, listed, _, reduced⟩ | ⟨shift, p, others, shifts, listed, chosen⟩
  · exact .inl shifts
  · exact .inr ⟨p, by simp [listed], reduced⟩
  · rcases either shift p with same | same
    · exact .inl (by rw [chosen, same, shifts])
    · exact .inr ⟨p, by simp [listed], chosen.trans same⟩

/-- Without a conflict, a shift excludes reductions and is taken. -/
theorem decideAction_of_shift {id : StateId} {t : TerminalId} {candidates : Candidates}
    {action : Action} (quiet : (decideAction g id t candidates).2 = [])
    (shift : candidates.shift = some action) :
    (decideAction g id t candidates).1 = some action := by
  rcases candidates with ⟨_, _ | ⟨p, _ | ⟨q, others⟩⟩⟩
  · exact shift
  · cases shift
    cases quiet
  · cases shift
    cases quiet

theorem decideAction_of_reduction {id : StateId} {t : TerminalId} {candidates : Candidates}
    {p : ProductionId} (quiet : (decideAction g id t candidates).2 = [])
    (member : p ∈ candidates.reductions) :
    (decideAction g id t candidates).1 = some (.reduce p) := by
  rcases candidates with ⟨_ | shift, _ | ⟨q, _ | ⟨r, others⟩⟩⟩
  · simp at member
  · rw [List.mem_singleton.1 member]
    rfl
  · cases quiet
  · simp at member
  · cases quiet
  · cases quiet

/-! ## Rows -/

theorem lookup_filterMap {keys : List TerminalId} {decide : TerminalId → Option Action × List Conflict}
    {t : TerminalId} :
    ((keys.map fun key => (key, decide key)).filterMap
        fun (key, action, _) => action.map (key, ·)).lookup t =
      if t ∈ keys then (decide t).1 else none := by
  induction keys with
  | nil => rfl
  | cons head tail ih =>
      rw [List.map_cons, List.filterMap_cons]
      cases action : (decide head).1 with
      | none =>
          simp only [action, Option.map_none, ih, List.mem_cons]
          by_cases same : t = head
          · simp [same, action]
          · simp [same]
      | some taken =>
          simp only [action, Option.map_some, List.lookup_cons, ih, List.mem_cons]
          by_cases same : t = head
          · simp [same, action]
          · simp [same, beq_false_of_ne same]

/-- A row has the action that is decided upon among the candidates. -/
theorem lookup_fillRow (defaultReductions accepting : Bool) (lookaheads : Lookaheads)
    (id : StateId) (state : State) (t : TerminalId) :
    (fillRow g defaultReductions accepting lookaheads id state).1.actions.lookup t =
      (decideAction g id t (candidates g accepting lookaheads state t)).1 := by
  rw [fillRow, lookup_filterMap]
  split
  · rfl
  · next inactive =>
      rw [IdSet.mem_toList] at inactive
      rw [candidates_of_not_active inactive]
      rfl

theorem conflicts_fillRow_eq (defaultReductions accepting : Bool) (lookaheads : Lookaheads)
    (id : StateId) (state : State) :
    (fillRow g defaultReductions accepting lookaheads id state).2 =
      (activeTerminals accepting state (state.reductions g lookaheads)).toList.flatMap fun t =>
        (decideAction g id t (candidates g accepting lookaheads state t)).2 := by
  simp only [fillRow, List.flatMap_map]
  rfl

/-- The conflicts of a row are those met at its places. -/
theorem mem_conflicts_fillRow {defaultReductions accepting : Bool} {lookaheads : Lookaheads}
    {id : StateId} {state : State} {conflict : Conflict} :
    conflict ∈ (fillRow g defaultReductions accepting lookaheads id state).2 ↔
      ∃ t, conflict ∈ (decideAction g id t (candidates g accepting lookaheads state t)).2 := by
  rw [conflicts_fillRow_eq, List.mem_flatMap]
  constructor
  · rintro ⟨t, _, member⟩
    exact ⟨t, member⟩
  · rintro ⟨t, member⟩
    refine ⟨t, ?_, member⟩
    by_contra inactive
    rw [IdSet.mem_toList] at inactive
    rw [candidates_of_not_active inactive] at member
    cases member

theorem onlyReduction_eq_some_iff {actions : List (TerminalId × Action)} {p : ProductionId} :
    onlyReduction actions = some p ↔
      (∃ t, (t, .reduce p) ∈ actions) ∧ ∀ t action, (t, action) ∈ actions → action = .reduce p := by
  unfold onlyReduction
  split
  · next t q rest =>
      simp only [Option.ite_none_right_eq_some, Option.some.injEq, List.all_eq_true, beq_iff_eq]
      constructor
      · rintro ⟨alike, rfl⟩
        refine ⟨⟨t, List.mem_cons_self ..⟩, ?_⟩
        intro u action member
        rcases List.mem_cons.1 member with first | later
        · cases first
          rfl
        · exact alike _ later
      · rintro ⟨_, alike⟩
        have same : Action.reduce q = .reduce p := alike t _ (List.mem_cons_self ..)
        cases same
        exact ⟨fun entry later => alike entry.1 entry.2 (List.mem_cons_of_mem _ later), rfl⟩
  · next other =>
      constructor
      · intro only
        cases only
      · rintro ⟨⟨t, member⟩, alike⟩
        cases actions with
        | nil => cases member
        | cons head rest =>
            obtain ⟨u, action⟩ := head
            have same : action = .reduce p := alike u action (List.mem_cons_self ..)
            subst same
            exact (other u p rest rfl).elim

/-- A default reduction is among the candidates for some terminal. -/
theorem exists_of_defaultReduction {defaultReductions accepting : Bool} {lookaheads : Lookaheads}
    {id : StateId} {state : State} {p : ProductionId}
    (default : (fillRow g defaultReductions accepting lookaheads id state).1.defaultReduction =
      some p) :
    ∃ t, p ∈ (candidates g accepting lookaheads state t).reductions := by
  have only : onlyReduction (fillRow g defaultReductions accepting lookaheads id state).1.actions =
      some p := by
    cases defaultReductions with
    | false => cases default
    | true => exact default
  obtain ⟨⟨t, member⟩, _⟩ := onlyReduction_eq_some_iff.1 only
  obtain ⟨entry, decided, taken⟩ := List.mem_filterMap.1 member
  obtain ⟨key, _, rfl⟩ := List.mem_map.1 decided
  obtain ⟨action, chosen, same⟩ := Option.map_eq_some_iff.1 taken
  cases same
  rcases decideAction_mem chosen with shift | ⟨q, reduced, same⟩
  · rcases shiftOn?_cases shift with ⟨accept, _⟩ | ⟨target, shifted, _⟩
    · cases accept
    · cases shifted
  · cases same
    exact ⟨t, reduced⟩

/-- The gotos of a state are its transitions by nonterminals, in their order. -/
theorem map_gotos (state : State) :
    state.gotos.map (fun (n, target) => (Symbol.nonterminal n, target)) =
      state.transitions.filter fun (symbol, _) => symbol matches .nonterminal _ := by
  rw [State.gotos, List.map_filterMap, ← List.filterMap_eq_filter]
  congr 1
  funext ⟨symbol, target⟩
  cases symbol <;> simp [Option.guard]

theorem lookup_gotos (state : State) (n : NonterminalId) :
    state.gotos.lookup n = state.transition? (.nonterminal n) := by
  rw [State.gotos, State.transition?]
  induction state.transitions with
  | nil => rfl
  | cons head tail ih =>
      obtain ⟨symbol, target⟩ := head
      cases symbol with
      | terminal t =>
          have other : Symbol.nonterminal n ≠ .terminal t := by simp
          rw [List.lookup_cons, beq_false_of_ne other]
          exact ih
      | nonterminal m =>
          by_cases same : n = m
          · simp [same]
          · have other : Symbol.nonterminal n ≠ .nonterminal m := by simpa using same
            rw [List.filterMap_cons, List.lookup_cons, List.lookup_cons, beq_false_of_ne same,
              beq_false_of_ne other]
            exact ih

variable {automaton : Automaton} {lookaheads : Lookaheads}

theorem getElem?_rows (defaultReductions : Bool) (id : StateId) :
    (ofAutomaton g defaultReductions automaton lookaheads).rows[id]? =
      automaton.states[id]?.map fun state =>
        (fillRow g defaultReductions (automaton.accepting? g == some id) lookaheads id state).1 := by
  simp [ofAutomaton, List.getElem?_zipIdx, Function.comp_def]

/-- The conflicts of a table are those met at its places. -/
theorem mem_conflicts {defaultReductions : Bool} {conflict : Conflict} :
    conflict ∈ (ofAutomaton g defaultReductions automaton lookaheads).conflicts ↔
      ∃ id state t, automaton.states[id]? = some state ∧ conflict ∈ (decideAction g id t
        (candidates g (automaton.accepting? g == some id) lookaheads state t)).2 := by
  simp only [ofAutomaton, List.mem_flatMap, List.mem_map, Prod.exists,
    List.mk_mem_zipIdx_iff_getElem?, Array.getElem?_toList]
  constructor
  · rintro ⟨row, conflicts, ⟨state, id, found, filled⟩, member⟩
    have inRow : conflict ∈ (fillRow g defaultReductions (automaton.accepting? g == some id)
        lookaheads id state).2 := by rwa [filled]
    obtain ⟨t, met⟩ := mem_conflicts_fillRow.1 inRow
    exact ⟨id, state, t, found, met⟩
  · rintro ⟨id, state, t, found, met⟩
    have inRow : conflict ∈ (fillRow g defaultReductions (automaton.accepting? g == some id)
        lookaheads id state).2 := mem_conflicts_fillRow.2 ⟨t, met⟩
    exact ⟨_, _, ⟨state, id, found, rfl⟩, inRow⟩

theorem conflicts_ofAutomaton {defaultReductions : Bool}
    (quiet : (ofAutomaton g defaultReductions automaton lookaheads).conflicts = [])
    {id : StateId} {state : State} (found : automaton.states[id]? = some state) (t : TerminalId) :
    (decideAction g id t
      (candidates g (automaton.accepting? g == some id) lookaheads state t)).2 = [] := by
  rw [List.eq_nil_iff_forall_not_mem]
  intro conflict met
  have listed := (@mem_conflicts _ _ _ defaultReductions _).2 ⟨id, state, t, found, met⟩
  rw [quiet] at listed
  cases listed

end Table

end Lalr
