import Lalr.Proofs.Parser.Reductions
import Mathlib.Order.Interval.Finset.Nat

/-!
# Endless reductions

Suppose that reductions on one terminal never end.  If the stack came back to the same height again
and again without ever going below it, two of the symbols on top would agree, and a symbol could be
reduced to itself.  On a table without conflicts this cannot be, for a reduction is part of a
completion: a parser that follows that completion would not get beyond the symbol.

So the stack rises, and arbitrarily late there are moments after which it stays above what it holds
then.  From such a moment on only the state on top matters.  Without default reductions the next
reduction is part of a completion on the same terminal, which has an end.  With default reductions it
may belong to another terminal; but if something can be read after every prefix, a loop of states can
be followed by a completion, which has an end as well.
-/

namespace Lalr

open Relation (TransGen)

/-- A sequence of numbers has arbitrarily late members that are below all later ones, or it returns
again and again to a number below which it does not fall any more. -/
theorem exists_lowest (height : Nat → Nat) :
    (∀ start, ∃ low ≥ start, ∀ later > low, height low < height later) ∨
      ∃ low, (∀ later ≥ low, height low ≤ height later) ∧
        ∀ start, ∃ later ≥ start, height later = height low := by
  by_cases rising : ∀ start, ∃ low ≥ start, ∀ later > low, height low < height later
  · exact .inl rising
  · right
    push Not at rising
    obtain ⟨start, returns⟩ := rising
    obtain ⟨low, after, least⟩ := (InvImage.wf height wellFounded_lt).has_min
      {later | start ≤ later} ⟨start, Nat.le_refl start⟩
    have lowest : ∀ later ≥ low, height low ≤ height later := by
      intro later behind
      exact Nat.not_lt.1 (least later (Nat.le_trans after behind))
    have again : ∀ bound, ∃ later ≥ bound, low ≤ later ∧ height later = height low := by
      intro bound
      induction bound with
      | zero => exact ⟨low, Nat.zero_le low, Nat.le_refl low, rfl⟩
      | succ bound ih =>
          obtain ⟨later, _, behind, same⟩ := ih
          obtain ⟨next, further, most⟩ := returns later (Nat.le_trans after behind)
          have least := lowest next (by omega)
          exact ⟨next, by omega, by omega, by omega⟩
    refine ⟨low, lowest, ?_⟩
    intro bound
    obtain ⟨later, behind, _, same⟩ := again bound
    exact ⟨later, behind, same⟩

variable {g : Grammar} {setting : Bool} {t : TerminalId} {source middle : StateId}
  {symbols : List Symbol}

/-- Each member of the sequence is reduced to the next one. -/
def Endless (g : Grammar) (setting : Bool) (t : TerminalId) (source : StateId)
    (stackAt : Nat → List Symbol) : Prop :=
  ∀ i, Reduces g setting t source (stackAt i) (stackAt (i + 1))

theorem exists_endless_of_not_ends (endless : ¬ Ends g setting t source symbols) :
    ∃ stackAt, Endless g setting t source stackAt := by
  obtain ⟨stackAt, _, reduces⟩ := not_acc_iff_exists_descending_chain.1 endless
  exact ⟨stackAt, reduces⟩

theorem Ends.not_endless {stackAt : Nat → List Symbol} (ends : Ends g setting t source (stackAt 0)) :
    ¬ Endless g setting t source stackAt := by
  intro endless
  exact not_acc_iff_exists_descending_chain.2 ⟨stackAt, rfl, fun i => endless i⟩ ends

namespace Endless

variable {stackAt : Nat → List Symbol}

theorem transGen (endless : Endless g setting t source stackAt) {first second : Nat}
    (less : first < second) : TransGen (Reduces g setting t source) (stackAt first) (stackAt second) :=
  Nat.rel_of_forall_rel_succ_of_lt _ (fun i => .single (endless i)) less

/-- What the stack stays above does not matter. -/
theorem above (endless : Endless g setting t source stackAt) {low : Nat} {front : List Symbol}
    (path : (Automaton.build g).follow? source front = some middle)
    (here : stackAt low = front ++ symbols)
    (higher : ∀ later > low, front.length < (stackAt later).length) :
    ∃ upper : Nat → List Symbol, (∀ i, stackAt (low + i) = front ++ upper i) ∧
      Endless g setting t middle upper := by
  have split : ∀ i, ∃ upper, stackAt (low + i) = front ++ upper := by
    intro i
    induction i with
    | zero => exact ⟨symbols, here⟩
    | succ i ih =>
        obtain ⟨upper, same⟩ := ih
        have reduces := endless (low + i)
        rw [same] at reduces
        obtain ⟨next, shared, _⟩ := reduces.of_append path (higher _ (by omega))
        exact ⟨next, shared⟩
  choose upper same using split
  refine ⟨upper, same, ?_⟩
  intro i
  have reduces := endless (low + i)
  rw [same i] at reduces
  obtain ⟨next, shared, reduced⟩ := reduces.of_append path (higher _ (by omega))
  rw [Nat.add_assoc, same (i + 1)] at shared
  rwa [List.append_cancel_left shared]

end Endless

/-! ## Tables without conflicts -/

section ConflictFree

variable (wellFormed : g.WellFormed)
  (conflictFree : (g.generate setting).table.conflicts = [])

include wellFormed conflictFree

/-- What has been read, followed by something that grows out of nothing, cannot be completed if the
growth leads back to the same state. -/
theorem not_completes_of_loop {front rest : List Symbol}
    (path : (Automaton.build g).follow? initialState front = some middle)
    (loop : (Automaton.build g).follow? middle symbols = some middle)
    (grown : TransGen g.Contracts [] symbols) (leads : Grammar.Leads t rest) :
    ¬ g.Completes (front ++ symbols) rest := by
  intro completes
  obtain ⟨growth, before⟩ :=
    reduces_of_chain wellFormed conflictFree path grown completes leads
  rw [List.append_nil] at before
  have ends := ends_of_completes wellFormed conflictFree before leads
  -- The parser would do the growth again and again.
  let repeated : Nat → List Symbol := fun count => front ++ (List.replicate count symbols).flatten
  have paths : ∀ count,
      (Automaton.build g).follow? initialState (repeated count) = some middle := by
    intro count
    induction count with
    | zero => simpa [repeated] using path
    | succ count ih =>
        have further : repeated (count + 1) = repeated count ++ symbols := by
          simp [repeated, List.replicate_succ']
        rw [further, Automaton.follow?_append, ih]
        exact loop
  have grows : ∀ count, TransGen (Reduces g setting t initialState) (repeated count)
      (repeated (count + 1)) := by
    intro count
    have lifted := Reduces.transGen_append_left growth (paths count)
    simpa [repeated, List.replicate_succ'] using lifted
  refine not_acc_iff_exists_descending_chain.2
    ⟨repeated, by simp [repeated], fun count => ?_⟩ ends.transGen
  exact Relation.transGen_swap.2 (grows count)

/-- No symbol is reduced to itself. -/
theorem not_transGen_self {symbol : Symbol} :
    ¬ TransGen (Reduces g setting t source) [symbol] [symbol] := by
  intro loop
  have contracts : TransGen g.Contracts [symbol] [symbol] :=
    Relation.TransGen.mono (fun _ _ reduces => reduces.contracts) _ _ loop
  obtain ⟨last, _, reduces⟩ := Relation.TransGen.tail'_iff.1 loop
  generalize single : [symbol] = top at reduces
  cases reduces with
  | @intro id p production before listed path answered =>
      obtain ⟨rfl, rfl⟩ : before = [] ∧ symbol = .nonterminal production.left := by
        cases before <;> simp_all
      obtain ⟨other, front, rest, _, whole, completes, leads⟩ :=
        Reduces.exists_completion wellFormed listed answered
      rw [Automaton.follow?_append] at whole
      obtain ⟨middle, shorter, _⟩ := Option.bind_eq_some_iff.1 whole
      -- A parser that follows the completion contracts the symbol to itself as well.
      have again := (reduces_of_chain wellFormed conflictFree shorter contracts completes leads).1
      have lifted := Reduces.transGen_append_left again shorter
      have ends := ends_of_completes wellFormed conflictFree completes leads
      exact not_acc_iff_exists_descending_chain.2
        ⟨fun _ => _, rfl, fun _ => Relation.transGen_swap.2 lifted⟩ ends.transGen

/-- The stack does not come down to a single symbol again and again. -/
theorem Endless.not_often_single {stackAt : Nat → List Symbol}
    (endless : Endless g setting t source stackAt) :
    ¬ ∀ bound, ∃ i > bound, (stackAt i).length = 1 := by
  intro often
  let single : Set Nat := {i | 0 < i ∧ (stackAt i).length = 1}
  have infinite : single.Infinite := by
    apply Set.infinite_of_forall_exists_gt
    intro bound
    obtain ⟨i, behind, alone⟩ := often bound
    exact ⟨i, ⟨by omega, alone⟩, behind⟩
  -- The symbol is the left-hand side of a production, and of these there are finitely many.
  have nonterminals : Set.MapsTo stackAt single
      ((fun n => [Symbol.nonterminal n]) '' Set.Iio g.nonterminals.size) := by
    rintro i ⟨positive, alone⟩
    obtain ⟨before, rfl⟩ := Nat.exists_eq_succ_of_ne_zero (Nat.ne_of_gt positive)
    obtain ⟨below, production, p, listed, reached⟩ := (endless before).next_eq
    rw [reached, List.length_append, List.length_singleton, Nat.add_eq_right,
      List.length_eq_zero_iff] at alone
    subst alone
    exact ⟨production.left, wellFormed.left_lt listed, reached.symm⟩
  obtain ⟨first, _, second, ⟨_, alone⟩, less, equal⟩ :=
    infinite.exists_lt_map_eq_of_mapsTo nonterminals ((Set.finite_Iio _).image _)
  obtain ⟨symbol, top⟩ := List.length_eq_one_iff.1 alone
  have loop := endless.transGen less
  rw [equal, top] at loop
  exact not_transGen_self wellFormed conflictFree loop

/-- Arbitrarily late, the stack stays above what it holds. -/
theorem Endless.exists_low {stackAt : Nat → List Symbol}
    (endless : Endless g setting t source stackAt) (start : Nat) :
    ∃ low ≥ start, ∀ later > low, (stackAt low).length < (stackAt later).length := by
  rcases exists_lowest fun i => (stackAt i).length with rising | ⟨low, least, returns⟩
  · exact rising start
  exfalso
  obtain ⟨front, symbol, here⟩ : ∃ front symbol, stackAt low = front ++ [symbol] := by
    obtain ⟨later, behind, same⟩ := returns (low + 1)
    obtain ⟨more, rfl⟩ := Nat.exists_eq_add_of_le behind
    have nonempty : stackAt low ≠ [] := by
      intro empty
      rw [empty, List.length_nil, List.length_eq_zero_iff, Nat.add_right_comm] at same
      exact (endless _).next_ne_nil same
    exact ⟨_, _, (List.dropLast_append_getLast nonempty).symm⟩
  obtain ⟨top, path⟩ := (endless low).exists_path
  rw [here, Automaton.follow?_append] at path
  obtain ⟨below, shorter, _⟩ := Option.bind_eq_some_iff.1 path
  have higher : ∀ later > low, front.length < (stackAt later).length := by
    intro later behind
    have bound := least later (Nat.le_of_lt behind)
    rw [here, List.length_append, List.length_singleton] at bound
    exact bound
  obtain ⟨upper, same, endlessAbove⟩ := endless.above shorter here higher
  apply endlessAbove.not_often_single wellFormed conflictFree
  intro bound
  obtain ⟨later, behind, height⟩ := returns (low + bound + 1)
  obtain ⟨more, rfl⟩ := Nat.exists_eq_add_of_le behind
  have split := same (bound + 1 + more)
  rw [← Nat.add_assoc, ← Nat.add_assoc] at split
  rw [split, here, List.length_append, List.length_append, List.length_singleton] at height
  exact ⟨bound + 1 + more, by omega, by omega⟩

/-- From some moment on, reductions take place above a stack that they leave alone. -/
theorem Endless.exists_above {stackAt : Nat → List Symbol}
    (endless : Endless g setting t source stackAt) (start : Nat) :
    ∃ low ≥ start, ∃ middle, (Automaton.build g).follow? source (stackAt low) = some middle ∧
      ∃ upper : Nat → List Symbol, upper 0 = [] ∧
        (∀ i, stackAt (low + i) = stackAt low ++ upper i) ∧ Endless g setting t middle upper := by
  obtain ⟨low, behind, higher⟩ := endless.exists_low wellFormed conflictFree start
  obtain ⟨middle, path⟩ := (endless low).exists_path
  have here : stackAt low = stackAt low ++ [] := (List.append_nil _).symm
  obtain ⟨upper, same, endlessAbove⟩ := endless.above path here higher
  refine ⟨low, behind, middle, path, upper, ?_, same, endlessAbove⟩
  have start := same 0
  rw [Nat.add_zero] at start
  exact List.self_eq_append_right.1 start

/-- Reductions come to an end if something can be read after every prefix. -/
theorem ends_of_hasFirsts (hasFirsts : g.HasFirsts) : Ends g setting t initialState symbols := by
  have canonical := Automaton.canonical_build wellFormed
  by_contra notEnds
  obtain ⟨stackAt, endless⟩ := exists_endless_of_not_ends notEnds
  let lows : Set Nat := {low | ∃ middle,
    (Automaton.build g).follow? initialState (stackAt low) = some middle ∧
      ∃ upper : Nat → List Symbol, upper 0 = [] ∧
        (∀ i, stackAt (low + i) = stackAt low ++ upper i) ∧ Endless g setting t middle upper}
  have infinite : lows.Infinite := by
    apply Set.infinite_of_forall_exists_gt
    intro bound
    obtain ⟨low, behind, above⟩ := endless.exists_above wellFormed conflictFree (bound + 1)
    exact ⟨low, above, behind⟩
  have states : Set.MapsTo (fun low => (Automaton.build g).follow? initialState (stackAt low)) lows
      (some '' Set.Iio (Automaton.build g).states.size) := by
    rintro low ⟨middle, path, _⟩
    obtain ⟨state, found⟩ := canonical.exists_state path
    exact ⟨middle, (Array.getElem?_eq_some_iff.1 found).1, path.symm⟩
  obtain ⟨low, ⟨middle, path, upper, empty, same, endlessAbove⟩, high, _, less, equal⟩ :=
    infinite.exists_lt_map_eq_of_mapsTo states ((Set.finite_Iio _).image _)
  -- From the lower of two such moments with the same state on top to the higher one, the stack has
  -- grown by a loop.
  obtain ⟨more, rfl⟩ := Nat.exists_eq_add_of_lt less
  have whole := equal.symm.trans path
  rw [Nat.add_assoc, same] at whole
  have loop : (Automaton.build g).follow? middle (upper (more + 1)) = some middle := by
    rwa [Automaton.follow?_append, path] at whole
  have reduced := endlessAbove.transGen (Nat.succ_pos more)
  rw [empty] at reduced
  have grown : TransGen g.Contracts [] (upper (more + 1)) :=
    Relation.TransGen.mono (fun _ _ reduces => reduces.contracts) _ _ reduced
  obtain ⟨_, completed⟩ := canonical.exists_completes wellFormed whole
  obtain ⟨_, _, completes, leads⟩ := hasFirsts.exists_leading completed
  exact not_completes_of_loop wellFormed conflictFree path loop grown leads completes

end ConflictFree

/-- Without default reductions, reductions come to an end. -/
theorem ends_of_explicit (wellFormed : g.WellFormed)
    (conflictFree : (g.generate false).table.conflicts = []) :
    Ends g false t initialState symbols := by
  by_contra notEnds
  obtain ⟨stackAt, endless⟩ := exists_endless_of_not_ends notEnds
  obtain ⟨_, _, middle, _, upper, empty, _, endlessAbove⟩ :=
    endless.exists_above wellFormed conflictFree 0
  obtain ⟨p, production, listed, vanishes, answered⟩ := (endlessAbove 0).of_nil empty
  -- What grows out of nothing also does so where the terminal can follow.
  obtain ⟨other, front, rest, same, path, completes, leads⟩ :=
    Reduces.exists_completion wellFormed listed answered
  rw [same rfl] at leads
  have before := Grammar.Completes.contract (.replace front listed) completes
  rw [vanishes, List.append_nil] at path before
  have ends := ends_of_completes wellFormed conflictFree before leads
  have moved : Endless g false t initialState (front ++ upper ·) :=
    fun i => (endlessAbove i).append_left path
  refine Ends.not_endless ?_ moved
  rwa [empty, List.append_nil]

end Lalr
