import Lalr.Parser.Entries
import Lalr.Proofs.Parser.Waiting
import Mathlib.Logic.Relation

/-!
# The shape of the stacks

A table written by hand may answer anything anywhere: reduce again while a goto is pending, accept
before the end, or ask for more items than there are.  Still a machine reports something after a
bounded number of steps, and its two stacks keep in step.  Each shift pushes a state and an item, a
goto pushes the state that belongs to the item on top, and a reduction takes as many states as items
and then pushes an item.  So there is at most one state more than there are items, and none more while
a goto is pending.  Acceptance takes an item away, but nothing follows it.

What is reported for want of states or items is hence known: it was a reduction longer than the
stack of states, or acceptance of nothing.
-/

namespace Lalr.Parser

/-- Where a step leaves the machine. -/
def Step.machine {σ Symbol ρ : Type} : Step σ Symbol ρ → Machine σ Symbol
  | .next machine _ | .stop _ machine _ => machine

/-- The symbol that a step has pushed, if it was told to reduce and has done so. -/
def Step.pushed? {σ Symbol ρ : Type} :
    Step σ Symbol ρ → Option (Response σ Symbol ρ) → Option Symbol
  | .stop (.ok _) _ _, some (.reduce _ left _) => some left
  | _, _ => none

namespace Machine

variable {σ Symbol ρ : Type} {table : ActionTable σ Symbol ρ} {machine machine' : Machine σ Symbol}
  {input rest : Input Symbol} {pushed : Option Symbol}

/-! ## Runs with a bound -/

/-- Run a machine until there is something to report, but for a limited number of steps. -/
def within (table : ActionTable σ Symbol ρ) : (steps : Nat) → Machine σ Symbol → Input Symbol →
    Option (Result Symbol ρ × Machine σ Symbol × Input Symbol)
  | 0, _, _ => none
  | steps + 1, machine, input =>
      match machine.step table input with
      | .stop result machine input => some (result, machine, input)
      | .next machine input => within table steps machine input

/-- Each step without anything to report takes some work away. -/
theorem within_eq_next {steps : Nat} (enough : machine.work input < steps) :
    within table steps machine input = some (machine.next table input) := by
  induction steps generalizing machine input with
  | zero => exact absurd enough (Nat.not_lt_zero _)
  | succ steps ih =>
      rw [within]
      cases stepped : machine.step table input with
      | stop result machine' input' => rw [next_of_stop stepped]
      | next machine' input' =>
          have less := work_lt_of_step stepped
          rw [next_of_silent stepped]
          exact ih (Nat.lt_of_lt_of_le less (Nat.lt_succ_iff.1 enough))

theorem work_le (machine : Machine σ Symbol) (input : Input Symbol) :
    machine.work input ≤ machine.peeked.toList.length + input.length + 1 := by
  simp only [work]
  split <;> omega

/-! ## Answers -/

/-- What the table answers in the next step, if it is asked. -/
def answer? (table : ActionTable σ Symbol ρ) (machine : Machine σ Symbol) (input : Input Symbol) :
    Option (Response σ Symbol ρ) :=
  match machine.phase, machine.states with
  | .accepted, _ => none
  | _, [] => none
  | .pendingGoto, current :: _ =>
      machine.items.head?.map fun top => table.action current (some top.symbol)
  | .reading, current :: _ =>
      match machine.peeked, input with
      | some token, _ => some (table.action current (some token.symbol))
      | none, [] => some (table.action current none)
      | none, .error _ :: _ => none
      | none, .ok token :: _ => some (table.action current (some token.symbol))

/-- A step without an answer fails and changes nothing.  With an answer it performs that, and may
have peeked at a token before. -/
inductive Answered (machine : Machine σ Symbol) :
    Option (Response σ Symbol ρ) → Step σ Symbol ρ → Prop
  | unasked {failure : Failure} {rest : Input Symbol}
      (stateless : failure = .emptyStateStack → machine.states = [])
      (bare : failure = .emptyItemStack → machine.phase = .pendingGoto ∧ machine.items = []) :
      Answered machine none (.stop (.error failure) machine rest)
  | asked {response : Response σ Symbol ρ} {peeked : Option (Token Symbol)} {rest : Input Symbol}
      {after : Step σ Symbol ρ} (unaccepted : machine.phase ≠ .accepted)
      (performs : Performs { machine with peeked } rest response after) :
      Answered machine (some response) after

theorem answered (table : ActionTable σ Symbol ρ) (machine : Machine σ Symbol)
    (input : Input Symbol) :
    Answered machine (machine.answer? table input) (machine.step table input) := by
  obtain ⟨states, items, phase, peeked⟩ := machine
  cases phase with
  | accepted => exact .unasked Failure.noConfusion Failure.noConfusion
  | pendingGoto =>
      rcases states with _ | ⟨current, below⟩
      · exact .unasked (fun _ => rfl) Failure.noConfusion
      · rcases items with _ | ⟨top, items⟩
        · exact .unasked Failure.noConfusion fun _ => ⟨rfl, rfl⟩
        · exact .asked Phase.noConfusion (performs ..)
  | reading =>
      rcases states with _ | ⟨current, below⟩
      · exact .unasked (fun _ => rfl) Failure.noConfusion
      · rcases peeked with _ | token
        · rcases input with _ | ⟨message | token, rest⟩
          · exact .asked Phase.noConfusion (performs ⟨_, _, _, none⟩ [] _)
          · exact .unasked Failure.noConfusion Failure.noConfusion
          · exact .asked Phase.noConfusion (performs ⟨_, _, _, some token⟩ rest _)
        · exact .asked Phase.noConfusion (performs ⟨_, _, _, some token⟩ input _)

/-! ## Shape -/

/-- Where the stacks of a machine are, given the symbol that the last reduction has pushed. -/
structure Shaped (pushed : Option Symbol) (machine : Machine σ Symbol) : Prop where
  stated : machine.states ≠ []
  reading : machine.phase = .reading → machine.states.length ≤ machine.items.length + 1
  pending : machine.phase = .pendingGoto → machine.states.length ≤ machine.items.length
  top : machine.phase = .pendingGoto →
    ∃ left, pushed = some left ∧ machine.items.head? = some (.node left)

theorem Shaped.start (table : ActionTable σ Symbol ρ) : Shaped none (start table) :=
  ⟨List.cons_ne_nil _ _, fun _ => Nat.le_refl _, Phase.noConfusion, Phase.noConfusion⟩

/-- Whatever else is going on, there is at most one state more than there are items. -/
theorem Shaped.states_le (shaped : Shaped pushed machine) (unaccepted : machine.phase ≠ .accepted) :
    machine.states.length ≤ machine.items.length + 1 := by
  cases phase : machine.phase with
  | reading => exact shaped.reading phase
  | pendingGoto => exact Nat.le_succ_of_le (shaped.pending phase)
  | accepted => exact absurd phase unaccepted

theorem Shaped.peek (shaped : Shaped pushed machine) (peeked : Option (Token Symbol)) :
    Shaped pushed { machine with peeked } :=
  ⟨shaped.stated, shaped.reading, shaped.pending, shaped.top⟩

/-- Each answer that is performed keeps the stacks in step. -/
theorem Shaped.performs {response : Response σ Symbol ρ} {after : Step σ Symbol ρ}
    (shaped : Shaped pushed machine) (unaccepted : machine.phase ≠ .accepted)
    (performs : Performs machine rest response after) :
    Shaped ((after.pushed? (some response)).or pushed) after.machine := by
  cases performs with
  | goto pending =>
      exact ⟨List.cons_ne_nil _ _, fun _ => Nat.succ_le_succ (shaped.pending pending),
        Phase.noConfusion, Phase.noConfusion⟩
  | shift settled peeked =>
      exact ⟨List.cons_ne_nil _ _, fun _ => Nat.succ_le_succ (shaped.states_le unaccepted),
        Phase.noConfusion, Phase.noConfusion⟩
  | @reduce mark left length items states =>
      have most := shaped.states_le unaccepted
      refine ⟨?_, Phase.noConfusion, fun _ => ?_, fun _ => ⟨left, rfl, rfl⟩⟩
      · exact List.ne_nil_of_length_pos (by simp only [Step.machine, List.length_drop]; omega)
      · simp only [Step.machine, List.length_drop, List.length_cons]
        omega
  | accept stacked => exact ⟨shaped.stated, Phase.noConfusion, Phase.noConfusion, Phase.noConfusion⟩
  | _ => exact shaped

theorem Shaped.step (shaped : Shaped pushed machine) (table : ActionTable σ Symbol ρ)
    (input : Input Symbol) :
    Shaped (((machine.step table input).pushed? (machine.answer? table input)).or pushed)
      (machine.step table input).machine := by
  have answered := machine.answered table input
  generalize machine.step table input = after at answered ⊢
  generalize machine.answer? table input = answer at answered ⊢
  cases answered with
  | unasked => exact shaped
  | @asked _ peeked _ _ unaccepted performs =>
      exact (shaped.peek peeked).performs unaccepted performs

/-! ## Accounts -/

/-- What a step was told that reports a result, and how deep the stacks were then. -/
structure Accounted (answer : Option (Response σ Symbol ρ)) (machine : Machine σ Symbol)
    (result : Result Symbol ρ) : Prop where
  stated : result ≠ .error .emptyStateStack
  bare : result = .error .emptyItemStack →
    (∃ mark left length, answer = some (.reduce mark left length) ∧
      machine.states.length ≤ length) ∨
    answer = some .accept ∧ machine.items = []
  enough : ∀ mark arguments, result = .ok (.reduce mark arguments) →
    ∃ left, answer = some (.reduce mark left arguments.length) ∧
      arguments.length ≤ machine.items.length ∧ arguments.length < machine.states.length

theorem Shaped.accounted_performs {response : Response σ Symbol ρ} {result : Result Symbol ρ}
    (shaped : Shaped pushed machine) (unaccepted : machine.phase ≠ .accepted)
    (performs : Performs machine input response (.stop result machine' rest)) :
    Accounted (some response) machine result := by
  cases performs with
  | @reduce mark left length items states =>
      refine ⟨by rintro ⟨⟩, by rintro ⟨⟩, ?_⟩
      rintro _ _ ⟨⟩
      have taken : (machine.items.take length).reverse.length = length := by
        rw [List.length_reverse, List.length_take, Nat.min_eq_left items]
      rw [taken]
      exact ⟨left, rfl, items, states⟩
  | @short mark left length short =>
      have most := shaped.states_le unaccepted
      exact ⟨by rintro ⟨⟩, fun _ => .inl ⟨mark, left, length, rfl, by omega⟩, by rintro _ _ ⟨⟩⟩
  | bare bare => exact ⟨by rintro ⟨⟩, fun _ => .inr ⟨rfl, bare⟩, by rintro _ _ ⟨⟩⟩
  | _ => exact ⟨by rintro ⟨⟩, by rintro ⟨⟩, by rintro _ _ ⟨⟩⟩

theorem Shaped.accounted {result : Result Symbol ρ} (shaped : Shaped pushed machine)
    (stopped : machine.step table input = .stop result machine' rest) :
    Accounted (machine.answer? table input) machine result := by
  have answered := machine.answered table input
  rw [stopped] at answered
  generalize machine.answer? table input = answer at answered ⊢
  cases answered with
  | unasked stateless bare =>
      refine ⟨?_, ?_, by rintro _ _ ⟨⟩⟩
      · rintro ⟨⟩
        exact shaped.stated (stateless rfl)
      · rintro ⟨⟩
        obtain ⟨pending, bare⟩ := bare rfl
        obtain ⟨left, _, top⟩ := shaped.top pending
        rw [bare] at top
        cases top
  | @asked _ peeked _ _ unaccepted performs =>
      obtain ⟨stated, bare, enough⟩ := (shaped.peek peeked).accounted_performs unaccepted performs
      exact ⟨stated, bare, enough⟩

/-! ## Calls -/

/-- The configurations that the calls on an input go through, with the symbol that the last reduction
has pushed. -/
inductive Visits (table : ActionTable σ Symbol ρ) (input : Input Symbol) :
    Option Symbol → Machine σ Symbol → Input Symbol → Prop
  | start : Visits table input none (start table) input
  | step {pushed : Option Symbol} {machine : Machine σ Symbol} {rest : Input Symbol}
      (visited : Visits table input pushed machine rest) :
      Visits table input
        (((machine.step table rest).pushed? (machine.answer? table rest)).or pushed)
        (machine.step table rest).machine (machine.step table rest).rest

theorem Visits.shaped (visited : Visits table input pushed machine rest) :
    Shaped pushed machine := by
  induction visited with
  | start => exact .start table
  | step _ ih => exact ih.step table _

/-- From one configuration to another by steps that have nothing to report. -/
def Silently (table : ActionTable σ Symbol ρ) :
    Machine σ Symbol × Input Symbol → Machine σ Symbol × Input Symbol → Prop :=
  Relation.ReflTransGen fun before after => before.1.step table before.2 = .next after.1 after.2

/-- The last step of a call. -/
theorem Visits.exists_last {result : Result Symbol ρ} {rest' : Input Symbol}
    (visited : Visits table input pushed machine rest)
    (ran : machine.next table rest = (result, machine', rest')) :
    ∃ pushed last left, Visits table input pushed last left ∧
      Silently table (machine, rest) (last, left) ∧
      last.step table left = .stop result machine' rest' := by
  obtain ⟨last, left, ⟨⟨pushed, reached⟩, silent⟩, stopped⟩ := exists_stop ran
    (fun last left => (∃ pushed, Visits table input pushed last left) ∧
      Silently table (machine, rest) (last, left))
    (by
      rintro first _ next further ⟨⟨pushed, reached⟩, silent⟩ stepped
      have visited := reached.step
      rw [stepped] at visited
      exact ⟨⟨_, visited⟩, silent.tail stepped⟩)
    ⟨⟨pushed, visited⟩, .refl⟩
  exact ⟨pushed, last, left, reached, silent, stopped⟩

theorem exists_visits_runs (table : ActionTable σ Symbol ρ) (input : Input Symbol) (count : Nat) :
    ∃ pushed, Visits table input pushed (runs table count (start table) input).2.1
      (runs table count (start table) input).2.2 := by
  induction count with
  | zero => exact ⟨none, .start⟩
  | succ count ih =>
      obtain ⟨pushed, visited⟩ := ih
      obtain ⟨pushed, last, left, reached, _, stopped⟩ := visited.exists_last rfl
      have after := reached.step
      rw [stopped] at after
      exact ⟨_, after⟩

/-- For any table, and wherever the calls on an input get to: a call ends after a number of steps that
is at most two more than the number of tokens and errors that wait, and the stacks are in shape.  The
step that ends a call never misses a state; if it misses an item, it was told to reduce by at least as
many symbols as there are states, or to accept without an item; and a reduction that it reports takes
no more items than there are and fewer states. -/
theorem stacks_keep_their_shape (table : ActionTable σ Symbol ρ) (input : Input Symbol) :
    (∀ count, ∃ pushed, Visits table input pushed (runs table count (start table) input).2.1
      (runs table count (start table) input).2.2) ∧
    ∀ pushed machine rest, Visits table input pushed machine rest →
      Shaped pushed machine ∧
      within table (machine.peeked.toList.length + rest.length + 2) machine rest =
        some (machine.next table rest) ∧
      ∃ last left, Silently table (machine, rest) (last, left) ∧
        last.step table left = .stop (machine.next table rest).1 (machine.next table rest).2.1
          (machine.next table rest).2.2 ∧
        Accounted (last.answer? table left) last (machine.next table rest).1 := by
  refine ⟨exists_visits_runs table input, ?_⟩
  intro pushed machine rest visited
  refine ⟨visited.shaped, within_eq_next (Nat.lt_succ_of_le (machine.work_le rest)), ?_⟩
  obtain ⟨_, last, left, reached, silent, stopped⟩ := visited.exists_last rfl
  exact ⟨last, left, silent, stopped, reached.shaped.accounted stopped⟩

end Machine

/-- A table that reduces again while a goto is pending, and at last by more symbols than there are
states for. -/
def ActionTable.excessive : ActionTable Nat Nat Nat :=
  .ofEntries 0
    [⟨0, .exactly 1, .shift 1⟩, ⟨1, .endOfInput, .reduce 7 2 1⟩, ⟨0, .exactly 2, .reduce 8 3 0⟩,
      ⟨0, .exactly 3, .shift 2⟩, ⟨2, .endOfInput, .reduce 9 2 2⟩]
    []

/-- The third call fails although there are two items, for there are only two states. -/
theorem Machine.stacks_keep_their_shape_excessive :
    Shaped (some 3) ⟨[0], [.node 3, .node 2], .pendingGoto, (none : Option (Token Nat))⟩ ∧
    within .excessive 2 ⟨[0], [.node 3, .node 2], .pendingGoto, none⟩ [] =
      some (.error .emptyItemStack, ⟨[2, 0], [.node 3, .node 2], .reading, none⟩, []) ∧
    ∃ last left,
      Silently .excessive (⟨[0], [.node 3, .node 2], .pendingGoto, none⟩, []) (last, left) ∧
      Accounted (last.answer? .excessive left) last (.error .emptyItemStack) := by
  have started : Visits .excessive [.ok ⟨1, "a"⟩] none ⟨[0], [], .reading, none⟩
    [.ok ⟨1, "a"⟩] := .start
  have visited : Visits .excessive [.ok ⟨1, "a"⟩] (some 3)
    ⟨[0], [.node 3, .node 2], .pendingGoto, none⟩ [] := started.step.step.step
  have failed : next .excessive ⟨[0], [.node 3, .node 2], .pendingGoto, none⟩ [] =
      (.error .emptyItemStack, ⟨[2, 0], [.node 3, .node 2], .reading, none⟩, []) :=
    (next_of_silent rfl).trans (next_of_stop rfl)
  obtain ⟨shaped, bounded, last, left, silent, _, accounted⟩ :=
    (stacks_keep_their_shape .excessive [.ok ⟨1, "a"⟩]).2 _ _ _ visited
  rw [failed] at bounded accounted
  exact ⟨shaped, bounded, last, left, silent, accounted⟩

end Lalr.Parser
