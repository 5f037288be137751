import Lalr.Proofs.Parser.Transcript
import Mathlib.Algebra.Order.Group.Nat

/-!
# Repeated runs of a machine

A caller runs a machine again and again and collects what it reports.  A run is a sequence of silent
steps that ends with a step that has something to report, so a property of configurations that silent
steps keep still holds when the run ends.

Tokens wait, peeked at or not, until they are shifted.
-/

namespace Lalr.Parser

namespace Machine

variable {σ Symbol ρ : Type} {table : ActionTable σ Symbol ρ} {machine machine' : Machine σ Symbol}
  {input input' : Input Symbol}

/-- What a number of runs report, in their order, and where they leave the machine and the input. -/
def runs (table : ActionTable σ Symbol ρ) : (count : Nat) → Machine σ Symbol → Input Symbol →
    List (Result Symbol ρ) × Machine σ Symbol × Input Symbol
  | 0, machine, input => ([], machine, input)
  | count + 1, machine, input =>
      let (results, machine, input) := runs table count machine input
      let (result, machine, input) := machine.next table input
      (results ++ [result], machine, input)

theorem runs_succ {count : Nat} {results : List (Result Symbol ρ)}
    (reached : runs table count machine input = (results, machine', input')) :
    runs table (count + 1) machine input =
      (results ++ [(machine'.next table input').1], (machine'.next table input').2) := by
  rw [runs, reached]

theorem runs_first (count : Nat) :
    runs table (count + 1) machine input =
      ((machine.next table input).1 ::
          (runs table count (machine.next table input).2.1 (machine.next table input).2.2).1,
        (runs table count (machine.next table input).2.1 (machine.next table input).2.2).2) := by
  induction count with
  | zero => rfl
  | succ count ih => rw [runs_succ ih, runs, List.cons_append]

theorem runs_add {first second : Nat} {results later : List (Result Symbol ρ)}
    {middle : Machine σ Symbol} {left : Input Symbol}
    (reached : runs table first machine input = (results, middle, left))
    (further : runs table second middle left = (later, machine', input')) :
    runs table (first + second) machine input = (results ++ later, machine', input') := by
  induction second generalizing later machine' input' with
  | zero =>
      cases further
      rw [Nat.add_zero, reached, List.append_nil]
  | succ second ih =>
      rcases earlier : runs table second middle left with ⟨before, last, rest⟩
      rw [runs_succ earlier, Prod.mk.injEq] at further
      rw [← Nat.add_assoc, runs_succ (ih earlier), further.2, List.append_assoc, further.1]

/-- What the runs report stands in the transcript of the calls. -/
theorem runs_eq_transcript (calls : Nat) (arguments : List (Item Symbol)) :
    (runs table calls machine input).1 =
      (transcript table calls arguments machine input).map Record.result := by
  induction calls generalizing machine input arguments with
  | zero => rfl
  | succ calls ih =>
      rcases ran : machine.next table input with ⟨result, machine', rest⟩
      rw [runs_first, transcript_succ ran, List.map_cons, ran, ih]

/-- A session that is told to keep going shows what the runs report. -/
theorem results_session (calls : Nat) (input : Input Symbol) :
    (session table true calls input).map (·.result) = (runs table calls (start table) input).1 := by
  have shown := congrArg (List.map Prod.fst) (session_eq_transcript table calls input)
  rw [List.map_map, List.map_map] at shown
  exact shown.trans (runs_eq_transcript calls []).symm

/-- What silent steps keep holds when a run ends. -/
theorem exists_stop {result : Result Symbol ρ}
    (ran : machine.next table input = (result, machine', input'))
    (keep : Machine σ Symbol → Input Symbol → Prop)
    (keeps : ∀ machine input machine' input', keep machine input →
      machine.step table input = .next machine' input' → keep machine' input')
    (start : keep machine input) :
    ∃ last rest, keep last rest ∧ last.step table rest = .stop result machine' input' := by
  induction work : machine.work input using Nat.strong_induction_on generalizing machine input with
  | _ amount ih =>
      cases stepped : machine.step table input with
      | stop result machine' input' =>
          rw [next_of_stop stepped] at ran
          cases ran
          exact ⟨machine, input, start, stepped⟩
      | next machine' input' =>
          have less := work_lt_of_step stepped
          rw [work] at less
          rw [next_of_silent stepped] at ran
          exact ih _ less ran (keeps _ _ _ _ start stepped) rfl

/-- Only the answer to reduce leads to a reduction. -/
theorem Performs.exists_reduce {response : Response σ Symbol ρ} {mark : ρ}
    {arguments : List (Item Symbol)}
    (performs : Performs machine input response
      (.stop (.ok (.reduce mark arguments)) machine' input')) :
    ∃ left length, response = .reduce mark left length := by
  cases performs
  exact ⟨_, _, rfl⟩

theorem exists_reduce_of_perform {response : Response σ Symbol ρ} {mark : ρ}
    {arguments : List (Item Symbol)}
    (performed : machine.perform input response =
      .stop (.ok (.reduce mark arguments)) machine' input') :
    ∃ left length, response = .reduce mark left length := by
  have performs := machine.performs input response
  rw [performed] at performs
  exact performs.exists_reduce

/-- A step reduces only because the table has answered so. -/
theorem exists_answer_of_step {mark : ρ} {arguments : List (Item Symbol)}
    (stepped : machine.step table input = .stop (.ok (.reduce mark arguments)) machine' input') :
    ∃ state look left length, table.action state look = .reduce mark left length := by
  have steps := machine.steps table input
  rw [stepped] at steps
  cases steps with
  | goto _ _ _ performs => exact ⟨_, _, performs.exists_reduce⟩
  | peeked _ _ _ performs => exact ⟨_, _, performs.exists_reduce⟩
  | ended _ _ _ performs => exact ⟨_, _, performs.exists_reduce⟩
  | peek _ _ _ performs => exact ⟨_, _, performs.exists_reduce⟩

/-- Every reduction that is reported is the answer of the table to some question. -/
theorem exists_answer_of_runs {count : Nat} {results : List (Result Symbol ρ)} {mark : ρ}
    {arguments : List (Item Symbol)}
    (ran : runs table count machine input = (results, machine', input'))
    (reported : .ok (.reduce mark arguments) ∈ results) :
    ∃ state look left length, table.action state look = .reduce mark left length := by
  induction count generalizing results machine' input' with
  | zero =>
      cases ran
      cases reported
  | succ count ih =>
      rcases earlier : runs table count machine input with ⟨before, middle, left⟩
      rcases next : middle.next table left with ⟨result, after, remaining⟩
      rw [runs_succ earlier, next] at ran
      cases ran
      rcases List.mem_append.1 reported with old | new
      · exact ih earlier old
      · cases List.mem_singleton.1 new
        obtain ⟨_, _, _, stopped⟩ := exists_stop next (fun _ _ => True)
          (fun _ _ _ _ _ _ => trivial) trivial
        exact exists_answer_of_step stopped

/-- What waits to be shifted, a peeked token first. -/
def pending (machine : Machine σ Symbol) (input : Input Symbol) : Input Symbol :=
  machine.peeked.toList.map .ok ++ input

theorem read_eq {tokens : List (Token Symbol)} (waiting : machine.pending input = tokens.map .ok)
    (current : σ) :
    machine.read table current input =
      { machine with peeked := tokens.head? }.perform (tokens.tail.map .ok)
        (table.action current (tokens.head?.map Token.symbol)) := by
  obtain ⟨states, items, phase, peeked⟩ := machine
  cases peeked with
  | some token =>
      cases tokens with
      | nil => simp [pending] at waiting
      | cons head tail =>
          simp only [pending, Option.toList, List.map_cons, List.map_nil, List.cons_append,
            List.nil_append, List.cons.injEq, Except.ok.injEq] at waiting
          obtain ⟨rfl, rfl⟩ := waiting
          rfl
  | none =>
      have listed : input = tokens.map .ok := by simpa [pending] using waiting
      subst listed
      cases tokens with
      | nil => rfl
      | cons head tail => rfl

theorem step_of_reading {tokens : List (Token Symbol)}
    (waiting : machine.pending input = tokens.map .ok) (reading : machine.phase = .reading)
    {current : σ} {below : List σ} (states : machine.states = current :: below) :
    machine.step table input =
      { machine with peeked := tokens.head? }.perform (tokens.tail.map .ok)
        (table.action current (tokens.head?.map Token.symbol)) := by
  rw [← read_eq waiting]
  simp only [step, reading, states]

theorem step_of_shift {current target : σ} {below : List σ} {items : List (Item Symbol)}
    {peeked : Option (Token Symbol)} {token : Token Symbol} {rest : List (Token Symbol)}
    (waiting : pending ⟨current :: below, items, .reading, peeked⟩ input = (token :: rest).map .ok)
    (answered : table.action current (some token.symbol) = .shift target) :
    step table ⟨current :: below, items, .reading, peeked⟩ input =
      .next ⟨target :: current :: below, .token token :: items, .reading, none⟩ (rest.map .ok) := by
  rw [step_of_reading waiting rfl rfl, List.head?_cons, Option.map_some, answered]
  rfl

theorem pending_peeked {states : List σ} {items : List (Item Symbol)} {phase : Phase}
    (tokens : List (Token Symbol)) :
    pending ⟨states, items, phase, tokens.head?⟩ (tokens.tail.map .ok) = tokens.map .ok := by
  cases tokens <;> rfl

/-- It makes no difference to a step whether the first token has been peeked at. -/
theorem step_peeked {current : σ} {below : List σ} {items : List (Item Symbol)}
    {peeked : Option (Token Symbol)} {tokens : List (Token Symbol)}
    (waiting : pending ⟨current :: below, items, .reading, peeked⟩ input = tokens.map .ok) :
    step table ⟨current :: below, items, .reading, tokens.head?⟩ (tokens.tail.map .ok) =
      step table ⟨current :: below, items, .reading, peeked⟩ input := by
  rw [step_of_reading waiting rfl rfl, step_of_reading (pending_peeked tokens) rfl rfl]

end Machine

end Lalr.Parser
