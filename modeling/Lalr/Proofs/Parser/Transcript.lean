import Lalr.Parser.Session
import Lalr.Proofs.Parser.Step
import Mathlib.Order.WellFounded

/-!
# Transcripts

A transcript records a number of calls on one input, whatever they report: after each call the
result, the caller's vector and the whole machine.  A session that is told to keep going shows what a
caller sees of it.

The vector goes through all steps of a call.  Shifts leave it alone, and so does every step that
fails; so it has changed after a call only if an event is reported, and then it holds the items of
this event.
-/

namespace Lalr.Parser

/-- What a caller has after a call: the result, the vector, and the machine. -/
structure Record (σ Symbol ρ : Type) where
  result : Result Symbol ρ
  arguments : List (Item Symbol)
  machine : Machine σ Symbol

/-- The caller's vector after a result: the items of an event, or what has been there before. -/
def argumentsAfter {Symbol ρ : Type} (arguments : List (Item Symbol)) :
    Result Symbol ρ → List (Item Symbol)
  | .ok event => event.arguments
  | .error _ => arguments

/-- The caller's vector after a step. -/
def Step.argumentsAfter {σ Symbol ρ : Type} (arguments : List (Item Symbol)) :
    Step σ Symbol ρ → List (Item Symbol)
  | .next _ _ => arguments
  | .stop result _ _ => Parser.argumentsAfter arguments result

namespace Machine

variable {σ Symbol ρ : Type} {table : ActionTable σ Symbol ρ} {machine machine' : Machine σ Symbol}
  {input input' rest : Input Symbol} {result : Result Symbol ρ}
  {arguments arguments' : List (Item Symbol)}

/-! ## The caller's vector -/

/-- The vector is filled with the items of what is reported. -/
theorem Performs.fill {response : Response σ Symbol ρ} {after : Step σ Symbol ρ}
    (performs : Performs machine input response after) :
    machine.fill arguments response = after.argumentsAfter arguments := by
  cases performs with
  | goto _ => rfl
  | shift _ _ => rfl
  | ended _ _ => rfl
  | reduce items states => exact if_neg (by omega)
  | short short => exact if_pos short
  | accept stacked => rw [Machine.fill, stacked]; rfl
  | bare bare => rw [Machine.fill, bare]; rfl
  | refuse => rfl

theorem performInto_eq (machine : Machine σ Symbol) (arguments : List (Item Symbol))
    (input : Input Symbol) (response : Response σ Symbol ρ) :
    machine.performInto arguments input response =
      (machine.perform input response,
        (machine.perform input response).argumentsAfter arguments) :=
  Prod.ext rfl (machine.performs input response).fill

/-- A step fills the vector if it reports an event, and leaves it alone otherwise. -/
theorem stepInto_eq (table : ActionTable σ Symbol ρ) (machine : Machine σ Symbol)
    (arguments : List (Item Symbol)) (input : Input Symbol) :
    machine.stepInto table arguments input =
      (machine.step table input, (machine.step table input).argumentsAfter arguments) := by
  obtain ⟨states, items, phase, peeked⟩ := machine
  cases phase with
  | accepted => rfl
  | pendingGoto =>
      rcases states with _ | ⟨current, below⟩
      · rfl
      · rcases items with _ | ⟨top, items⟩
        · rfl
        · exact performInto_eq ..
  | reading =>
      rcases states with _ | ⟨current, below⟩
      · rfl
      · rcases peeked with _ | token
        · rcases input with _ | ⟨message | token, rest⟩
          · exact performInto_eq ..
          · rfl
          · exact performInto_eq ..
        · exact performInto_eq ..

theorem stepInto_of_silent (silent : machine.step table input = .next machine' rest)
    (arguments : List (Item Symbol)) :
    machine.stepInto table arguments input = (.next machine' rest, arguments) := by
  rw [stepInto_eq, silent]
  rfl

theorem stepInto_of_stop (stopped : machine.step table input = .stop result machine' rest)
    (arguments : List (Item Symbol)) : machine.stepInto table arguments input =
      (.stop result machine' rest, argumentsAfter arguments result) := by
  rw [stepInto_eq, stopped]
  rfl

theorem nextInto_of_silent (silent : machine.step table input = .next machine' rest) :
    machine.nextInto table arguments input = machine'.nextInto table arguments rest := by
  have into := stepInto_of_silent silent arguments
  rw [nextInto]
  split
  · next stopped =>
      rw [into] at stopped
      cases stopped
  · next again =>
      rw [into] at again
      cases again
      rfl

theorem nextInto_of_stop (stopped : machine.step table input = .stop result machine' rest) :
    machine.nextInto table arguments input =
      (result, machine', rest, argumentsAfter arguments result) := by
  have into := stepInto_of_stop stopped arguments
  rw [nextInto]
  split
  · next again =>
      rw [into] at again
      cases again
      rfl
  · next silent =>
      rw [into] at silent
      cases silent

/-- A call does what a run does.  The vector holds the items of the event, or else what has been there
before. -/
theorem nextInto_eq (table : ActionTable σ Symbol ρ) (machine : Machine σ Symbol)
    (arguments : List (Item Symbol)) (input : Input Symbol) :
    machine.nextInto table arguments input =
      ((machine.next table input).1, (machine.next table input).2.1,
        (machine.next table input).2.2, argumentsAfter arguments (machine.next table input).1) := by
  induction amount : machine.work input using Nat.strong_induction_on generalizing machine input with
  | _ amount ih =>
      cases stepped : machine.step table input with
      | stop result last rest => rw [nextInto_of_stop stepped, next_of_stop stepped]
      | next middle rest =>
          have less := work_lt_of_step stepped
          rw [amount] at less
          rw [nextInto_of_silent stepped, next_of_silent stepped, ih _ less _ _ rfl]

/-! ## Transcripts -/

/-- The records of a number of calls, whatever they report. -/
def transcript (table : ActionTable σ Symbol ρ) :
    (calls : Nat) → List (Item Symbol) → Machine σ Symbol → Input Symbol →
      List (Record σ Symbol ρ)
  | 0, _, _, _ => []
  | calls + 1, arguments, machine, input =>
      let (result, machine, input, arguments) := machine.nextInto table arguments input
      ⟨result, arguments, machine⟩ :: transcript table calls arguments machine input

/-- A session that is told to keep going shows its transcript. -/
theorem session_eq_transcript (table : ActionTable σ Symbol ρ) (calls : Nat) (input : Input Symbol) :
    (session table true calls input).map
        (fun seen => (seen.result, seen.arguments, seen.state, seen.expected)) =
      (transcript table calls [] (start table) input).map fun record =>
        (record.result, record.arguments, record.machine.state?, record.machine.expected table) := by
  have observed : ∀ (total : Nat) (calls : Nat) (arguments : List (Item Symbol))
      (machine : Machine σ Symbol) (input : Input Symbol),
      (observe table true total calls arguments machine input).map
          (fun seen => (seen.result, seen.arguments, seen.state, seen.expected)) =
        (transcript table calls arguments machine input).map fun record =>
          (record.result, record.arguments, record.machine.state?,
            record.machine.expected table) := by
    intro total calls
    induction calls with
    | zero => exact fun _ _ _ => rfl
    | succ calls ih =>
        intro arguments machine input
        rw [observe, transcript]
        simp only [Bool.true_or, if_true, List.map_cons, ih]
  exact observed _ calls [] (start table) input

theorem transcript_succ (ran : machine.next table input = (result, machine', rest)) (calls : Nat)
    (arguments : List (Item Symbol)) :
    transcript table (calls + 1) arguments machine input =
      ⟨result, argumentsAfter arguments result, machine'⟩ ::
        transcript table calls (argumentsAfter arguments result) machine' rest := by
  rw [transcript, nextInto_eq, ran]

/-- Calls that begin alike go on alike. -/
theorem transcript_congr (same : machine.next table input = machine'.next table input')
    (calls : Nat) (arguments : List (Item Symbol)) :
    transcript table calls arguments machine input =
      transcript table calls arguments machine' input' := by
  cases calls with
  | zero => rfl
  | succ calls => rw [transcript, transcript, nextInto_eq, nextInto_eq, same]

theorem length_transcript (calls : Nat) (arguments : List (Item Symbol)) (machine : Machine σ Symbol)
    (input : Input Symbol) : (transcript table calls arguments machine input).length = calls := by
  induction calls generalizing arguments machine input with
  | zero => rfl
  | succ calls ih => rw [transcript, List.length_cons, ih]

/-- A failed call leaves the arguments as they were. -/
theorem arguments_of_failure {calls : Nat} {earlier later : List (Record σ Symbol ρ)}
    {record : Record σ Symbol ρ} {failure : Failure}
    (recorded : transcript table calls arguments machine input = earlier ++ record :: later)
    (failed : record.result = .error failure) :
    record.arguments = (earlier.getLast?.map Record.arguments).getD arguments := by
  induction calls generalizing arguments machine input earlier with
  | zero => simp [transcript] at recorded
  | succ calls ih =>
      rcases ran : machine.next table input with ⟨result, machine', rest⟩
      rw [transcript_succ ran] at recorded
      cases earlier with
      | nil =>
          rw [List.nil_append, List.cons.injEq] at recorded
          obtain ⟨rfl, _⟩ := recorded
          cases failed
          rfl
      | cons first others =>
          rw [List.cons_append, List.cons.injEq] at recorded
          obtain ⟨rfl, recorded⟩ := recorded
          rw [ih recorded, List.getLast?_cons]
          cases others.getLast? <;> rfl

end Machine

end Lalr.Parser
