import Lalr.Proofs.Parser.Transcript
import Lalr.Proofs.Parser.Waiting

/-!
# Errors of the lexer

An error of the lexer ends a call, but it leaves no trace: the next call goes on from there as if the
error had not been in the input.  So when the calls that report such errors are left out of a
transcript, the transcript of the input without errors remains.
-/

namespace Lalr.Parser

/-- The input without the errors of the lexer. -/
def Input.clean {Symbol : Type} (input : Input Symbol) : Input Symbol := input.filter (·.isOk)

/-- The messages of the errors in the input. -/
def Input.errors {Symbol : Type} (input : Input Symbol) : List String :=
  input.filterMap fun
    | .error message => some message
    | .ok _ => none

/-- The message of the lexer that a call has reported. -/
def Record.lexerError? {σ Symbol ρ : Type} (record : Record σ Symbol ρ) : Option String :=
  match record.result with
  | .error (.lexer message) => some message
  | _ => none

theorem Record.lexerError?_eq_none {σ Symbol ρ : Type} {record : Record σ Symbol ρ}
    (other : ∀ message, record.result ≠ .error (.lexer message)) : record.lexerError? = none := by
  unfold lexerError?
  split
  · next message same => exact absurd same (other message)
  · rfl

namespace Machine

variable {σ Symbol ρ : Type} {table : ActionTable σ Symbol ρ} {machine machine' : Machine σ Symbol}
  {input rest : Input Symbol} {result : Result Symbol ρ} {message : String}

/-! ## Steps and calls -/

theorem Performs.ne_lexer {response : Response σ Symbol ρ} :
    ¬ Performs machine input response (.stop (.error (.lexer message)) machine' rest) := by
  intro performs
  cases performs

/-- An error comes next, and it is asked for. -/
def Interrupted (machine : Machine σ Symbol) (input : Input Symbol) : Prop :=
  machine.asks = true ∧ ∃ message rest, input = .error message :: rest

/-- A step reports an error of the lexer only when it is interrupted by one. -/
theorem interrupted_of_step
    (stepped : machine.step table input = .stop (.error (.lexer message)) machine' rest) :
    machine.Interrupted input := by
  have steps := machine.steps table input
  rw [stepped] at steps
  cases steps with
  | goto _ _ _ performs => exact absurd performs Performs.ne_lexer
  | peeked _ _ _ performs => exact absurd performs Performs.ne_lexer
  | ended _ _ _ performs => exact absurd performs Performs.ne_lexer
  | interrupted reading states unpeeked =>
      exact ⟨by simp [asks, reading, states, unpeeked], message, rest, rfl⟩
  | peek _ _ _ performs => exact absurd performs Performs.ne_lexer

theorem step_of_error (asking : machine.asks = true) :
    machine.step table (.error message :: rest) = .stop (.error (.lexer message)) machine rest := by
  obtain ⟨states, items, phase, peeked⟩ := machine
  simp only [asks, Bool.and_eq_true, decide_eq_true_eq, Option.isNone_iff_eq_none] at asking
  obtain ⟨⟨rfl, rfl⟩, nonempty⟩ := asking
  cases states with
  | nil => cases nonempty
  | cons current below => rfl

/-- A step that is not interrupted takes no error from the input. -/
theorem errors_rest_step (table : ActionTable σ Symbol ρ)
    (uninterrupted : ¬ machine.Interrupted input) :
    (machine.step table input).rest.errors = input.errors := by
  rw [rest_step]
  split
  · next asking =>
      cases input with
      | nil => rfl
      | cons first more =>
          cases first with
          | ok token => rfl
          | error message => exact absurd ⟨asking, message, more, rfl⟩ uninterrupted
  · rfl

/-- A step that is not interrupted is the same without the errors further on. -/
theorem step_clean (table : ActionTable σ Symbol ρ)
    (uninterrupted : ¬ machine.Interrupted input) :
    machine.step table input.clean =
      match machine.step table input with
      | .next machine' rest => .next machine' rest.clean
      | .stop result machine' rest => .stop result machine' rest.clean := by
  have split : ∃ first more : Input Symbol,
      machine.step table input = (machine.step table first).followedBy more ∧
      machine.step table input.clean = (machine.step table first).followedBy more.clean ∧
      (machine.step table first).rest = [] := by
    rw [step_first table machine input, step_first table machine input.clean]
    cases asking : machine.asks with
    | false => exact ⟨[], input, rfl, rfl, by rw [rest_step, asking]; rfl⟩
    | true =>
        cases input with
        | nil => exact ⟨[], [], rfl, rfl, by rw [rest_step, asking]; rfl⟩
        | cons first more =>
            cases first with
            | error message => exact absurd ⟨asking, message, more, rfl⟩ uninterrupted
            | ok token => exact ⟨[.ok token], more, rfl, rfl, by rw [rest_step, asking]; rfl⟩
  obtain ⟨first, more, whole, cleaned, taken⟩ := split
  rw [whole, cleaned]
  cases stepped : machine.step table first with
  | next machine' rest =>
      rw [stepped] at taken
      cases taken
      rfl
  | stop result machine' rest =>
      rw [stepped] at taken
      cases taken
      rfl

/-- A call is ended by the first error that it meets, and without errors would go on as the next call
does; or else it is the same without errors. -/
theorem next_clean (ran : machine.next table input = (result, machine', rest)) :
    (∃ message, result = .error (.lexer message) ∧ input.errors = message :: rest.errors ∧
        machine.next table input.clean = machine'.next table rest.clean) ∨
      (∀ message, result ≠ .error (.lexer message)) ∧ input.errors = rest.errors ∧
        machine.next table input.clean = (result, machine', rest.clean) := by
  obtain ⟨last, left, ⟨unheard, same⟩, stopped⟩ := exists_stop ran
    (fun last left => left.errors = input.errors ∧
      machine.next table input.clean = last.next table left.clean)
    (by
      intro first left next further ⟨unheard, same⟩ stepped
      have uninterrupted : ¬ first.Interrupted left := by
        rintro ⟨asking, message, more, rfl⟩
        rw [step_of_error asking] at stepped
        cases stepped
      have errors := errors_rest_step table uninterrupted
      have silent := step_clean table uninterrupted
      rw [stepped] at errors silent
      exact ⟨errors.trans unheard, same.trans (next_of_silent silent)⟩)
    ⟨rfl, rfl⟩
  by_cases interrupted : last.Interrupted left
  · obtain ⟨asking, message, more, rfl⟩ := interrupted
    rw [step_of_error asking] at stopped
    cases stopped
    exact .inl ⟨message, rfl, unheard.symm, same⟩
  · have errors := errors_rest_step table interrupted
    have reported := step_clean table interrupted
    rw [stopped] at errors reported
    refine .inr ⟨?_, unheard.symm.trans errors.symm, same.trans (next_of_stop reported)⟩
    rintro message rfl
    exact interrupted (interrupted_of_step stopped)

/-! ## Transcripts -/

/-- The calls that do not report an error of the lexer make the transcript of the input without
errors, and those that do report the errors in their order. -/
theorem transcript_clean (table : ActionTable σ Symbol ρ) (calls : Nat)
    (arguments : List (Item Symbol)) (machine : Machine σ Symbol) (input : Input Symbol) :
    let records := transcript table calls arguments machine input
    let others := records.filter (·.lexerError?.isNone)
    others = transcript table others.length arguments machine input.clean ∧
      records.filterMap Record.lexerError? <+: input.errors := by
  induction calls generalizing arguments machine input with
  | zero => exact ⟨rfl, List.nil_prefix⟩
  | succ calls ih =>
      rcases ran : machine.next table input with ⟨result, machine', rest⟩
      rw [transcript_succ ran]
      rcases next_clean ran with ⟨message, rfl, errors, same⟩ | ⟨other, errors, same⟩
      · obtain ⟨others, heard⟩ := ih arguments machine' rest
        have reported : (⟨.error (.lexer message), arguments, machine'⟩ :
            Record σ Symbol ρ).lexerError? = some message := rfl
        constructor
        · rw [List.filter_cons_of_neg (by simp [Record.lexerError?])]
          exact others.trans (transcript_congr same _ arguments).symm
        · rw [argumentsAfter, List.filterMap_cons_some reported, errors]
          exact List.cons_prefix_cons.2 ⟨rfl, heard⟩
      · obtain ⟨others, heard⟩ := ih (argumentsAfter arguments result) machine' rest
        have unheard : Record.lexerError? ⟨result, argumentsAfter arguments result, machine'⟩ =
            none := Record.lexerError?_eq_none other
        constructor
        · rw [List.filter_cons_of_pos (by rw [unheard]; rfl), List.length_cons, transcript_succ same]
          exact congrArg _ others
        · rw [List.filterMap_cons_none unheard, errors]
          exact heard

theorem length_others (records : List (Record σ Symbol ρ)) :
    (records.filter (·.lexerError?.isNone)).length + (records.filterMap Record.lexerError?).length =
      records.length := by
  induction records with
  | nil => rfl
  | cons head tail ih =>
      cases reported : head.lexerError? with
      | none => simp [reported, ← ih, Nat.add_right_comm]
      | some message => simp [reported, ← ih, Nat.add_assoc]

/-- For any table, the calls that do not report an error of the lexer are, one by one, the calls on the
input without such errors: with the same results, arguments and machines after each of them.  The
errors reported are the first ones of the input, in their order, and leave the arguments as they
were. -/
theorem lexer_errors_are_transparent (table : ActionTable σ Symbol ρ)
    (arguments : List (Item Symbol)) (input : Input Symbol) (calls : Nat) :
    let records := transcript table calls arguments (start table) input
    let others := records.filter (·.lexerError?.isNone)
    others = transcript table others.length arguments (start table) input.clean ∧
      calls ≤ others.length + input.errors.length ∧
      records.filterMap Record.lexerError? <+: input.errors ∧
      ∀ earlier record later message, records = earlier ++ record :: later →
        record.result = .error (.lexer message) →
          record.arguments = (earlier.getLast?.map Record.arguments).getD arguments := by
  intro records others
  obtain ⟨same, heard⟩ := transcript_clean table calls arguments (start table) input
  refine ⟨same, ?_, heard, ?_⟩
  · calc calls
      _ = records.length := (length_transcript ..).symm
      _ = others.length + (records.filterMap Record.lexerError?).length := (length_others _).symm
      _ ≤ others.length + input.errors.length := Nat.add_le_add_left heard.length_le _
  · intro earlier record later message recorded failed
    exact arguments_of_failure recorded failed

end Machine

end Lalr.Parser
