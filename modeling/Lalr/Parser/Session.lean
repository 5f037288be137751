import Lalr.Parser.Machine

/-!
# Calls and sessions

Whoever calls a machine hands over a vector, and finds the items of a reported event in it.  The
vector is emptied and filled only when the items for it have been found on the stack; all that fails
before leaves it as it was, and so do shifts.  A call carries the vector through all steps of a run.

A session calls a machine again and again on one input and notes, after each call, what the caller
can see: the result, the vector, the state on top of the stack, the terminals expected there, and how
much of the input has been read.
-/

namespace Lalr.Parser

namespace Machine

variable {σ Symbol ρ : Type}

/-- What an answer of the table leaves in the caller's vector. -/
def fill (machine : Machine σ Symbol) (arguments : List (Item Symbol)) :
    Response σ Symbol ρ → List (Item Symbol)
  | .shift _ | .refuse _ => arguments
  | .reduce _ _ length =>
      if machine.items.length < length ∨ machine.states.length ≤ length then
        arguments
      else
        (machine.items.take length).reverse
  | .accept =>
      match machine.items with
      | [] => arguments
      | top :: _ => [top]

/-- Do what the table has answered, with the caller's vector at hand. -/
def performInto (machine : Machine σ Symbol) (arguments : List (Item Symbol)) (input : Input Symbol)
    (response : Response σ Symbol ρ) : Step σ Symbol ρ × List (Item Symbol) :=
  (machine.perform input response, machine.fill arguments response)

/-- Ask the table about the next token, with the caller's vector at hand. -/
def readInto (table : ActionTable σ Symbol ρ) (current : σ) (machine : Machine σ Symbol)
    (arguments : List (Item Symbol)) (input : Input Symbol) :
    Step σ Symbol ρ × List (Item Symbol) :=
  match machine.peeked, input with
  | some token, input =>
      machine.performInto arguments input (table.action current (some token.symbol))
  | none, [] => machine.performInto arguments [] (table.action current none)
  | none, .error message :: input => (.stop (.error (.lexer message)) machine input, arguments)
  | none, .ok token :: input =>
      { machine with peeked := some token }.performInto arguments input
        (table.action current (some token.symbol))

/-- A step with the caller's vector at hand. -/
def stepInto (table : ActionTable σ Symbol ρ) (machine : Machine σ Symbol)
    (arguments : List (Item Symbol)) (input : Input Symbol) :
    Step σ Symbol ρ × List (Item Symbol) :=
  match machine.phase, machine.states with
  | .accepted, _ => (.stop (.error .alreadyAccepted) machine input, arguments)
  | _, [] => (.stop (.error .emptyStateStack) machine input, arguments)
  | .pendingGoto, current :: _ =>
      match machine.items with
      | [] => (.stop (.error .emptyItemStack) machine input, arguments)
      | top :: _ => machine.performInto arguments input (table.action current (some top.symbol))
  | .reading, current :: _ => machine.readInto table current arguments input

/-- The vector makes no difference to what is done. -/
theorem fst_stepInto (table : ActionTable σ Symbol ρ) (machine : Machine σ Symbol)
    (arguments : List (Item Symbol)) (input : Input Symbol) :
    (machine.stepInto table arguments input).1 = machine.step table input := by
  obtain ⟨states, items, phase, peeked⟩ := machine
  cases phase with
  | accepted => rfl
  | pendingGoto => cases states <;> cases items <;> rfl
  | reading =>
      rcases states with _ | ⟨current, below⟩
      · rfl
      · rcases peeked with _ | token
        · rcases input with _ | ⟨_ | token, rest⟩ <;> rfl
        · rfl

/-- Call a machine: run it until there is something to report. -/
def nextInto (table : ActionTable σ Symbol ρ) (machine : Machine σ Symbol)
    (arguments : List (Item Symbol)) (input : Input Symbol) :
    Result Symbol ρ × Machine σ Symbol × Input Symbol × List (Item Symbol) :=
  match stepped : machine.stepInto table arguments input with
  | (.stop result machine input, arguments) => (result, machine, input, arguments)
  | (.next machine' input', arguments) =>
      have : machine'.work input' < machine.work input :=
        work_lt_of_step ((fst_stepInto table machine _ input).symm.trans (congrArg Prod.fst stepped))
      nextInto table machine' arguments input'
termination_by machine.work input

end Machine

/-- What a caller sees after a call. -/
structure Observation (σ Symbol ρ : Type) where
  result : Result Symbol ρ
  arguments : List (Item Symbol)
  state : Option σ
  expected : List Symbol
  read : Nat

/-- Whether a parse goes on after a result without being told to. -/
def goesOn {Symbol ρ : Type} : Result Symbol ρ → Bool
  | .ok (.reduce _ _) => true
  | _ => false

namespace Machine

variable {σ Symbol ρ : Type}

/-- Call a machine up to `calls` times on an input of which `total` elements were there in the
beginning, always with the same vector.  Unless told to keep going, the session ends with acceptance
or the first failure. -/
def observe (table : ActionTable σ Symbol ρ) (keepGoing : Bool) (total : Nat) :
    (calls : Nat) → List (Item Symbol) → Machine σ Symbol → Input Symbol →
      List (Observation σ Symbol ρ)
  | 0, _, _, _ => []
  | calls + 1, arguments, machine, input =>
      let (result, machine, input, arguments) := machine.nextInto table arguments input
      let seen : Observation σ Symbol ρ := {
        result, arguments
        state := machine.state?
        expected := machine.expected table
        read := total - input.length }
      seen :: if keepGoing || goesOn result then
        observe table keepGoing total calls arguments machine input
      else
        []

/-- The session of a machine that starts with the whole input, and of a caller that starts with an
empty vector. -/
def session (table : ActionTable σ Symbol ρ) (keepGoing : Bool) (calls : Nat)
    (input : Input Symbol) : List (Observation σ Symbol ρ) :=
  observe table keepGoing input.length calls [] (start table) input

end Machine

end Lalr.Parser
