import Lalr.Parser.Machine

/-!
# What a step does

An answer of the table is performed in one of eight ways, and a step either fails at once or peeks at
a token and performs an answer.  The cases are listed here with all that is known in each of them, so
that facts about steps need not look into the machine.  A run takes steps until one has something to
report.
-/

namespace Lalr.Parser.Machine

variable {σ Symbol ρ : Type}

/-- What an answer leads to. -/
inductive Performs (machine : Machine σ Symbol) (input : Input Symbol) :
    Response σ Symbol ρ → Step σ Symbol ρ → Prop
  | goto {target : σ} (pending : machine.phase = .pendingGoto) :
      Performs machine input (.shift target)
        (.next { machine with states := target :: machine.states, phase := .reading } input)
  | shift {target : σ} {token : Token Symbol} (settled : machine.phase ≠ .pendingGoto)
      (peeked : machine.peeked = some token) :
      Performs machine input (.shift target)
        (.next ⟨target :: machine.states, .token token :: machine.items, .reading, none⟩ input)
  | ended {target : σ} (settled : machine.phase ≠ .pendingGoto) (unpeeked : machine.peeked = none) :
      Performs machine input (.shift target) (.stop (.error .unexpectedEnd) machine input)
  | reduce {mark : ρ} {left : Symbol} {length : Nat} (items : length ≤ machine.items.length)
      (states : length < machine.states.length) :
      Performs machine input (.reduce mark left length)
        (.stop (.ok (.reduce mark (machine.items.take length).reverse))
          { machine with
            states := machine.states.drop length
            items := .node left :: machine.items.drop length
            phase := .pendingGoto }
          input)
  | short {mark : ρ} {left : Symbol} {length : Nat}
      (short : machine.items.length < length ∨ machine.states.length ≤ length) :
      Performs machine input (.reduce mark left length)
        (.stop (.error .emptyItemStack) machine input)
  | accept {top : Item Symbol} {items : List (Item Symbol)} (stacked : machine.items = top :: items) :
      Performs machine input .accept
        (.stop (.ok (.accept top)) { machine with items, phase := .accepted } input)
  | bare (bare : machine.items = []) :
      Performs machine input .accept (.stop (.error .emptyItemStack) machine input)
  | refuse {reason : Refusal} :
      Performs machine input (.refuse reason) (.stop (.error (.refused reason)) machine input)

theorem performs (machine : Machine σ Symbol) (input : Input Symbol) (response : Response σ Symbol ρ) :
    Performs machine input response (machine.perform input response) := by
  cases response with
  | shift target =>
      simp only [perform]
      split
      · next pending => exact .goto pending
      · next peeked settled => exact .shift settled peeked
      · next unpeeked settled => exact .ended settled unpeeked
  | reduce mark left length =>
      simp only [perform]
      split
      · next short => exact .short short
      · next enough =>
          rw [not_or, Nat.not_lt, Nat.not_le] at enough
          exact .reduce enough.1 enough.2
  | accept =>
      simp only [perform]
      split
      · next bare => exact .bare bare
      · next stacked => exact .accept stacked
  | refuse reason => exact .refuse

/-- What a step leads to. -/
inductive Steps (table : ActionTable σ Symbol ρ) (machine : Machine σ Symbol) :
    Input Symbol → Step σ Symbol ρ → Prop
  | accepted {input : Input Symbol} (accepted : machine.phase = .accepted) :
      Steps table machine input (.stop (.error .alreadyAccepted) machine input)
  | stateless {input : Input Symbol} (unaccepted : machine.phase ≠ .accepted)
      (stateless : machine.states = []) :
      Steps table machine input (.stop (.error .emptyStateStack) machine input)
  | bare {input : Input Symbol} {current : σ} {below : List σ}
      (pending : machine.phase = .pendingGoto) (states : machine.states = current :: below)
      (bare : machine.items = []) :
      Steps table machine input (.stop (.error .emptyItemStack) machine input)
  | goto {input : Input Symbol} {current : σ} {below : List σ} {top : Item Symbol}
      {items : List (Item Symbol)} {after : Step σ Symbol ρ}
      (pending : machine.phase = .pendingGoto) (states : machine.states = current :: below)
      (stacked : machine.items = top :: items)
      (performs : Performs machine input (table.action current (some top.symbol)) after) :
      Steps table machine input after
  | peeked {input : Input Symbol} {current : σ} {below : List σ} {token : Token Symbol}
      {after : Step σ Symbol ρ} (reading : machine.phase = .reading)
      (states : machine.states = current :: below) (peeked : machine.peeked = some token)
      (performs : Performs machine input (table.action current (some token.symbol)) after) :
      Steps table machine input after
  | ended {current : σ} {below : List σ} {after : Step σ Symbol ρ}
      (reading : machine.phase = .reading) (states : machine.states = current :: below)
      (unpeeked : machine.peeked = none)
      (performs : Performs machine [] (table.action current none) after) :
      Steps table machine [] after
  | interrupted {input : Input Symbol} {current : σ} {below : List σ} {message : String}
      (reading : machine.phase = .reading) (states : machine.states = current :: below)
      (unpeeked : machine.peeked = none) :
      Steps table machine (.error message :: input)
        (.stop (.error (.lexer message)) machine input)
  | peek {input : Input Symbol} {current : σ} {below : List σ} {token : Token Symbol}
      {after : Step σ Symbol ρ} (reading : machine.phase = .reading)
      (states : machine.states = current :: below) (unpeeked : machine.peeked = none)
      (performs : Performs { machine with peeked := some token } input
        (table.action current (some token.symbol)) after) :
      Steps table machine (.ok token :: input) after

theorem steps (table : ActionTable σ Symbol ρ) (machine : Machine σ Symbol) (input : Input Symbol) :
    Steps table machine input (machine.step table input) := by
  obtain ⟨states, items, phase, peeked⟩ := machine
  cases phase with
  | accepted => exact .accepted rfl
  | pendingGoto =>
      rcases states with _ | ⟨current, below⟩
      · exact .stateless Phase.noConfusion rfl
      · rcases items with _ | ⟨top, items⟩
        · exact .bare rfl rfl rfl
        · exact .goto rfl rfl rfl (performs ..)
  | reading =>
      rcases states with _ | ⟨current, below⟩
      · exact .stateless Phase.noConfusion rfl
      · rcases peeked with _ | token
        · rcases input with _ | ⟨message | token, rest⟩
          · exact .ended rfl rfl rfl (performs ..)
          · exact .interrupted rfl rfl rfl
          · exact .peek rfl rfl rfl (performs ..)
        · exact .peeked rfl rfl rfl (performs ..)

/-! ## Runs -/

variable {table : ActionTable σ Symbol ρ} {machine machine' : Machine σ Symbol}
  {input input' : Input Symbol}

theorem next_of_silent (silent : machine.step table input = .next machine' input') :
    machine.next table input = machine'.next table input' := by
  rw [next]
  split
  · next stopped =>
      rw [silent] at stopped
      cases stopped
  · next again =>
      rw [silent] at again
      cases again
      rfl

theorem next_of_stop {result : Result Symbol ρ}
    (stopped : machine.step table input = .stop result machine' input') :
    machine.next table input = (result, machine', input') := by
  rw [next]
  split
  · next again =>
      rw [stopped] at again
      cases again
      rfl
  · next silent =>
      rw [stopped] at silent
      cases silent

end Lalr.Parser.Machine
