/-!
# The shift-reduce machine

A parser is driven by a table of actions.  It asks for the action of a state on a symbol, or on the
end of input, and is told to shift, to reduce, to accept or that the symbol is refused.  A
nonterminal is asked about right after a reduction, and a shift then names the state to go on in.
The states, the symbols and the marks by which reductions are known may be of any type.

The parser is a machine.  It has a stack of states and a stack of items, and may have peeked at one
token.  It runs on a list of tokens, among which there may be errors of the lexer, until there is an
event to report: a reduction, acceptance or a failure.  It is then run again for the next event.

After a reduction the machine first has to find the state that the new nonterminal leads to; this is
put off until the machine is run again.
-/

namespace Lalr.Parser

inductive Refusal where
  | incorrectState
  | unexpectedSymbol
  deriving DecidableEq, Inhabited

inductive Response (σ Symbol ρ : Type) where
  /-- Push the symbol and go on in the target state. -/
  | shift (target : σ)
  /-- Replace the last `length` items by the symbol `left`. -/
  | reduce (mark : ρ) (left : Symbol) (length : Nat)
  | accept
  | refuse (reason : Refusal)
  deriving DecidableEq, Inhabited

/-- A table of actions. -/
structure ActionTable (σ Symbol ρ : Type) where
  initial : σ
  /-- The action on a symbol, or on the end of input if there is none. -/
  action : σ → Option Symbol → Response σ Symbol ρ
  /-- The terminals with an action of their own. -/
  expected : σ → List Symbol

/-- A token: a symbol and the text it stands for. -/
structure Token (Symbol : Type) where
  symbol : Symbol
  text : String
  deriving DecidableEq, Inhabited

/-- An entry of the item stack: a token that was shifted, or a symbol that was reduced to. -/
inductive Item (Symbol : Type) where
  | token (token : Token Symbol)
  | node (symbol : Symbol)
  deriving DecidableEq, Inhabited

def Item.symbol {Symbol : Type} : Item Symbol → Symbol
  | .token shifted => shifted.symbol
  | .node symbol => symbol

/-- What a machine does next. -/
inductive Phase where
  | reading
  /-- Find the state that the symbol of the last reduction leads to. -/
  | pendingGoto
  /-- Nothing; the input has been accepted. -/
  | accepted
  deriving DecidableEq, Inhabited

/-- A machine.  Both stacks have their top first. -/
structure Machine (σ Symbol : Type) where
  states : List σ
  items : List (Item Symbol)
  phase : Phase
  peeked : Option (Token Symbol)
  deriving DecidableEq, Inhabited

/-- What has happened, with the items concerned in the order of the input. -/
inductive Event (Symbol ρ : Type) where
  | reduce (mark : ρ) (arguments : List (Item Symbol))
  | accept (argument : Item Symbol)
  deriving DecidableEq, Inhabited

def Event.arguments {Symbol ρ : Type} : Event Symbol ρ → List (Item Symbol)
  | .reduce _ arguments => arguments
  | .accept argument => [argument]

inductive Failure where
  | lexer (message : String)
  | refused (reason : Refusal)
  | unexpectedEnd
  | alreadyAccepted
  | emptyStateStack
  | emptyItemStack
  deriving DecidableEq, Inhabited

def Refusal.words : Refusal → String
  | .incorrectState => "incorrect state"
  | .unexpectedSymbol => "unexpected symbol"

def Failure.message : Failure → String
  | .lexer message => s!"from lexer: {message}"
  | .refused reason => s!"syntax error: {reason.words}"
  | .unexpectedEnd => "unexpected end of input"
  | .alreadyAccepted => "the input has already been accepted"
  | .emptyStateStack => "empty state stack"
  | .emptyItemStack => "empty item stack"

/-- What is left to read: tokens and errors of the lexer.  After the list the input has ended for
good. -/
abbrev Input (Symbol : Type) := List (Except String (Token Symbol))

abbrev Result (Symbol ρ : Type) := Except Failure (Event Symbol ρ)

/-- What one step of a machine leads to. -/
inductive Step (σ Symbol ρ : Type) where
  | next (machine : Machine σ Symbol) (input : Input Symbol)
  | stop (result : Result Symbol ρ) (machine : Machine σ Symbol) (input : Input Symbol)

namespace Machine

variable {σ Symbol ρ : Type}

def start (table : ActionTable σ Symbol ρ) : Machine σ Symbol :=
  ⟨[table.initial], [], .reading, none⟩

def state? (machine : Machine σ Symbol) : Option σ := machine.states.head?

/-- The terminals with an action in the current state. -/
def expected (table : ActionTable σ Symbol ρ) (machine : Machine σ Symbol) : List Symbol :=
  (machine.state?.map table.expected).getD []

/-- Do what the table has answered. -/
def perform (machine : Machine σ Symbol) (input : Input Symbol) :
    Response σ Symbol ρ → Step σ Symbol ρ
  | .shift target =>
      match machine.phase, machine.peeked with
      | .pendingGoto, _ =>
          .next { machine with states := target :: machine.states, phase := .reading } input
      | _, some token =>
          .next
            { states := target :: machine.states
              items := .token token :: machine.items
              phase := .reading
              peeked := none }
            input
      | _, none => .stop (.error .unexpectedEnd) machine input
  | .reduce mark left length =>
      if machine.items.length < length ∨ machine.states.length ≤ length then
        .stop (.error .emptyItemStack) machine input
      else
        .stop (.ok (.reduce mark (machine.items.take length).reverse))
          { machine with
            states := machine.states.drop length
            items := .node left :: machine.items.drop length
            phase := .pendingGoto }
          input
  | .accept =>
      match machine.items with
      | [] => .stop (.error .emptyItemStack) machine input
      | top :: items =>
          .stop (.ok (.accept top)) { machine with items, phase := .accepted } input
  | .refuse reason => .stop (.error (.refused reason)) machine input

/-- Ask the table in state `current` about the next token, and do what it answers. -/
def read (table : ActionTable σ Symbol ρ) (current : σ) (machine : Machine σ Symbol)
    (input : Input Symbol) : Step σ Symbol ρ :=
  match machine.peeked, input with
  | some token, input => machine.perform input (table.action current (some token.symbol))
  | none, [] => machine.perform [] (table.action current none)
  | none, .error message :: input => .stop (.error (.lexer message)) machine input
  | none, .ok token :: input =>
      { machine with peeked := some token }.perform input
        (table.action current (some token.symbol))

def step (table : ActionTable σ Symbol ρ) (machine : Machine σ Symbol) (input : Input Symbol) :
    Step σ Symbol ρ :=
  match machine.phase, machine.states with
  | .accepted, _ => .stop (.error .alreadyAccepted) machine input
  | _, [] => .stop (.error .emptyStateStack) machine input
  | .pendingGoto, current :: _ =>
      match machine.items with
      | [] => .stop (.error .emptyItemStack) machine input
      | top :: _ => machine.perform input (table.action current (some top.symbol))
  | .reading, current :: _ => machine.read table current input

/-- An upper bound for the number of further steps without anything to report. -/
def work (machine : Machine σ Symbol) (input : Input Symbol) : Nat :=
  (if machine.phase = .pendingGoto then 1 else 0) + machine.peeked.toList.length + input.length

/-- A performed shift uses up a pending goto or the peeked token. -/
theorem work_lt_of_perform {machine machine' : Machine σ Symbol} {input input' : Input Symbol}
    {response : Response σ Symbol ρ}
    (performed : machine.perform input response = .next machine' input') :
    machine'.work input' < machine.work input := by
  cases response with
  | shift target =>
      simp only [perform] at performed
      split at performed
      · next pending =>
          cases performed
          simp [work, pending]
      · next peeked _ =>
          cases performed
          simp [work, peeked]
      · cases performed
  | reduce mark left length =>
      simp only [perform] at performed
      split at performed <;> cases performed
  | accept =>
      simp only [perform] at performed
      split at performed <;> cases performed
  | refuse reason => cases performed

theorem work_lt_of_step {table : ActionTable σ Symbol ρ} {machine machine' : Machine σ Symbol}
    {input input' : Input Symbol} (stepped : machine.step table input = .next machine' input') :
    machine'.work input' < machine.work input := by
  simp only [step] at stepped
  split at stepped
  · cases stepped
  · cases stepped
  · split at stepped
    · cases stepped
    · exact work_lt_of_perform stepped
  · simp only [read] at stepped
    split at stepped
    · exact work_lt_of_perform stepped
    · exact work_lt_of_perform stepped
    · cases stepped
    · next token rest peeked =>
        have less := work_lt_of_perform stepped
        simp only [work, peeked, Option.toList, List.length_cons, List.length_nil] at less ⊢
        omega

/-- Run a machine until there is something to report. -/
def next (table : ActionTable σ Symbol ρ) (machine : Machine σ Symbol) (input : Input Symbol) :
    Result Symbol ρ × Machine σ Symbol × Input Symbol :=
  match stepped : machine.step table input with
  | .stop result machine input => (result, machine, input)
  | .next machine' input' =>
      have : machine'.work input' < machine.work input := work_lt_of_step stepped
      next table machine' input'
termination_by machine.work input

end Machine

end Lalr.Parser
