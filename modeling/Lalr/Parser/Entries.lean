import Lalr.Parser.Machine

/-!
# Tables written out by hand

A table may be given by a list of entries.  For a state and a lookahead the first entry with exactly
that lookahead counts; failing that, the first entry of the state for any lookahead.  What no entry
covers is refused.
-/

namespace Lalr.Parser

/-- What an entry asks of the lookahead. -/
inductive Look (Symbol : Type) where
  | exactly (symbol : Symbol)
  | endOfInput
  | anything
  deriving DecidableEq, Inhabited

/-- Whether a lookahead is exactly what an entry asks for. -/
def Look.isExactly {Symbol : Type} [DecidableEq Symbol] (look : Look Symbol) :
    Option Symbol → Bool
  | some symbol => look = .exactly symbol
  | none => look = .endOfInput

structure Entry (σ Symbol ρ : Type) where
  state : σ
  look : Look Symbol
  response : Response σ Symbol ρ

/-- The table with the given entries and lists of expected symbols. -/
def ActionTable.ofEntries {σ Symbol ρ : Type} [DecidableEq σ] [DecidableEq Symbol] (initial : σ)
    (entries : List (Entry σ Symbol ρ)) (expected : List (σ × List Symbol)) :
    ActionTable σ Symbol ρ where
  initial := initial
  action state lookahead :=
    let ofState := entries.filter (·.state = state)
    match ofState.find? (·.look.isExactly lookahead) with
    | some entry => entry.response
    | none =>
        match ofState.find? (·.look = .anything) with
        | some entry => entry.response
        | none => .refuse .unexpectedSymbol
  expected state := (expected.lookup state).getD []

end Lalr.Parser
