import Lalr.Proofs.Parser.Run

/-!
# What waits in front of a machine

Runs only take away from what waits: tokens as they are shifted, and errors of the lexer as they are
reported.  A step looks at no more than the first of what waits, so what comes later can be left out
when a step is described; and it looks at the input only when it has to ask for a token.
-/

namespace Lalr.Parser

namespace Step

variable {σ Symbol ρ : Type}

/-- What waits after the step. -/
def pending : Step σ Symbol ρ → Input Symbol
  | .next machine input | .stop _ machine input => machine.pending input

/-- What is left of the input after a step. -/
def rest : Step σ Symbol ρ → Input Symbol
  | .next _ input | .stop _ _ input => input

/-- The step with more input behind. -/
def followedBy (more : Input Symbol) : Step σ Symbol ρ → Step σ Symbol ρ
  | .next machine input => .next machine (input ++ more)
  | .stop result machine input => .stop result machine (input ++ more)

end Step

namespace Machine

variable {σ Symbol ρ : Type} {table : ActionTable σ Symbol ρ} {machine machine' : Machine σ Symbol}
  {input input' : Input Symbol}

theorem Performs.pending {response : Response σ Symbol ρ} {after : Step σ Symbol ρ}
    (performs : Performs machine input response after) : after.pending <:+ machine.pending input := by
  cases performs with
  | shift _ peeked =>
      simp only [Step.pending, Machine.pending, Option.toList, List.map_nil, List.nil_append]
      exact List.suffix_append _ _
  | _ => exact List.suffix_refl _

theorem pending_step {after : Step σ Symbol ρ} (stepped : machine.step table input = after) :
    after.pending <:+ machine.pending input := by
  have steps := machine.steps table input
  rw [stepped] at steps
  cases steps with
  | goto _ _ _ performs => exact performs.pending
  | peeked _ _ _ performs => exact performs.pending
  | ended _ _ _ performs => exact performs.pending
  | interrupted _ _ unpeeked =>
      simp only [Step.pending, pending, unpeeked, Option.toList, List.map_nil, List.nil_append]
      exact List.suffix_cons _ _
  | peek _ _ unpeeked performs =>
      refine performs.pending.trans ?_
      simp [pending, unpeeked]
  | _ => exact List.suffix_refl _

/-- What waits after some runs has been waiting before. -/
theorem pending_runs {count : Nat} {results : List (Result Symbol ρ)}
    (ran : runs table count machine input = (results, machine', input')) :
    machine'.pending input' <:+ machine.pending input := by
  induction count generalizing results machine' input' with
  | zero =>
      cases ran
      exact List.suffix_refl _
  | succ count ih =>
      rcases earlier : runs table count machine input with ⟨before, middle, left⟩
      rcases next : middle.next table left with ⟨result, after, remaining⟩
      rw [runs_succ earlier, next] at ran
      cases ran
      obtain ⟨last, rest, kept, stopped⟩ := exists_stop next
        (fun last rest => last.pending rest <:+ machine.pending input)
        (fun _ _ _ _ kept stepped => (pending_step stepped).trans kept) (ih earlier)
      exact (pending_step stopped).trans kept

/-! ## More input behind -/

theorem perform_append (more : Input Symbol) (response : Response σ Symbol ρ) :
    machine.perform (input ++ more) response =
      (machine.perform input response).followedBy more := by
  cases response with
  | shift target =>
      simp only [perform]
      split <;> rfl
  | reduce mark left length =>
      simp only [perform]
      split <;> rfl
  | accept =>
      simp only [perform]
      split <;> rfl
  | refuse reason => rfl

/-- A step looks at no more than the first of what waits. -/
theorem step_append {first more : Input Symbol} (whole : input = first ++ more)
    (enough : machine.phase = .reading → machine.pending first ≠ [] ∨ more = []) :
    machine.step table input = (machine.step table first).followedBy more := by
  subst whole
  simp only [step]
  split
  · rfl
  · rfl
  · split
    · rfl
    · exact perform_append more _
  · next reading _ =>
      simp only [read]
      cases peeked : machine.peeked with
      | some token => exact perform_append more _
      | none =>
          cases first with
          | nil =>
              obtain waits | rfl := enough reading
              · simp [pending, peeked] at waits
              · exact @perform_append _ _ _ machine [] [] _
          | cons head rest =>
              cases head with
              | error message => rfl
              | ok token => exact perform_append more _

/-- A step reports an error of the lexer, or looks at tokens only. -/
theorem step_looks (table : ActionTable σ Symbol ρ) (machine : Machine σ Symbol)
    (input : Input Symbol) :
    (∃ message rest, machine.step table input = .stop (.error (.lexer message)) machine rest) ∨
      ∃ (tokens : List (Token Symbol)) (first more : Input Symbol),
        machine.pending first = tokens.map .ok ∧
          machine.step table input = (machine.step table first).followedBy more := by
  obtain ⟨states, items, phase, peeked⟩ := machine
  cases peeked with
  | some token =>
      exact .inr ⟨[token], [], input, rfl, step_append rfl fun _ => .inl (by simp [pending])⟩
  | none =>
      cases input with
      | nil => exact .inr ⟨[], [], [], rfl, step_append rfl fun _ => .inr rfl⟩
      | cons first rest =>
          cases first with
          | ok token =>
              exact .inr ⟨[token], [.ok token], rest, rfl,
                step_append rfl fun _ => .inl (by simp [pending])⟩
          | error message =>
              by_cases reading : phase = .reading
              · subst reading
                cases states with
                | nil => exact .inr ⟨[], [], .error message :: rest, rfl, rfl⟩
                | cons current below => exact .inl ⟨message, rest, rfl⟩
              · exact .inr ⟨[], [], .error message :: rest, rfl,
                  step_append rfl fun again => absurd again reading⟩

/-! ## What a step takes of the input -/

/-- Whether the next step asks for a token. -/
def asks (machine : Machine σ Symbol) : Bool :=
  machine.phase = .reading && machine.peeked.isNone && !machine.states.isEmpty

theorem Performs.rest {response : Response σ Symbol ρ} {after : Step σ Symbol ρ}
    (performs : Performs machine input response after) : after.rest = input := by
  cases performs <;> rfl

/-- A step takes the first of the input if it asks for a token, and nothing otherwise. -/
theorem rest_step (table : ActionTable σ Symbol ρ) (machine : Machine σ Symbol)
    (input : Input Symbol) :
    (machine.step table input).rest = if machine.asks then input.tail else input := by
  have steps := machine.steps table input
  generalize machine.step table input = after at steps ⊢
  cases steps with
  | accepted accepted => simp [asks, accepted, Step.rest]
  | stateless _ stateless => simp [asks, stateless, Step.rest]
  | bare pending _ _ => simp [asks, pending, Step.rest]
  | goto pending _ _ performs => simp [asks, pending, performs.rest]
  | peeked _ _ peeked performs => simp [asks, peeked, performs.rest]
  | ended _ _ _ performs => simp [performs.rest]
  | interrupted reading states unpeeked => simp [asks, reading, states, unpeeked, Step.rest]
  | peek reading states unpeeked performs => simp [asks, reading, states, unpeeked, performs.rest]

/-- Only what a step takes of the input makes a difference to it. -/
theorem step_first (table : ActionTable σ Symbol ρ) (machine : Machine σ Symbol)
    (input : Input Symbol) :
    machine.step table input =
      (machine.step table (if machine.asks then input.head?.toList else [])).followedBy
        (if machine.asks then input.tail else input) := by
  cases asking : machine.asks with
  | true =>
      refine step_append (by cases input <;> rfl) ?_
      intro _
      cases input with
      | nil => exact .inr rfl
      | cons first more => exact .inl (by simp [pending])
  | false =>
      obtain ⟨states, items, phase, peeked⟩ := machine
      rcases states with _ | ⟨current, below⟩
      · cases phase <;> rfl
      · refine step_append rfl ?_
        rintro rfl
        cases peeked with
        | none => cases asking
        | some token => exact .inl (by simp [pending])

end Machine

end Lalr.Parser
