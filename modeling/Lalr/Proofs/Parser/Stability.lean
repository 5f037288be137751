import Lalr.Parser.Entries
import Lalr.Proofs.Parser.Source
import Lalr.Proofs.Parser.Transcript

/-!
# Failures are for good

A call that fails may have done a goto and shifted tokens before, and it fails while it reads, at the
end of input or with a goto pending.  In all these cases the step that fails leaves a machine that
fails in the same way in its first step: a token that it has peeked at stays peeked at, and the end of
an input that has ended for good is met again.  So the failure repeats itself for ever, and so does
the refusal to go on after acceptance.  Only errors of the lexer pass.
-/

namespace Lalr.Parser

/-- Once the input has ended, it has ended for good. -/
def Source.Fused {Symbol : Type} (source : Source Symbol) : Prop :=
  ∀ request, source request = none → source (request + 1) = none

theorem Source.fused_ofInput {Symbol : Type} (input : Input Symbol) : (ofInput input).Fused := by
  intro request ended
  exact List.getElem?_eq_none_iff.2
    (Nat.le_trans (List.getElem?_eq_none_iff.1 ended) (Nat.le_succ _))

namespace Machine

variable {σ Symbol ρ : Type} {table : ActionTable σ Symbol ρ} {source : Source Symbol}
  {machine machine' : Machine σ Symbol} {input rest : Input Symbol} {place place' : Nat}
  {arguments arguments' : List (Item Symbol)} {failure : Failure}

/-- A call that takes its tokens from a source and is handed a vector for the arguments, which goes
through its steps. -/
inductive CallInto (table : ActionTable σ Symbol ρ) (source : Source Symbol) :
    Machine σ Symbol → Nat → List (Item Symbol) → Result Symbol ρ →
      Machine σ Symbol → Nat → List (Item Symbol) → Prop
  | silent {machine middle last : Machine σ Symbol} {place place' : Nat} {rest : Input Symbol}
      {arguments kept arguments' : List (Item Symbol)} {result : Result Symbol ρ}
      (stepped : machine.stepInto table arguments (machine.offered source place) =
        (.next middle rest, kept))
      (later : CallInto table source middle (machine.placeAfter place) kept result last place'
        arguments') :
      CallInto table source machine place arguments result last place' arguments'
  | stop {machine last : Machine σ Symbol} {place : Nat} {rest : Input Symbol}
      {arguments arguments' : List (Item Symbol)} {result : Result Symbol ρ}
      (stepped : machine.stepInto table arguments (machine.offered source place) =
        (.stop result last rest, arguments')) :
      CallInto table source machine place arguments result last (machine.placeAfter place)
        arguments'

/-- Calls one after another, with their results, all handed the same vector. -/
inductive Calls (table : ActionTable σ Symbol ρ) (source : Source Symbol) :
    Machine σ Symbol → Nat → List (Item Symbol) → List (Result Symbol ρ) →
      Machine σ Symbol → Nat → List (Item Symbol) → Prop
  | done {machine : Machine σ Symbol} {place : Nat} {arguments : List (Item Symbol)} :
      Calls table source machine place arguments [] machine place arguments
  | call {machine middle last : Machine σ Symbol} {place between place' : Nat}
      {arguments kept arguments' : List (Item Symbol)} {result : Result Symbol ρ}
      {results : List (Result Symbol ρ)}
      (first : CallInto table source machine place arguments result middle between kept)
      (later : Calls table source middle between kept results last place' arguments') :
      Calls table source machine place arguments (result :: results) last place' arguments'

/-- However often the machine is called, it fails in the same way, neither the machine nor the
caller's vector changes, and a request for a token is answered with the end of input. -/
structure FailsForEver (table : ActionTable σ Symbol ρ) (source : Source Symbol) (failure : Failure)
    (machine : Machine σ Symbol) (place : Nat) (arguments : List (Item Symbol)) : Prop where
  fails : ∀ count, ∃ place', Calls table source machine place arguments
    (List.replicate count (.error failure)) machine place' arguments
  alike : ∀ results machine' place' arguments',
    Calls table source machine place arguments results machine' place' arguments' →
      results = List.replicate results.length (.error failure) ∧ machine' = machine ∧
        arguments' = arguments ∧ ∀ request, place ≤ request → request < place' → source request = none

/-! ## One step -/

theorem offered_of_unasked (unasked : machine.asks = false) :
    machine.offered source place = [] := by
  rw [offered, unasked]
  rfl

theorem offered_eq_nil :
    machine.offered source place = [] ↔ (machine.asks = true → source place = none) := by
  rw [offered]
  cases machine.asks with
  | true => simp
  | false => simp

/-- Nothing is offered at the end of input, and nothing later. -/
theorem offered_placeAfter (fused : source.Fused) (ended : machine.offered source place = []) :
    machine.offered source (machine.placeAfter place) = [] := by
  rw [offered_eq_nil] at ended ⊢
  intro asking
  rw [placeAfter, if_pos asking]
  exact fused place (ended asking)

/-- The next step fails without a token and leaves the machine as it is. -/
structure Stuck (table : ActionTable σ Symbol ρ) (source : Source Symbol) (failure : Failure)
    (machine : Machine σ Symbol) (place : Nat) : Prop where
  fails : machine.step table [] = .stop (.error failure) machine []
  ended : machine.offered source place = []

theorem Stuck.again (stuck : Stuck table source failure machine place) (fused : source.Fused) :
    Stuck table source failure machine (machine.placeAfter place) :=
  ⟨stuck.fails, offered_placeAfter fused stuck.ended⟩

theorem Performs.of_failure {response : Response σ Symbol ρ}
    (performs : Performs machine input response (.stop (.error failure) machine' rest)) :
    machine' = machine ∧ rest = input := by
  cases performs <;> exact ⟨rfl, rfl⟩

/-- A step that fails changes nothing, unless it peeks at a token.  Then the next step does the same
with the peeked token. -/
theorem step_of_failure
    (stopped : machine.step table input = .stop (.error failure) machine' [])
    (unlexed : ∀ message, failure ≠ .lexer message) :
    machine' = machine ∧ (machine.asks = true → input = []) ∨
      machine'.asks = false ∧ machine'.step table [] = .stop (.error failure) machine' [] := by
  have steps := machine.steps table input
  rw [stopped] at steps
  cases steps with
  | accepted accepted => exact .inl ⟨rfl, by simp [asks, accepted]⟩
  | stateless _ stateless => exact .inl ⟨rfl, by simp [asks, stateless]⟩
  | bare pending => exact .inl ⟨rfl, by simp [asks, pending]⟩
  | goto pending _ _ performs => exact .inl ⟨performs.of_failure.1, by simp [asks, pending]⟩
  | peeked _ _ peeked performs => exact .inl ⟨performs.of_failure.1, by simp [asks, peeked]⟩
  | ended _ _ _ performs => exact .inl ⟨performs.of_failure.1, fun _ => rfl⟩
  | @interrupted _ _ _ message => exact absurd rfl (unlexed message)
  | peek reading states unpeeked performs =>
      obtain ⟨_, _, _, _⟩ := machine
      cases reading
      cases states
      cases unpeeked
      obtain ⟨rfl, rfl⟩ := performs.of_failure
      exact .inr ⟨rfl, stopped⟩

theorem stuck_of_stop (fused : source.Fused)
    (stopped : machine.step table (machine.offered source place) =
      .stop (.error failure) machine' rest)
    (unlexed : ∀ message, failure ≠ .lexer message) :
    Stuck table source failure machine' (machine.placeAfter place) := by
  have taken := rest_step_offered table machine source place
  rw [stopped] at taken
  cases taken
  rcases step_of_failure stopped unlexed with ⟨rfl, empty⟩ | ⟨unasked, stopped⟩
  · have ended : machine'.offered source place = [] := by
      cases asking : machine'.asks with
      | true => exact empty asking
      | false => exact offered_of_unasked asking
    rw [ended] at stopped
    exact ⟨stopped, offered_placeAfter fused ended⟩
  · exact ⟨stopped, offered_of_unasked unasked⟩

/-! ## Calls -/

/-- The vector does not matter to a call.  It is filled in the last step, if an event is reported. -/
theorem callInto_iff {result : Result Symbol ρ} :
    CallInto table source machine place arguments result machine' place' arguments' ↔
      Call table source machine place result machine' place' ∧
        arguments' = argumentsAfter arguments result := by
  constructor
  · intro into
    induction into with
    | silent stepped later ih =>
        rw [stepInto_eq, Prod.mk.injEq] at stepped
        obtain ⟨silent, rfl⟩ := stepped
        rw [silent] at ih
        exact ⟨.silent silent ih.1, ih.2⟩
    | stop stepped =>
        rw [stepInto_eq, Prod.mk.injEq] at stepped
        obtain ⟨stopped, rfl⟩ := stepped
        rw [stopped]
        exact ⟨.stop stopped, rfl⟩
  · rintro ⟨call, rfl⟩
    induction call with
    | silent silent _ ih => exact .silent (stepInto_of_silent silent arguments) ih
    | stop stopped => exact .stop (stepInto_of_stop stopped arguments)

/-- A failure that is not due to the lexer leaves a machine that is stuck. -/
theorem Call.stuck (fused : source.Fused)
    (call : Call table source machine place (.error failure) machine' place')
    (unlexed : ∀ message, failure ≠ .lexer message) :
    Stuck table source failure machine' place' := by
  generalize failed : (.error failure : Result Symbol ρ) = result at call
  induction call with
  | silent _ _ ih => exact ih failed
  | stop stopped =>
      cases failed
      exact stuck_of_stop fused stopped unlexed

/-- Acceptance leaves a machine that is stuck as well. -/
theorem Call.stuck_of_accept {argument : Item Symbol}
    (call : Call table source machine place (.ok (.accept argument)) machine' place') :
    Stuck table source .alreadyAccepted machine' place' := by
  obtain ⟨_, last, _, turn⟩ := call.exists_turn
  cases turn with
  | accept current answered stacked => exact ⟨rfl, offered_of_unasked rfl⟩

/-- A stuck machine can be called, -/
theorem Stuck.call (stuck : Stuck table source failure machine place) :
    Call table source machine place (.error failure) machine (machine.placeAfter place) :=
  .stop (by rw [stuck.ended]; exact stuck.fails)

/-- and any call does the same. -/
theorem Stuck.call_eq {result : Result Symbol ρ} (stuck : Stuck table source failure machine place)
    (call : Call table source machine place result machine' place') :
    result = .error failure ∧ machine' = machine ∧ place' = machine.placeAfter place := by
  cases call with
  | silent stepped later =>
      rw [stuck.ended, stuck.fails] at stepped
      cases stepped
  | stop stepped =>
      rw [stuck.ended, stuck.fails] at stepped
      cases stepped
      exact ⟨rfl, rfl, rfl⟩

/-- The requests of the next step are answered with the end of input. -/
theorem Stuck.none_of_lt (stuck : Stuck table source failure machine place) {request : Nat}
    (least : place ≤ request) (most : request < machine.placeAfter place) :
    source request = none := by
  rw [placeAfter] at most
  split at most
  · next asking =>
      rw [Nat.le_antisymm (Nat.lt_succ_iff.1 most) least]
      exact offered_eq_nil.1 stuck.ended asking
  · exact absurd (Nat.lt_of_le_of_lt least most) (Nat.lt_irrefl place)

/-- On a list, a stuck machine does not get on. -/
theorem Stuck.step_drop (stuck : Stuck table (.ofInput input) failure machine place) :
    machine.step table (input.drop place) = .stop (.error failure) machine (input.drop place) := by
  have unread : input.drop (machine.placeAfter place) = input.drop place := by
    rw [placeAfter]
    split
    · next asking =>
        have ended := List.getElem?_eq_none_iff.1 (offered_eq_nil.1 stuck.ended asking)
        rw [List.drop_eq_nil_of_le ended, List.drop_eq_nil_of_le (Nat.le_succ_of_le ended)]
    · rfl
  rw [Machine.step_drop, stuck.ended, stuck.fails, unread]
  rfl

/-- So a run on a list that fails leaves everything as it is for the next one. -/
theorem next_of_failure (ran : machine.next table input = (.error failure, machine', rest))
    (unlexed : ∀ message, failure ≠ .lexer message) :
    machine'.next table rest = (.error failure, machine', rest) := by
  rw [← List.drop_zero (l := input)] at ran
  obtain ⟨place', call, rfl⟩ := Call.of_next ran
  exact next_of_stop (call.stuck (Source.fused_ofInput input) unlexed).step_drop

/-! ## All further calls -/

theorem Stuck.failsForEver (stuck : Stuck table source failure machine place)
    (fused : source.Fused) (arguments : List (Item Symbol)) :
    FailsForEver table source failure machine place arguments where
  fails count := by
    induction count generalizing place with
    | zero => exact ⟨place, .done⟩
    | succ count ih =>
        obtain ⟨place', calls⟩ := ih (stuck.again fused)
        exact ⟨place', .call (callInto_iff.2 ⟨stuck.call, rfl⟩) calls⟩
  alike results machine' place' arguments' calls := by
    induction calls with
    | done =>
        refine ⟨rfl, rfl, rfl, fun request least most => ?_⟩
        exact absurd (Nat.lt_of_le_of_lt least most) (Nat.lt_irrefl _)
    | call first later ih =>
        obtain ⟨call, rfl⟩ := callInto_iff.1 first
        obtain ⟨rfl, rfl, rfl⟩ := stuck.call_eq call
        obtain ⟨same, rfl, rfl, unread⟩ := ih (stuck.again fused)
        refine ⟨congrArg _ same, rfl, rfl, fun request least most => ?_⟩
        exact (Nat.lt_or_ge request _).elim (stuck.none_of_lt least) (unread request · most)

/-- For any table, any source that has ended for good once it has ended, and any machine, whatever it
has gone through: a failure that is not due to the lexer leaves the caller's vector as it was and
repeats itself in every further call, and after acceptance every further call reports that.  None of
these calls changes the machine or the vector, and none takes a token. -/
theorem failures_are_stable (table : ActionTable σ Symbol ρ) (fused : source.Fused)
    {result : Result Symbol ρ} {arguments arguments' : List (Item Symbol)}
    (call : CallInto table source machine place arguments result machine' place' arguments') :
    (∀ failure, result = .error failure → (∀ message, failure ≠ .lexer message) →
      arguments' = arguments ∧ FailsForEver table source failure machine' place' arguments') ∧
    ∀ argument, result = .ok (.accept argument) →
      arguments' = [argument] ∧
        FailsForEver table source .alreadyAccepted machine' place' arguments' := by
  obtain ⟨plain, rfl⟩ := callInto_iff.1 call
  constructor
  · rintro failure rfl unlexed
    exact ⟨rfl, (plain.stuck fused unlexed).failsForEver fused arguments⟩
  · rintro argument rfl
    exact ⟨rfl, plain.stuck_of_accept.failsForEver fused [argument]⟩

end Machine

/-- A table that accepts one token, and nothing else. -/
def ActionTable.single : ActionTable Nat Nat Nat :=
  .ofEntries 0 [⟨0, .exactly 1, .shift 1⟩, ⟨1, .endOfInput, .accept⟩] []

/-- A second token is refused after the first has been shifted, and stays peeked at.  One token is
accepted. -/
theorem Machine.failures_are_stable_single :
    FailsForEver .single (.ofInput [.ok ⟨1, "a"⟩, .ok ⟨1, "b"⟩]) (.refused .unexpectedSymbol)
      ⟨[1, 0], [.token ⟨1, "a"⟩], .reading, some ⟨1, "b"⟩⟩ 2 [] ∧
    FailsForEver .single (.ofInput [.ok ⟨1, "a"⟩]) .alreadyAccepted
      ⟨[1, 0], [], .accepted, none⟩ 2 [.token ⟨1, "a"⟩] := by
  have refused : CallInto .single (.ofInput [.ok ⟨1, "a"⟩, .ok ⟨1, "b"⟩]) (start .single) 0 []
      (.error (.refused .unexpectedSymbol))
      ⟨[1, 0], [.token ⟨1, "a"⟩], .reading, some ⟨1, "b"⟩⟩ 2 [] := .silent rfl (.stop rfl)
  have accepted : CallInto .single (.ofInput [.ok ⟨1, "a"⟩]) (start .single) 0 []
      (.ok (.accept (.token ⟨1, "a"⟩))) ⟨[1, 0], [], .accepted, none⟩ 2 [.token ⟨1, "a"⟩] :=
    .silent rfl (.stop rfl)
  constructor
  · exact ((failures_are_stable .single (Source.fused_ofInput _) refused).1 _ rfl
      fun _ => Failure.noConfusion).2
  · exact ((failures_are_stable .single (Source.fused_ofInput _) accepted).2 _ rfl).2

end Lalr.Parser
