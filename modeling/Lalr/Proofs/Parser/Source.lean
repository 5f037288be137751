import Lalr.Proofs.Parser.Waiting

/-!
# Sources of tokens

A machine asks for its tokens one at a time.  A source answers these requests in their order, each
with a token, an error of the lexer or the end of input.  It may go on for ever, and also after an
end.  A list is the source that gives its elements and then ends for good.

Whatever a table answers, a call shifts tokens, and then reduces, accepts or fails.  Until then
every token that has been asked for is on the stack or peeked at.
-/

namespace Lalr.Parser

/-- The answers to the requests for a token, by the number of the request. -/
abbrev Source (Symbol : Type) := Nat → Option (Except String (Token Symbol))

namespace Source

variable {Symbol : Type}

def ofInput (input : Input Symbol) : Source Symbol := fun request => input[request]?

/-- The token that a request is answered with, if it is. -/
def token? (source : Source Symbol) (request : Nat) : Option (Token Symbol) :=
  (source request).bind Except.toOption

/-- The tokens among the first answers. -/
def tokens (source : Source Symbol) (requests : Nat) : List (Token Symbol) :=
  (List.range requests).filterMap source.token?

theorem tokens_succ (source : Source Symbol) (requests : Nat) :
    source.tokens (requests + 1) = source.tokens requests ++ (source.token? requests).toList := by
  rw [tokens, List.range_succ, List.filterMap_append, tokens]
  cases found : source.token? requests <;> simp [found]

end Source

namespace Machine

variable {σ Symbol ρ : Type} {table : ActionTable σ Symbol ρ} {source : Source Symbol}
  {machine machine' : Machine σ Symbol} {input rest : Input Symbol} {place place' : Nat}
  {result : Result Symbol ρ}

/-- What the source offers for the next step. -/
def offered (machine : Machine σ Symbol) (source : Source Symbol) (place : Nat) : Input Symbol :=
  if machine.asks then (source place).toList else []

/-- The number of requests made by the end of the next step. -/
def placeAfter (machine : Machine σ Symbol) (place : Nat) : Nat :=
  if machine.asks then place + 1 else place

/-- A call that takes its tokens from a source: silent steps up to one that has something to
report. -/
inductive Call (table : ActionTable σ Symbol ρ) (source : Source Symbol) :
    Machine σ Symbol → Nat → Result Symbol ρ → Machine σ Symbol → Nat → Prop
  | silent {machine middle last : Machine σ Symbol} {place place' : Nat} {rest : Input Symbol}
      {result : Result Symbol ρ}
      (stepped : machine.step table (machine.offered source place) = .next middle rest)
      (later : Call table source middle (machine.placeAfter place) result last place') :
      Call table source machine place result last place'
  | stop {machine last : Machine σ Symbol} {place : Nat} {rest : Input Symbol}
      {result : Result Symbol ρ}
      (stepped : machine.step table (machine.offered source place) = .stop result last rest) :
      Call table source machine place result last (machine.placeAfter place)

/-! ## Lists as sources -/

theorem step_drop (table : ActionTable σ Symbol ρ) (machine : Machine σ Symbol)
    (input : Input Symbol) (place : Nat) :
    machine.step table (input.drop place) =
      (machine.step table (machine.offered (.ofInput input) place)).followedBy
        (input.drop (machine.placeAfter place)) := by
  rw [step_first, List.head?_drop, List.tail_drop, offered, placeAfter]
  cases machine.asks <;> rfl

theorem rest_step_offered (table : ActionTable σ Symbol ρ) (machine : Machine σ Symbol)
    (source : Source Symbol) (place : Nat) :
    (machine.step table (machine.offered source place)).rest = [] := by
  rw [rest_step, offered]
  cases machine.asks with
  | true => cases source place <;> rfl
  | false => rfl

/-- A run on a list is a call that takes its tokens from the list. -/
theorem Call.of_next
    (ran : machine.next table (input.drop place) = (result, machine', rest)) :
    ∃ place', Call table (.ofInput input) machine place result machine' place' ∧
      rest = input.drop place' := by
  -- Silent steps are put in front of whatever call goes on from where they lead.
  obtain ⟨last, _, ⟨middle, rfl, before⟩, stopped⟩ := exists_stop ran
    (fun last left => ∃ middle, left = input.drop middle ∧ ∀ {result final place'},
      Call table (.ofInput input) last middle result final place' →
        Call table (.ofInput input) machine place result final place')
    (by
      rintro first _ next _ ⟨middle, rfl, before⟩ stepped
      rw [step_drop] at stepped
      have unread := rest_step_offered table first (.ofInput input) middle
      cases silent : first.step table (first.offered (.ofInput input) middle) with
      | stop result next left =>
          rw [silent] at stepped
          cases stepped
      | next next' left =>
          rw [silent] at stepped unread
          cases unread
          cases stepped
          exact ⟨_, rfl, fun later => before (.silent silent later)⟩)
    ⟨place, rfl, fun call => call⟩
  rw [step_drop] at stopped
  have unread := rest_step_offered table last (.ofInput input) middle
  cases reported : last.step table (last.offered (.ofInput input) middle) with
  | next next left =>
      rw [reported] at stopped
      cases stopped
  | stop result next left =>
      rw [reported] at stopped unread
      cases unread
      cases stopped
      exact ⟨_, before (.stop reported), rfl⟩

/-! ## What a call does -/

/-- The symbol that the table is asked about, when the next token has been peeked at. -/
def look (machine : Machine σ Symbol) : Option Symbol :=
  match machine.phase with
  | .pendingGoto => machine.items.head?.map Item.symbol
  | _ => machine.peeked.map Token.symbol

/-- How a call ends, whatever the table answers. -/
inductive Turn (table : ActionTable σ Symbol ρ) :
    Machine σ Symbol → Result Symbol ρ → Machine σ Symbol → Prop
  | reduce {last : Machine σ Symbol} {state : σ} {below : List σ} {mark : ρ} {left : Symbol}
      {length : Nat} (current : last.states = state :: below)
      (answered : table.action state last.look = .reduce mark left length)
      (enough : length ≤ last.items.length) :
      Turn table last (.ok (.reduce mark (last.items.take length).reverse))
        { last with
          states := last.states.drop length
          items := .node left :: last.items.drop length
          phase := .pendingGoto }
  | accept {last : Machine σ Symbol} {state : σ} {below : List σ} {top : Item Symbol}
      {items : List (Item Symbol)} (current : last.states = state :: below)
      (answered : table.action state last.look = .accept) (stacked : last.items = top :: items) :
      Turn table last (.ok (.accept top)) { last with items, phase := .accepted }
  | fail {last : Machine σ Symbol} {failure : Failure} : Turn table last (.error failure) last

/-- Some tokens have been shifted.  They are those that were peeked at or asked for, up to the token
that is peeked at now. -/
structure Advances (source : Source Symbol) (machine : Machine σ Symbol) (place : Nat)
    (shifted : List (Token Symbol)) (machine' : Machine σ Symbol) (place' : Nat) : Prop where
  items : machine'.items = shifted.reverse.map .token ++ machine.items
  tokens : ∃ fresh, source.tokens place' = source.tokens place ++ fresh ∧
    machine.peeked.toList ++ fresh = shifted ++ machine'.peeked.toList

theorem Advances.refl (source : Source Symbol) (machine : Machine σ Symbol) (place : Nat) :
    Advances source machine place [] machine place :=
  ⟨rfl, [], by simp, by simp⟩

theorem Advances.trans {middle : Machine σ Symbol} {between : Nat}
    {shifted later : List (Token Symbol)}
    (first : Advances source machine place shifted middle between)
    (second : Advances source middle between later machine' place') :
    Advances source machine place (shifted ++ later) machine' place' := by
  obtain ⟨fresh, told, kept⟩ := first.tokens
  obtain ⟨more, toldMore, keptMore⟩ := second.tokens
  refine ⟨by simp [second.items, first.items], fresh ++ more, ?_, ?_⟩
  · rw [toldMore, told, List.append_assoc]
  · calc machine.peeked.toList ++ (fresh ++ more)
      _ = shifted ++ (middle.peeked.toList ++ more) := by
          rw [← List.append_assoc, kept, List.append_assoc]
      _ = shifted ++ later ++ machine'.peeked.toList := by rw [keptMore, List.append_assoc]

/-- The step has no other use for the source than to peek at the next token.  Then it fails, or does
what the table says about that token, or about the symbol of the last reduction. -/
theorem exists_peeked (table : ActionTable σ Symbol ρ) (source : Source Symbol)
    (machine : Machine σ Symbol) (place : Nat) :
    ∃ last, Advances source machine place [] last (machine.placeAfter place) ∧
      ((∃ failure rest, machine.step table (machine.offered source place) =
          .stop (.error failure) last rest) ∨
        ∃ state below, last.states = state :: below ∧
          machine.step table (machine.offered source place) =
            last.perform [] (table.action state last.look)) := by
  obtain ⟨states, items, phase, peeked⟩ := machine
  cases phase with
  | accepted => exact ⟨_, .refl _ _ _, .inl ⟨.alreadyAccepted, _, rfl⟩⟩
  | pendingGoto =>
      rcases states with _ | ⟨state, below⟩
      · exact ⟨_, .refl _ _ _, .inl ⟨.emptyStateStack, _, rfl⟩⟩
      · rcases items with _ | ⟨top, items⟩
        · exact ⟨_, .refl _ _ _, .inl ⟨.emptyItemStack, _, rfl⟩⟩
        · exact ⟨_, .refl _ _ _, .inr ⟨state, below, rfl, rfl⟩⟩
  | reading =>
      rcases states with _ | ⟨state, below⟩
      · exact ⟨_, by cases peeked <;> exact .refl _ _ _, .inl ⟨.emptyStateStack, _, rfl⟩⟩
      · rcases peeked with _ | token
        · -- Only here the source is asked.
          have offered : offered ⟨state :: below, items, .reading, none⟩ source place =
              (source place).toList := rfl
          have told := source.tokens_succ place
          rw [offered]
          rcases answer : source place with _ | ⟨message | token⟩
          · rw [Source.token?, answer] at told
            exact ⟨⟨state :: below, items, .reading, none⟩, ⟨rfl, [], told, rfl⟩,
              .inr ⟨state, below, rfl, rfl⟩⟩
          · rw [Source.token?, answer] at told
            exact ⟨_, ⟨rfl, [], told, rfl⟩, .inl ⟨.lexer message, _, rfl⟩⟩
          · rw [Source.token?, answer] at told
            exact ⟨⟨state :: below, items, .reading, some token⟩, ⟨rfl, [token], told, rfl⟩,
              .inr ⟨state, below, rfl, rfl⟩⟩
        · exact ⟨_, .refl _ _ _, .inr ⟨state, below, rfl, rfl⟩⟩

/-- A performed shift puts the peeked token on the stack, unless a goto was pending. -/
theorem Performs.advances {response : Response σ Symbol ρ}
    (performs : Performs machine input response (.next machine' rest)) (source : Source Symbol)
    (place : Nat) : ∃ shifted, Advances source machine place shifted machine' place := by
  cases performs with
  | goto pending => exact ⟨[], rfl, [], by simp, by simp⟩
  | @shift target token _ peeked => exact ⟨[token], rfl, [], by simp, by simp [peeked]⟩

theorem Performs.turn {state : σ} {below : List σ} (current : machine.states = state :: below)
    (performs : Performs machine input (table.action state machine.look)
      (.stop result machine' rest)) : Turn table machine result machine' := by
  generalize answered : table.action state machine.look = response at performs
  cases performs with
  | reduce enough _ => exact .reduce current answered enough
  | accept stacked => exact .accept current answered stacked
  | _ => exact .fail

/-- A call shifts tokens and then does one thing more. -/
theorem Call.exists_turn (call : Call table source machine place result machine' place') :
    ∃ shifted last, Advances source machine place shifted last place' ∧
      Turn table last result machine' := by
  induction call with
  | @silent machine middle last place place' rest result stepped later ih =>
      obtain ⟨shifted, final, advanced, turn⟩ := ih
      obtain ⟨peeked, told, failed | ⟨state, below, current, performed⟩⟩ :=
        exists_peeked table source machine place
      · obtain ⟨_, _, failed⟩ := failed
        rw [failed] at stepped
        cases stepped
      · have performs := peeked.performs [] (table.action state peeked.look)
        rw [← performed, stepped] at performs
        obtain ⟨first, shift⟩ := performs.advances source (machine.placeAfter place)
        exact ⟨_, final, (told.trans shift).trans advanced, turn⟩
  | @stop machine last place rest result stepped =>
      obtain ⟨peeked, told, failed | ⟨state, below, current, performed⟩⟩ :=
        exists_peeked table source machine place
      · obtain ⟨_, _, failed⟩ := failed
        rw [failed] at stepped
        cases stepped
        exact ⟨[], _, told, .fail⟩
      · have performs := peeked.performs [] (table.action state peeked.look)
        rw [← performed, stepped] at performs
        exact ⟨[], peeked, told, performs.turn current⟩

end Machine

end Lalr.Parser
