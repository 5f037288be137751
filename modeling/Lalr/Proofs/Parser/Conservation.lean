import Lalr.Parser.Entries
import Lalr.Proofs.Parser.Source
import Lalr.Proofs.Parser.Tree
import Mathlib.Data.List.Forall2

/-!
# No token is lost

A caller that sees the stack can keep one tree for each item on it.  The items that a call has put
there are tokens, and get leaves.  A reduction replaces the trees of its arguments by one node over
them, and acceptance takes the top tree away.

The leaves of these trees, with the peeked token behind them, are always the tokens that the source
has answered with.  This takes nothing from the table, which may answer as it likes, nor from the
source, in which errors and ends may come anywhere.
-/

namespace Lalr.Parser

open Machine

namespace Tree

variable {σ Symbol ρ : Type}

theorem leavesOf_append (front back : List (Tree Symbol ρ)) :
    leavesOf (front ++ back) = leavesOf front ++ leavesOf back := by
  induction front with
  | nil => rfl
  | cons head tail ih => rw [List.cons_append, leavesOf, ih, leavesOf, List.append_assoc]

theorem leavesOf_leaves (tokens : List (Token Symbol)) :
    leavesOf (tokens.map (leaf : Token Symbol → Tree Symbol ρ)) = tokens := by
  induction tokens with
  | nil => rfl
  | cons head tail ih => rw [List.map_cons, leavesOf, ih, leaves, List.singleton_append]

/-- The tree can stand for the item: a leaf for its token, a node for any symbol. -/
inductive Stands : Tree Symbol ρ → Item Symbol → Prop
  | leaf (token : Token Symbol) : Stands (leaf token) (.token token)
  | node (mark : ρ) (children : List (Tree Symbol ρ)) (symbol : Symbol) :
      Stands (node mark children) (.node symbol)

/-- The leaf for an item that is a token. -/
def ofToken? : Item Symbol → Option (Tree Symbol ρ)
  | .token token => some (leaf token)
  | .node _ => none

/-- One tree for each item of a stack.  There are trees for its lower part; what has been put on top
since then are tokens. -/
def cover (trees : List (Tree Symbol ρ)) (items : List (Item Symbol)) : List (Tree Symbol ρ) :=
  (items.take (items.length - trees.length)).filterMap ofToken? ++ trees

/-- The trees after a call that has left the given items, the top of the stack first. -/
def tend (trees : List (Tree Symbol ρ)) (items : List (Item Symbol)) :
    Result Symbol ρ → List (Tree Symbol ρ)
  | .ok (.reduce mark arguments) =>
      let grown := cover trees (arguments.reverse ++ items.tail)
      node mark (grown.take arguments.length).reverse :: grown.drop arguments.length
  | .ok (.accept argument) => (cover trees (argument :: items)).tail
  | .error _ => cover trees items

/-- What calls have reported, and the trees that the caller keeps, since the machine was started. -/
inductive Tended (table : ActionTable σ Symbol ρ) (source : Source Symbol) :
    List (Result Symbol ρ) → List (Tree Symbol ρ) → Machine σ Symbol → Nat → Prop
  | start : Tended table source [] [] (.start table) 0
  | call {results : List (Result Symbol ρ)} {trees : List (Tree Symbol ρ)}
      {machine machine' : Machine σ Symbol} {place place' : Nat} {result : Result Symbol ρ}
      (earlier : Tended table source results trees machine place)
      (call : Call table source machine place result machine' place') :
      Tended table source (results ++ [result]) (tend trees machine'.items result) machine' place'

/-- There is one tree for each item, and all tokens that were answered are in the trees or peeked
at. -/
structure Keeps (source : Source Symbol) (trees : List (Tree Symbol ρ))
    (machine : Machine σ Symbol) (place : Nat) : Prop where
  stands : List.Forall₂ Stands trees machine.items
  leaves : leavesOf trees.reverse ++ machine.peeked.toList = source.tokens place

variable {table : ActionTable σ Symbol ρ} {source : Source Symbol} {machine machine' : Machine σ Symbol}
  {place place' : Nat} {trees : List (Tree Symbol ρ)} {result : Result Symbol ρ}

theorem Keeps.advance {shifted : List (Token Symbol)} (keeps : Keeps source trees machine place)
    (advanced : Advances source machine place shifted machine' place') :
    Keeps source (shifted.reverse.map leaf ++ trees) machine' place' := by
  obtain ⟨fresh, told, kept⟩ := advanced.tokens
  constructor
  · rw [advanced.items]
    refine List.rel_append ?_ keeps.stands
    rw [List.forall₂_map_left_iff, List.forall₂_map_right_iff, List.forall₂_same]
    exact fun token _ => .leaf token
  · calc leavesOf (shifted.reverse.map leaf ++ trees).reverse ++ machine'.peeked.toList
      _ = leavesOf trees.reverse ++ (shifted ++ machine'.peeked.toList) := by
          rw [List.reverse_append, ← List.map_reverse, List.reverse_reverse, leavesOf_append,
            leavesOf_leaves, List.append_assoc]
      _ = source.tokens place' := by rw [← kept, ← List.append_assoc, keeps.leaves, told]

theorem cover_eq {shifted : List (Token Symbol)} {items : List (Item Symbol)}
    (stands : List.Forall₂ Stands trees items) :
    cover trees (shifted.map .token ++ items) = shifted.map leaf ++ trees := by
  have shiftedOnly : (shifted.map Item.token ++ items).length - trees.length =
      (shifted.map Item.token).length := by
    rw [List.length_append, stands.length_eq, Nat.add_sub_cancel]
  have leaves : ofToken? ∘ Item.token = some ∘ (leaf : Token Symbol → Tree Symbol ρ) := rfl
  rw [cover, shiftedOnly, List.take_left, List.filterMap_map, leaves, List.filterMap_eq_map]

/-- Replacing the trees of the arguments by a node over them keeps the leaves. -/
theorem Keeps.reduce {last : Machine σ Symbol} (keeps : Keeps source trees last place)
    (mark : ρ) (left : Symbol) (length : Nat) (states : List σ) (phase : Phase) :
    Keeps source (node mark (trees.take length).reverse :: trees.drop length)
      ⟨states, .node left :: last.items.drop length, phase, last.peeked⟩ place := by
  refine ⟨.cons (.node _ _ _) (List.forall₂_drop length keeps.stands), ?_⟩
  rw [← keeps.leaves, List.reverse_cons, leavesOf_append, leavesOf, leavesOf, Tree.leaves,
    List.append_nil, ← leavesOf_append, ← List.reverse_append, List.take_append_drop]

section Turn

variable {last : Machine σ Symbol} {shifted : List (Token Symbol)}
  (keeps : Keeps source trees machine place)
  (advanced : Advances source machine place shifted last place')

include keeps advanced

theorem Keeps.cover_eq : cover trees last.items = shifted.reverse.map leaf ++ trees := by
  rw [advanced.items, Tree.cover_eq keeps.stands]

theorem Keeps.tend_reduce {length : Nat} (enough : length ≤ last.items.length) (mark : ρ)
    (left : Symbol) :
    tend trees (.node left :: last.items.drop length)
        (.ok (.reduce mark (last.items.take length).reverse)) =
      node mark ((shifted.reverse.map leaf ++ trees).take length).reverse ::
        (shifted.reverse.map leaf ++ trees).drop length := by
  simp only [tend, List.tail_cons, List.reverse_reverse, List.take_append_drop,
    keeps.cover_eq advanced, List.length_reverse, List.length_take, Nat.min_eq_left enough]

/-- Every call keeps the trees as they should be, up to acceptance. -/
theorem Keeps.turn (turn : Turn table last result machine')
    (unaccepted : ∀ argument, result ≠ .ok (.accept argument)) :
    Keeps source (tend trees machine'.items result) machine' place' := by
  have grown := keeps.advance advanced
  cases turn with
  | @reduce state below mark left length current answered enough =>
      rw [keeps.tend_reduce advanced enough]
      exact grown.reduce mark left length _ _
  | @accept state below top items current answered stacked => exact absurd rfl (unaccepted top)
  | @fail failure =>
      rw [tend, keeps.cover_eq advanced]
      exact grown

end Turn

theorem keeps_start (table : ActionTable σ Symbol ρ) (source : Source Symbol) :
    Keeps source ([] : List (Tree Symbol ρ)) (start table) 0 :=
  ⟨.nil, rfl⟩

/-- Before the input is accepted, the trees are as they should be. -/
theorem Tended.keeps {results : List (Result Symbol ρ)}
    (tended : Tended table source results trees machine place)
    (unaccepted : ∀ argument, .ok (.accept argument) ∉ results) :
    Keeps source trees machine place := by
  induction tended with
  | start => exact keeps_start table source
  | @call results trees machine machine' place place' result _ call ih =>
      have kept := ih fun argument member =>
        unaccepted argument (List.mem_append_left _ member)
      obtain ⟨shifted, last, advanced, turn⟩ := call.exists_turn
      refine kept.turn advanced turn ?_
      rintro argument rfl
      exact unaccepted argument (by simp)

/-- Runs on a list are among the calls that the caller follows. -/
theorem exists_tended {input rest : Input Symbol} {count : Nat} {results : List (Result Symbol ρ)}
    (ran : runs table count (start table) input = (results, machine, rest)) :
    ∃ trees place, Tended table (.ofInput input) results trees machine place ∧
      rest = input.drop place := by
  induction count generalizing results machine rest with
  | zero =>
      cases ran
      exact ⟨[], 0, .start, rfl⟩
  | succ count ih =>
      rcases earlier : runs table count (start table) input with ⟨before, middle, left⟩
      rcases next : middle.next table left with ⟨result, after, remaining⟩
      rw [runs_succ earlier, next] at ran
      cases ran
      obtain ⟨trees, place, tended, rfl⟩ := ih earlier
      obtain ⟨place', call, rfl⟩ := Call.of_next next
      exact ⟨_, place', tended.call call, rfl⟩

/-- Whatever the table answers, and whatever the source, the leaves of the trees that a caller keeps
for the items on the stack, with the peeked token, are after every call the tokens that have been
read.  A call first shifts tokens.  If it then reduces, the arguments are the last items of the stack,
as many as the table has answered, and their trees get one node over them; if it accepts, the argument
is the top item, and its tree is no longer among those of the stack. -/
theorem tokens_are_conserved {results : List (Result Symbol ρ)}
    (tended : Tended table source results trees machine place)
    (unaccepted : ∀ argument, .ok (.accept argument) ∉ results)
    (call : Call table source machine place result machine' place') :
    ∃ (shifted : List (Token Symbol)) (last : Machine σ Symbol) (grown : List (Tree Symbol ρ)),
      last.items = shifted.reverse.map .token ++ machine.items ∧
      grown = shifted.reverse.map leaf ++ trees ∧
      List.Forall₂ Stands grown last.items ∧
      leavesOf grown.reverse ++ machine'.peeked.toList = source.tokens place' ∧
      (∀ mark arguments, result = .ok (.reduce mark arguments) →
        ∃ state below left others, last.states = state :: below ∧
          table.action state last.look = .reduce mark left arguments.length ∧
          last.items = arguments.reverse ++ others ∧ machine'.items = .node left :: others ∧
          tend trees machine'.items result =
            node mark (grown.take arguments.length).reverse :: grown.drop arguments.length) ∧
      (∀ argument, result = .ok (.accept argument) →
        last.items = argument :: machine'.items ∧
          ∃ tree, Stands tree argument ∧ grown = tree :: tend trees machine'.items result) ∧
      ((∀ argument, result ≠ .ok (.accept argument)) →
        List.Forall₂ Stands (tend trees machine'.items result) machine'.items ∧
          leavesOf (tend trees machine'.items result).reverse ++ machine'.peeked.toList =
            source.tokens place') := by
  have keeps := tended.keeps unaccepted
  obtain ⟨shifted, last, advanced, turn⟩ := call.exists_turn
  have grown := keeps.advance advanced
  refine ⟨shifted, last, _, advanced.items, rfl, grown.stands, ?read, ?reduced, ?accepted, ?stands⟩
  case read =>
    rw [← grown.leaves]
    cases turn <;> rfl
  case reduced =>
    rintro mark arguments rfl
    cases turn with
    | @reduce state below _ left length current answered enough =>
        have counted : (last.items.take length).reverse.length = length := by simp [enough]
        refine ⟨state, below, left, last.items.drop length, current, ?_, by simp, rfl, ?_⟩
        · rw [counted, answered]
        · rw [counted, keeps.tend_reduce advanced enough]
  case accepted =>
    rintro argument rfl
    cases turn with
    | @accept state below _ items current answered stacked =>
        refine ⟨stacked, ?_⟩
        obtain ⟨tree, others, stands, _, same⟩ :=
          List.forall₂_cons_right_iff.1 (stacked ▸ grown.stands)
        refine ⟨tree, stands, ?_⟩
        rw [tend, ← stacked, keeps.cover_eq advanced, same, List.tail_cons]
  case stands =>
    intro others
    have kept := keeps.turn advanced turn others
    exact ⟨kept.stands, kept.leaves⟩

end Tree

/-- Two tokens with an error of the lexer and a pause between them. -/
def Source.interrupted : Source Nat
  | 0 => some (.ok ⟨1, "a"⟩)
  | 1 => some (.error "bad character")
  | 3 => some (.ok ⟨1, "b"⟩)
  | _ => none

/-- A table that shifts one token and reduces it when there is a pause. -/
def ActionTable.hasty : ActionTable Nat Nat Nat :=
  .ofEntries 0 [⟨0, .exactly 1, .shift 1⟩, ⟨1, .endOfInput, .reduce 9 2 1⟩] []

theorem Tree.tended_interrupted :
    Tended .hasty .interrupted [.error (.lexer "bad character")] [leaf ⟨1, "a"⟩]
      ⟨[1, 0], [.token ⟨1, "a"⟩], .reading, none⟩ 2 := by
  have first : Call .hasty .interrupted (start .hasty) 0 (.error (.lexer "bad character"))
      ⟨[1, 0], [.token ⟨1, "a"⟩], .reading, none⟩ 2 := .silent rfl (.stop rfl)
  exact .call .start first

/-- The first call shifts a token before the lexer fails, and the second reduces it. -/
theorem Tree.tokens_are_conserved_interrupted :
    leavesOf [node 9 [leaf ⟨1, "a"⟩]] ++ [] = Source.interrupted.tokens 3 := by
  have second : Call .hasty .interrupted ⟨[1, 0], [.token ⟨1, "a"⟩], .reading, none⟩ 2
      (.ok (.reduce 9 [.token ⟨1, "a"⟩])) ⟨[0], [.node 2], .pendingGoto, none⟩ 3 := .stop rfl
  obtain ⟨_, _, _, _, _, _, _, _, _, kept⟩ :=
    tokens_are_conserved tended_interrupted (by simp) second
  exact (kept (by simp)).2

end Lalr.Parser
