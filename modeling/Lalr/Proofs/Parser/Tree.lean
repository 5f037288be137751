import Lalr.Proofs.Parser.Run

/-!
# Trees from events

A caller can build the tree of an input from the events of its parse alone.  It keeps one tree for
every symbol that has been reduced to.  When a production is reduced, its arguments become the
children of a new tree: a token as a leaf, and a symbol as the tree that was built for it, which is
among the last trees kept.
-/

namespace Lalr.Parser

/-- A tree of tokens.  Its nodes are marked by what was reduced there. -/
inductive Tree (Symbol ρ : Type) where
  | leaf (token : Token Symbol)
  | node (mark : ρ) (children : List (Tree Symbol ρ))

namespace Tree

variable {σ Symbol ρ : Type}

mutual

/-- The tokens of a tree, from left to right. -/
def leaves : Tree Symbol ρ → List (Token Symbol)
  | leaf token => [token]
  | node _ children => leavesOf children

def leavesOf : List (Tree Symbol ρ) → List (Token Symbol)
  | [] => []
  | first :: rest => first.leaves ++ leavesOf rest

end

/-- Put the tree of one argument before those of the arguments behind it.  The tree of a symbol is the
last one kept. -/
def claim (argument : Item Symbol) :
    List (Tree Symbol ρ) × List (Tree Symbol ρ) → List (Tree Symbol ρ) × List (Tree Symbol ρ)
  | (children, kept) =>
      match argument with
      | .token token => (leaf token :: children, kept)
      | .node _ => (kept.take 1 ++ children, kept.drop 1)

/-- The trees that are kept after a result, the last one first. -/
def grow (kept : List (Tree Symbol ρ)) : Result Symbol ρ → List (Tree Symbol ρ)
  | .ok (.reduce mark arguments) =>
      let (children, others) := arguments.foldr claim ([], kept)
      node mark children :: others
  | _ => kept

/-- The trees that the results of a parse leave. -/
def build (results : List (Result Symbol ρ)) : List (Tree Symbol ρ) := results.foldl grow []

/-- Further runs make one tree of the trees that are kept, and then accept. -/
inductive Builds (table : ActionTable σ Symbol ρ) (tree : Tree Symbol ρ) :
    List (Tree Symbol ρ) → Machine σ Symbol → Input Symbol → Prop
  | accept {machine machine' : Machine σ Symbol} {input input' : Input Symbol}
      {argument : Item Symbol}
      (next : machine.next table input = (.ok (.accept argument), machine', input')) :
      Builds table tree [tree] machine input
  | reduce {kept : List (Tree Symbol ρ)} {machine machine' : Machine σ Symbol}
      {input input' : Input Symbol} {mark : ρ} {arguments : List (Item Symbol)}
      (next : machine.next table input = (.ok (.reduce mark arguments), machine', input'))
      (later : Builds table tree (grow kept (.ok (.reduce mark arguments))) machine' input') :
      Builds table tree kept machine input

theorem Builds.runs {table : ActionTable σ Symbol ρ} {tree : Tree Symbol ρ}
    {kept : List (Tree Symbol ρ)} {machine : Machine σ Symbol} {input : Input Symbol}
    (builds : Builds table tree kept machine input) :
    ∃ count results argument machine' input',
      Machine.runs table count machine input =
        (results ++ [.ok (.accept argument)], machine', input') ∧
      (∀ result ∈ results, ∃ mark arguments, result = .ok (.reduce mark arguments)) ∧
      results.foldl grow kept = [tree] := by
  induction builds with
  | @accept machine machine' input input' argument next =>
      refine ⟨1, [], argument, machine', input', ?_, by simp, rfl⟩
      rw [Machine.runs_first, next]
      rfl
  | @reduce kept machine machine' input input' mark arguments next _ ih =>
      obtain ⟨count, results, argument, last, rest, ran, reductions, built⟩ := ih
      refine ⟨count + 1, .ok (.reduce mark arguments) :: results, argument, last, rest, ?_,
        List.forall_mem_cons.2 ⟨⟨mark, arguments, rfl⟩, reductions⟩, built⟩
      rw [Machine.runs_first, next, ran]
      rfl

end Tree

end Lalr.Parser
