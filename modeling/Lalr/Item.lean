import Lalr.Grammar.Basic
import Lalr.IdSet

/-!
# Items

The core of an item is a production with a dot in its right-hand side: the symbols before the dot
have been recognised, those after it are still to come.  A set of cores is closed by adding, for
every nonterminal that follows a dot, its productions with the dot in front; and it is moved across
a symbol by moving the dots that stand before that symbol.
-/

namespace Lalr

/-- A production with a dot before place `dot` of its right-hand side. -/
structure Core where
  production : ProductionId
  dot : Nat
  deriving DecidableEq, Inhabited

namespace Core

/-- Cores are ordered by production and then by the place of the dot. -/
instance : Ord Core where
  compare := compareLex (compareOn (·.production)) (compareOn (·.dot))

instance : Std.TransOrd Core :=
  inferInstanceAs (Std.TransCmp (compareLex (compareOn Core.production) (compareOn Core.dot)))

instance : Std.LawfulEqOrd Core where
  eq_of_compare {left right} equal := by
    have both : (compare left.production right.production).then
        (compare left.dot right.dot) = .eq := equal
    rw [Ordering.then_eq_eq, Nat.compare_eq_eq, Nat.compare_eq_eq] at both
    cases left
    cases right
    simp_all

def next (g : Grammar) (core : Core) : Option Symbol :=
  (g.right core.production)[core.dot]?

def nextNonterminal (g : Grammar) (core : Core) : Option NonterminalId :=
  match core.next g with
  | some (.nonterminal n) => some n
  | _ => none

/-- The symbols that follow the one after the dot. -/
def rest (g : Grammar) (core : Core) : List Symbol :=
  (g.right core.production).toList.drop (core.dot + 1)

/-- Whether the dot stands at the end. -/
def isReduction (g : Grammar) (core : Core) : Bool :=
  core.dot == (g.right core.production).size

/-- Whether the dot stands in front in a production of the nonterminal. -/
def opens (g : Grammar) (core : Core) (n : NonterminalId) : Bool :=
  core.dot == 0 && g.productions[core.production]?.any (·.left == n)

def advance (core : Core) : Core := { core with dot := core.dot + 1 }

def render (g : Grammar) (core : Core) : String :=
  let right := g.right core.production
  let left := (g.productions[core.production]?.map fun p => g.nonterminalName p.left).getD ""
  left ++ " ->" ++
    String.join (right.toList.zipIdx.map fun (symbol, place) =>
      (if place = core.dot then " ." else "") ++ " " ++ g.symbolName symbol) ++
    if core.dot = right.size then " ." else ""

/-- Put a core into an ascending list, unless it is there. -/
def insert (core : Core) : List Core → List Core
  | [] => [core]
  | head :: tail =>
      match compare core head with
      | .lt => core :: head :: tail
      | .eq => head :: tail
      | .gt => head :: insert core tail

/-- The distinct cores of a list in ascending order. -/
def sortDistinct (cores : List Core) : List Core := cores.foldr insert []

/-- The cores of a list in ascending order, repetitions kept. -/
def sort (cores : List Core) : List Core := cores.mergeSort fun a b => (compare a b).isLE

theorem lt_iff {left right : Core} : compare left right = .lt ↔
    left.production < right.production ∨
      left.production = right.production ∧ left.dot < right.dot := by
  have both : compare left right = (compare left.production right.production).then
      (compare left.dot right.dot) := rfl
  rw [both, Ordering.then_eq_lt, Nat.compare_eq_lt, Nat.compare_eq_eq, Nat.compare_eq_lt]

theorem mem_insert {core other : Core} {cores : List Core} :
    other ∈ insert core cores ↔ other = core ∨ other ∈ cores := by
  induction cores with
  | nil => simp [insert]
  | cons head tail ih =>
      simp only [insert]
      split
      · simp
      · next equal =>
          have same : core = head := Std.LawfulEqOrd.eq_of_compare equal
          simp [same]
      · simp only [List.mem_cons, ih]
        exact or_left_comm

@[simp] theorem mem_sortDistinct {core : Core} {cores : List Core} :
    core ∈ sortDistinct cores ↔ core ∈ cores := by
  induction cores with
  | nil => simp [sortDistinct]
  | cons head tail ih =>
      rw [sortDistinct, List.foldr_cons, mem_insert, List.mem_cons]
      exact or_congr Iff.rfl ih

/-- Inserting keeps a list strictly ascending. -/
theorem pairwise_insert {core : Core} {cores : List Core}
    (ascending : cores.Pairwise (compare · · = .lt)) :
    (insert core cores).Pairwise (compare · · = .lt) := by
  induction cores with
  | nil => simp [insert]
  | cons head tail ih =>
      rw [List.pairwise_cons] at ascending
      simp only [insert]
      split
      · next less =>
          rw [List.pairwise_cons, List.pairwise_cons]
          refine ⟨?_, ascending⟩
          intro other member
          rcases List.mem_cons.1 member with rfl | member
          · exact less
          · exact Std.TransCmp.lt_trans less (ascending.1 other member)
      · exact List.pairwise_cons.2 ascending
      · next greater =>
          rw [List.pairwise_cons]
          refine ⟨?_, ih ascending.2⟩
          intro other member
          rcases mem_insert.1 member with rfl | member
          · exact Std.OrientedCmp.lt_of_gt greater
          · exact ascending.1 other member

/-- The sorted list is strictly ascending, so it depends on the set of the cores only. -/
theorem pairwise_sortDistinct (cores : List Core) :
    (sortDistinct cores).Pairwise (compare · · = .lt) := by
  induction cores with
  | nil => exact .nil
  | cons head tail ih => exact pairwise_insert ih

end Core

namespace Grammar

/-- The productions of a nonterminal with the dot in front. -/
def openings (g : Grammar) (n : NonterminalId) : List Core :=
  (g.alternatives n).map fun p => ⟨p, 0⟩

/-- The distinct nonterminals that follow a dot and are not in `seen`, in the order in which they
come up. -/
def followers (g : Grammar) (seen : IdSet) (cores : List Core) : List NonterminalId :=
  ((cores.filterMap (Core.nextNonterminal g)).filter (!seen.contains ·)).eraseDups

/-- What closing adds to the given cores, when the nonterminals in `seen` have been expanded.  Each
generation expands the nonterminals that the one before has brought up; `bound` limits the number of
generations. -/
def expansion (g : Grammar) : (bound : Nat) → IdSet → List Core → List Core
  | 0, _, _ => []
  | bound + 1, seen, cores =>
      match g.followers seen cores with
      | [] => []
      | fresh =>
          let added := fresh.flatMap g.openings
          added ++ expansion g bound (fresh.foldl IdSet.insert seen) added

/-- The closure of a list of cores: the list itself, followed by the openings of every nonterminal
that follows a dot in the result.  Every generation expands a further nonterminal, so there are at
most as many as there are nonterminals. -/
def closure (g : Grammar) (kernel : List Core) : List Core :=
  kernel ++ g.expansion g.nonterminals.size ∅ kernel

/-- The moves that the cores allow: each symbol after a dot, with the dot moved across it. -/
def moves (g : Grammar) (cores : List Core) : List (Symbol × Core) :=
  cores.filterMap fun core => (core.next g).map (·, core.advance)

end Grammar

/-- The cores that moves across a symbol lead to, in ascending order. -/
def movesAcross (moves : List (Symbol × Core)) (symbol : Symbol) : List Core :=
  Core.sortDistinct ((moves.filter (·.1 = symbol)).map (·.2))

/-- The cores reached by moving across a symbol, in ascending order. -/
def Grammar.goto (g : Grammar) (cores : List Core) (symbol : Symbol) : List Core :=
  movesAcross (g.moves cores) symbol

end Lalr
