import Lalr.Grammar.Basic
import Lalr.Proofs.Parser.Tree

/-!
# Expression trees

An expression tree is grouped by precedence if no operator has one below it that should have been
above.  While an expression is read from left to right, trees wait for what comes to the right of
their operators.  `Ordered` describes such a stack: whatever is done to it later, all trees in it
remain grouped.
-/

namespace Lalr

/-- A binary tree with one operator can stand to the left of another one. -/
def Precedence.FitsLeft (inner outer : Precedence) : Prop :=
  outer.level < inner.level ∨ inner = outer ∧ inner.associativity = .left

/-- A binary tree with one operator can stand to the right of another one. -/
def Precedence.FitsRight (inner outer : Precedence) : Prop :=
  outer.level < inner.level ∨
    inner = outer ∧ (inner.associativity = .right ∨ inner.associativity = .nonassoc)

instance (inner outer : Precedence) : Decidable (inner.FitsLeft outer) :=
  inferInstanceAs (Decidable (_ ∨ _))

instance (inner outer : Precedence) : Decidable (inner.FitsRight outer) :=
  inferInstanceAs (Decidable (_ ∨ _))

namespace Parser

variable {Symbol ρ : Type} {rank : Symbol → Option Precedence}

namespace Tree

/-- The operator between the parts of a binary tree. -/
def operator? : Tree Symbol ρ → Option (Token Symbol)
  | node _ [_, leaf token, _] => some token
  | _ => none

/-- The operator at the root of a tree, if it has one, stands in the given relation to a precedence. -/
def Fits (rank : Symbol → Option Precedence) (relation : Precedence → Precedence → Prop)
    (outer : Precedence) (tree : Tree Symbol ρ) : Prop :=
  ∀ token, tree.operator? = some token →
    ∃ inner, rank token.symbol = some inner ∧ relation inner outer

/-- The tree is an operand, or an operator between two such trees that fit to its sides. -/
inductive Grouped (rank : Symbol → Option Precedence) : Tree Symbol ρ → Prop
  | operand {mark : ρ} {token : Token Symbol} (unranked : rank token.symbol = none) :
      Grouped rank (node mark [leaf token])
  | binary {mark : ρ} {left right : Tree Symbol ρ} {token : Token Symbol} {outer : Precedence}
      (ranked : rank token.symbol = some outer)
      (leftGrouped : Grouped rank left) (leftFits : left.Fits rank Precedence.FitsLeft outer)
      (rightGrouped : Grouped rank right) (rightFits : right.Fits rank Precedence.FitsRight outer) :
      Grouped rank (node mark [left, leaf token, right])

theorem fits_operand (relation : Precedence → Precedence → Prop) (outer : Precedence) (mark : ρ)
    (token : Token Symbol) : Fits rank relation outer (node mark [leaf token]) := by
  intro other rooted
  cases rooted

theorem fits_binary {relation : Precedence → Precedence → Prop} {inner outer : Precedence}
    {token : Token Symbol} (ranked : rank token.symbol = some inner) (related : relation inner outer)
    (mark : ρ) (left right : Tree Symbol ρ) :
    Fits rank relation outer (node mark [left, leaf token, right]) := by
  intro other rooted
  cases rooted
  exact ⟨inner, ranked, related⟩

end Tree

/-- A tree and the operator behind it, which waits for the tree to its right. -/
structure Waiting (Symbol ρ : Type) where
  left : Tree Symbol ρ
  operator : Token Symbol

namespace Waiting

/-- The tokens of the trees that wait and of their operators. -/
def leaves : List (Waiting Symbol ρ) → List (Token Symbol)
  | [] => []
  | top :: below => leaves below ++ top.left.leaves ++ [top.operator]

/-- A tree with an operator of the given precedence can be put to the right of the last operator that
waits. -/
def Admits (rank : Symbol → Option Precedence) (waiting : List (Waiting Symbol ρ))
    (inner : Precedence) : Prop :=
  ∀ top ∈ waiting.head?, ∃ outer, rank top.operator.symbol = some outer ∧ inner.FitsRight outer

/-- The last tree is grouped, and so are all trees that can still be made of it and those that wait,
if a tree fits to the left of what is put behind it. -/
inductive Ordered (rank : Symbol → Option Precedence) :
    List (Waiting Symbol ρ) → Tree Symbol ρ → Prop
  | bottom {last : Tree Symbol ρ} (grouped : last.Grouped rank) : Ordered rank [] last
  | push {waiting : List (Waiting Symbol ρ)} {left last : Tree Symbol ρ} {operator : Token Symbol}
      {precedence : Precedence} (below : Ordered rank waiting left)
      (ranked : rank operator.symbol = some precedence) (admitted : Admits rank waiting precedence)
      (leftFits : left.Fits rank Precedence.FitsLeft precedence) (grouped : last.Grouped rank)
      (lastFits : last.Fits rank Precedence.FitsRight precedence) :
      Ordered rank (⟨left, operator⟩ :: waiting) last

namespace Ordered

variable {waiting : List (Waiting Symbol ρ)} {left last : Tree Symbol ρ} {operator : Token Symbol}

theorem grouped (ordered : Ordered rank waiting last) : last.Grouped rank := by
  cases ordered with
  | bottom grouped => exact grouped
  | push _ _ _ _ grouped _ => exact grouped

/-- An operator and an operand are put behind the last tree. -/
theorem shift (ordered : Ordered rank waiting last) {precedence : Precedence}
    (ranked : rank operator.symbol = some precedence) (admitted : Admits rank waiting precedence)
    (fits : last.Fits rank Precedence.FitsLeft precedence) {operand : Token Symbol}
    (unranked : rank operand.symbol = none) (mark : ρ) :
    Ordered rank (⟨last, operator⟩ :: waiting) (.node mark [.leaf operand]) :=
  .push ordered ranked admitted fits (.operand unranked) (Tree.fits_operand _ _ _ _)

/-- The last tree is put to the right of the last operator. -/
theorem reduce (ordered : Ordered rank (⟨left, operator⟩ :: waiting) last) (mark : ρ) :
    Ordered rank waiting (.node mark [left, .leaf operator, last]) := by
  cases ordered with
  | push below ranked admitted leftFits grouped lastFits =>
      have whole : Tree.Grouped rank (.node mark [left, .leaf operator, last]) :=
        .binary ranked below.grouped leftFits grouped lastFits
      cases below with
      | bottom => exact .bottom whole
      | push deeper ranked' admitted' leftFits' _ _ =>
          obtain ⟨outer, same, fits⟩ := admitted _ rfl
          rw [ranked', Option.some.injEq] at same
          exact .push deeper ranked' admitted' leftFits' whole
            (Tree.fits_binary ranked (same ▸ fits) mark _ _)

end Ordered

end Waiting

end Parser

end Lalr
