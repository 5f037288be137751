import Lalr.Grammar.Basic
import Mathlib.Logic.Relation

/-!
# Derivations

A sentential form is rewritten by replacing a nonterminal by the right-hand side of one of its
productions.  Three readings of this are used.

* `Derives` rewrites anywhere, any number of times.
* `Exposes` only ever expands the first symbol, and says which terminal comes up there.  It agrees
  with the first terminals of derived forms, and is what inductions over FIRST sets follow.
* `RightmostDerivation` rewrites the last nonterminal each time and lists the productions used.
-/

namespace Lalr

namespace Grammar

/-- One nonterminal is replaced by the right-hand side of one of its productions. -/
inductive Rewrites (g : Grammar) : List Symbol → List Symbol → Prop
  | replace {p : ProductionId} {production : Production} (before after : List Symbol)
      (listed : g.productions[p]? = some production) :
      Rewrites g (before ++ .nonterminal production.left :: after)
        (before ++ production.right.toList ++ after)

/-- One form derives another by replacing nonterminals. -/
def Derives (g : Grammar) : List Symbol → List Symbol → Prop := Relation.ReflTransGen g.Rewrites

/-- The symbols derive a form that begins with the terminal. -/
def Begins (g : Grammar) (symbols : List Symbol) (t : TerminalId) : Prop :=
  ∃ rest, g.Derives symbols (.terminal t :: rest)

/-- Expanding the first symbol again and again brings the terminal to the front. -/
inductive Exposes (g : Grammar) : List Symbol → TerminalId → Prop
  | front (t : TerminalId) (rest : List Symbol) : Exposes g (.terminal t :: rest) t
  | expand {p : ProductionId} {production : Production} {rest : List Symbol} {t : TerminalId}
      (listed : g.productions[p]? = some production)
      (exposed : Exposes g (production.right.toList ++ rest) t) :
      Exposes g (.nonterminal production.left :: rest) t

/-- A derivation that replaces the last nonterminal at every step, with the productions used. -/
inductive RightmostDerivation (g : Grammar) :
    List ProductionId → List Symbol → List Symbol → Prop
  | done (form : List Symbol) : RightmostDerivation g [] form form
  | replace {p : ProductionId} {production : Production} {ps : List ProductionId}
      {before target : List Symbol} (word : List TerminalId)
      (listed : g.productions[p]? = some production)
      (rest : RightmostDerivation g ps
        (before ++ production.right.toList ++ word.map .terminal) target) :
      RightmostDerivation g (p :: ps)
        (before ++ .nonterminal production.left :: word.map .terminal) target

variable {g : Grammar}

theorem Rewrites.append_left {form next : List Symbol} (rewritten : g.Rewrites form next)
    (front : List Symbol) : g.Rewrites (front ++ form) (front ++ next) := by
  cases rewritten with
  | replace before after listed =>
      have moved := Rewrites.replace (front ++ before) after listed
      simpa only [List.append_assoc] using moved

theorem Rewrites.append_right {form next : List Symbol} (rewritten : g.Rewrites form next)
    (back : List Symbol) : g.Rewrites (form ++ back) (next ++ back) := by
  cases rewritten with
  | replace before after listed =>
      have moved := Rewrites.replace before (after ++ back) listed
      simpa only [List.append_assoc, List.cons_append] using moved

theorem Derives.append_left {form next : List Symbol} (derived : g.Derives form next)
    (front : List Symbol) : g.Derives (front ++ form) (front ++ next) := by
  induction derived with
  | refl => exact .refl
  | tail _ step ih => exact ih.tail (step.append_left front)

theorem Derives.append_right {form next : List Symbol} (derived : g.Derives form next)
    (back : List Symbol) : g.Derives (form ++ back) (next ++ back) := by
  induction derived with
  | refl => exact .refl
  | tail _ step ih => exact ih.tail (step.append_right back)

theorem Derives.append {form next form' next' : List Symbol} (first : g.Derives form next)
    (second : g.Derives form' next') : g.Derives (form ++ form') (next ++ next') :=
  (first.append_right form').trans (second.append_left next)

theorem Derives.expand {p : ProductionId} {production : Production}
    (listed : g.productions[p]? = some production) (rest : List Symbol) :
    g.Derives (.nonterminal production.left :: rest) (production.right.toList ++ rest) :=
  Relation.ReflTransGen.single (Rewrites.replace [] rest listed)

theorem begins_terminal (t : TerminalId) (rest : List Symbol) :
    g.Begins (.terminal t :: rest) t :=
  ⟨rest, Relation.ReflTransGen.refl⟩

theorem Begins.of_derives {form next : List Symbol} {t : TerminalId}
    (derived : g.Derives form next) (begins : g.Begins next t) : g.Begins form t := by
  obtain ⟨rest, further⟩ := begins
  exact ⟨rest, derived.trans further⟩

theorem Exposes.of_rewrites {form next : List Symbol} {t : TerminalId}
    (rewritten : g.Rewrites form next) (exposed : g.Exposes next t) : g.Exposes form t := by
  cases rewritten with
  | @replace p production before after listed =>
      -- The induction follows the expansion of the new form; what stands before the replaced
      -- symbol is expanded in the same way in both forms.
      generalize same : before ++ production.right.toList ++ after = whole at exposed
      induction exposed generalizing before with
      | front t rest =>
          cases before with
          | nil =>
              apply Exposes.expand listed
              rw [List.nil_append] at same
              rw [same]
              exact .front t rest
          | cons head before =>
              simp only [List.cons_append, List.cons.injEq] at same
              rw [same.1]
              exact .front t _
      | @expand q other rest t expanded exposed ih =>
          cases before with
          | nil =>
              apply Exposes.expand listed
              rw [List.nil_append] at same
              rw [same]
              exact .expand expanded exposed
          | cons head before =>
              simp only [List.cons_append, List.cons.injEq] at same
              have deeper := ih (other.right.toList ++ before) (by simp [← same.2])
              rw [List.append_assoc] at deeper
              rw [same.1]
              exact .expand expanded deeper

theorem Exposes.terminal_mem {symbols : List Symbol} {t : TerminalId}
    (exposed : g.Exposes symbols t) :
    .terminal t ∈ symbols ∨ ∃ (p : ProductionId) (production : Production),
      g.productions[p]? = some production ∧ .terminal t ∈ production.right.toList := by
  induction exposed with
  | front t rest => exact .inl (List.mem_cons_self ..)
  | @expand p production rest t listed _ ih =>
      rcases ih with member | elsewhere
      · rcases List.mem_append.1 member with inside | later
        · exact .inr ⟨p, production, listed, inside⟩
        · exact .inl (List.mem_cons_of_mem _ later)
      · exact .inr elsewhere

/-- What is exposed is what derived forms begin with. -/
theorem begins_iff_exposes {symbols : List Symbol} {t : TerminalId} :
    g.Begins symbols t ↔ g.Exposes symbols t := by
  constructor
  · rintro ⟨rest, derived⟩
    induction derived using Relation.ReflTransGen.head_induction_on with
    | refl => exact .front t rest
    | head step _ ih => exact ih.of_rewrites step
  · intro exposed
    induction exposed with
    | front t rest => exact begins_terminal t rest
    | expand listed _ ih => exact .of_derives (.expand listed _) ih

theorem mem_of_append_eq {front back before after : List Symbol} {symbol : Symbol}
    (same : front ++ back = before ++ symbol :: after) :
    (∃ gap, before = front ++ gap ∧ back = gap ++ symbol :: after) ∨
      ∃ gap, front = before ++ symbol :: gap ∧ after = gap ++ back := by
  rcases List.append_eq_append_iff.1 same with second | ⟨gap, rfl, behind⟩
  · exact .inl second
  · cases gap with
    | nil => exact .inl ⟨[], by simp, behind.symm⟩
    | cons head gap =>
        rw [List.cons_append, List.cons.injEq] at behind
        obtain ⟨rfl, rfl⟩ := behind
        exact .inr ⟨gap, rfl, rfl⟩

/-- A derivation from a concatenation is made of one from each part. -/
theorem Derives.split {front back form : List Symbol} (derived : g.Derives (front ++ back) form) :
    ∃ first second, form = first ++ second ∧ g.Derives front first ∧ g.Derives back second := by
  generalize start : front ++ back = whole at derived
  induction derived using Relation.ReflTransGen.head_induction_on generalizing front back with
  | refl => exact ⟨front, back, start.symm, .refl, .refl⟩
  | head step _ ih =>
      cases step with
      | @replace p production before after listed =>
          rcases mem_of_append_eq start with ⟨gap, rfl, rfl⟩ | ⟨gap, rfl, rfl⟩
          · obtain ⟨first, second, rfl, left, right⟩ :=
              @ih front (gap ++ production.right.toList ++ after) (by simp)
            refine ⟨first, second, rfl, left, .head ?_ right⟩
            exact Rewrites.replace gap after listed
          · obtain ⟨first, second, rfl, left, right⟩ :=
              @ih (before ++ production.right.toList ++ gap) back (by simp)
            refine ⟨first, second, rfl, .head ?_ left, right⟩
            exact Rewrites.replace before gap listed

/-- Nothing is derived from terminals but themselves. -/
theorem Derives.of_terminals {word : List TerminalId} {form : List Symbol}
    (derived : g.Derives (word.map .terminal) form) : form = word.map .terminal := by
  induction derived with
  | refl => rfl
  | tail _ step ih =>
      subst ih
      generalize same : word.map Symbol.terminal = whole at step
      cases step with
      | @replace p production before after listed =>
          have member : Symbol.nonterminal production.left ∈ word.map Symbol.terminal := by
            rw [same]
            exact List.mem_append_right before (List.mem_cons_self ..)
          simp at member

theorem Derives.of_terminal {t : TerminalId} {form : List Symbol}
    (derived : g.Derives [.terminal t] form) : form = [.terminal t] :=
  @of_terminals g [t] form derived

/-- What a concatenation exposes comes from its first part, or from the second if the first part
can vanish. -/
theorem exposes_append {front back : List Symbol} {t : TerminalId} :
    g.Exposes (front ++ back) t ↔
      g.Exposes front t ∨ g.Derives front [] ∧ g.Exposes back t := by
  constructor
  · intro exposed
    generalize whole : front ++ back = symbols at exposed
    induction exposed generalizing front with
    | front t rest =>
        cases front with
        | nil =>
            simp only [List.nil_append] at whole
            subst whole
            exact .inr ⟨.refl, .front t rest⟩
        | cons head tail =>
            simp only [List.cons_append, List.cons.injEq] at whole
            rw [whole.1]
            exact .inl (.front t tail)
    | @expand p production rest t listed exposed ih =>
        cases front with
        | nil =>
            simp only [List.nil_append] at whole
            subst whole
            exact .inr ⟨.refl, .expand listed exposed⟩
        | cons head tail =>
            simp only [List.cons_append, List.cons.injEq] at whole
            obtain ⟨rfl, rfl⟩ := whole
            rcases @ih (production.right.toList ++ tail) (by simp) with
              here | ⟨vanishes, later⟩
            · exact .inl (.expand listed here)
            · exact .inr ⟨(Derives.expand listed tail).trans vanishes, later⟩
  · rintro (exposed | ⟨vanishes, exposed⟩)
    · induction exposed with
      | front t rest => exact .front t (rest ++ back)
      | expand listed _ ih =>
          rw [List.append_assoc] at ih
          exact .expand listed ih
    · rw [← begins_iff_exposes] at exposed ⊢
      exact .of_derives (vanishes.append_right back) exposed

theorem begins_append {front back : List Symbol} {t : TerminalId} :
    g.Begins (front ++ back) t ↔ g.Begins front t ∨ g.Derives front [] ∧ g.Begins back t := by
  simp only [begins_iff_exposes, exposes_append]

/-! ## Rightmost derivations -/

theorem RightmostDerivation.trans {ps qs : List ProductionId} {form middle target : List Symbol}
    (first : g.RightmostDerivation ps form middle)
    (second : g.RightmostDerivation qs middle target) :
    g.RightmostDerivation (ps ++ qs) form target := by
  induction first with
  | done form => exact second
  | replace word listed _ ih => exact .replace word listed (ih second)

theorem RightmostDerivation.of_concat {ps : List ProductionId} {p : ProductionId}
    {form target : List Symbol} (derived : g.RightmostDerivation (ps ++ [p]) form target) :
    ∃ production before, ∃ word : List TerminalId, g.productions[p]? = some production ∧
      g.RightmostDerivation ps form
        (before ++ .nonterminal production.left :: word.map .terminal) ∧
      target = before ++ production.right.toList ++ word.map .terminal := by
  generalize whole : ps ++ [p] = used at derived
  induction derived generalizing ps with
  | done form => simp at whole
  | @replace q production used before target word listed rest ih =>
      cases ps with
      | nil =>
          simp only [List.nil_append, List.cons.injEq] at whole
          obtain ⟨rfl, rfl⟩ := whole
          cases rest
          exact ⟨production, before, word, listed, .done _, rfl⟩
      | cons first others =>
          simp only [List.cons_append, List.cons.injEq] at whole
          obtain ⟨rfl, rfl⟩ := whole
          obtain ⟨last, front, ending, known, earlier, same⟩ := ih rfl
          exact ⟨last, front, ending, known, .replace word listed earlier, same⟩

theorem RightmostDerivation.append_left {ps : List ProductionId} {form target : List Symbol}
    (derived : g.RightmostDerivation ps form target) (front : List Symbol) :
    g.RightmostDerivation ps (front ++ form) (front ++ target) := by
  induction derived with
  | done form => exact .done _
  | replace word listed _ ih =>
      rw [← List.append_assoc]
      apply RightmostDerivation.replace word listed
      simpa only [List.append_assoc] using ih

theorem RightmostDerivation.append_right {ps : List ProductionId} {form target : List Symbol}
    (derived : g.RightmostDerivation ps form target) (back : List TerminalId) :
    g.RightmostDerivation ps (form ++ back.map .terminal) (target ++ back.map .terminal) := by
  induction derived with
  | done form => exact .done _
  | @replace p production ps before target word listed _ ih =>
      rw [List.append_assoc, ← List.map_append] at ih
      rw [List.append_assoc, List.cons_append, ← List.map_append]
      exact .replace (word ++ back) listed ih

theorem RightmostDerivation.derives {ps : List ProductionId} {form target : List Symbol}
    (derived : g.RightmostDerivation ps form target) : g.Derives form target := by
  induction derived with
  | done form => exact .refl
  | replace word listed _ ih => exact .head (.replace _ _ listed) ih

/-- The word is read off the leaves of trees that grow from the symbols. -/
inductive Yields (g : Grammar) : List Symbol → List TerminalId → Prop
  | nil : Yields g [] []
  | terminal {t : TerminalId} {rest : List Symbol} {word : List TerminalId}
      (later : Yields g rest word) : Yields g (.terminal t :: rest) (t :: word)
  | nonterminal {p : ProductionId} {production : Production} {rest : List Symbol}
      {inner word : List TerminalId} (listed : g.productions[p]? = some production)
      (inside : Yields g production.right.toList inner) (later : Yields g rest word) :
      Yields g (.nonterminal production.left :: rest) (inner ++ word)

theorem Yields.of_terminals (word : List TerminalId) : g.Yields (word.map .terminal) word := by
  induction word with
  | nil => exact .nil
  | cons t word ih => exact .terminal ih

theorem Yields.append {front back : List Symbol} {first second : List TerminalId}
    (left : g.Yields front first) (right : g.Yields back second) :
    g.Yields (front ++ back) (first ++ second) := by
  induction left with
  | nil => exact right
  | terminal _ ih => exact .terminal ih
  | nonterminal listed inside _ _ ih =>
      rw [List.append_assoc]
      exact .nonterminal listed inside ih

theorem Yields.split {front back : List Symbol} {word : List TerminalId}
    (yielded : g.Yields (front ++ back) word) :
    ∃ first second, word = first ++ second ∧ g.Yields front first ∧ g.Yields back second := by
  induction front generalizing word with
  | nil => exact ⟨[], word, rfl, .nil, yielded⟩
  | cons head tail ih =>
      rw [List.cons_append] at yielded
      cases yielded with
      | terminal later =>
          obtain ⟨first, second, rfl, left, right⟩ := ih later
          exact ⟨_ :: first, second, rfl, .terminal left, right⟩
      | nonterminal listed inside later =>
          obtain ⟨first, second, rfl, left, right⟩ := ih later
          exact ⟨_ ++ first, second, by simp, .nonterminal listed inside left, right⟩

theorem Yields.of_derives {form : List Symbol} {word : List TerminalId}
    (derived : g.Derives form (word.map .terminal)) : g.Yields form word := by
  induction derived using Relation.ReflTransGen.head_induction_on with
  | refl => exact .of_terminals word
  | head step _ ih =>
      cases step with
      | replace before after listed =>
          obtain ⟨front, last, rfl, left, ending⟩ := ih.split
          obtain ⟨first, inner, rfl, start, inside⟩ := left.split
          rw [List.append_assoc]
          exact start.append (.nonterminal listed inside ending)

theorem Yields.rightmostDerivation {form : List Symbol} {word : List TerminalId}
    (yielded : g.Yields form word) : ∃ ps, g.RightmostDerivation ps form (word.map .terminal) := by
  induction yielded with
  | nil => exact ⟨[], .done []⟩
  | @terminal t rest word _ ih =>
      obtain ⟨ps, derived⟩ := ih
      exact ⟨ps, derived.append_left [.terminal t]⟩
  | @nonterminal p production rest inner word listed _ _ insideIH laterIH =>
      obtain ⟨qs, inside⟩ := insideIH
      obtain ⟨ps, later⟩ := laterIH
      refine ⟨ps ++ p :: qs, (later.append_left [.nonterminal production.left]).trans ?_⟩
      have grown := inside.append_right word
      rw [← List.map_append] at grown
      exact @RightmostDerivation.replace g p production qs [] _ word listed grown

/-- Every word that can be derived has a rightmost derivation. -/
theorem Derives.rightmostDerivation {form : List Symbol} {word : List TerminalId}
    (derived : g.Derives form (word.map .terminal)) :
    ∃ ps, g.RightmostDerivation ps form (word.map .terminal) :=
  (Yields.of_derives derived).rightmostDerivation

end Grammar

end Lalr
