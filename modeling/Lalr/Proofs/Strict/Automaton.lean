import Lalr.Proofs.Automaton.Items
import Lalr.Proofs.Strict.Grammar

/-!
# Strict lookups: building the automaton

The items of all states lie one after the other in an arena, in which a state has its items by their
numbers.  The strict construction asks for the right-hand side of every core that comes up, moves no
dot beyond its limit, takes the items of a state out of the arena, and writes transitions only to
states that exist.
-/

namespace Lalr

namespace Strict

variable (g : Grammar)

/-! ## Closures and moves -/

def nextNonterminal (core : Core) : Option (Option NonterminalId) := do
  match ← next g core with
  | some (.nonterminal n) => return some n
  | _ => return none

def followers (seen : IdSet) (cores : List Core) : Option (List NonterminalId) := do
  let nonterminals ← cores.filterMapM (nextNonterminal g)
  return (nonterminals.filter (!seen.contains ·)).eraseDups

/-- What closing adds, which must be complete after at most `bound` generations. -/
def expansion : (bound : Nat) → IdSet → List Core → Option (List Core)
  | 0, seen, cores => do
      match ← followers g seen cores with
      | [] => return []
      | _ => none
  | bound + 1, seen, cores => do
      match ← followers g seen cores with
      | [] => return []
      | fresh =>
          let added := fresh.flatMap g.openings
          return added ++ (← expansion bound (fresh.foldl IdSet.insert seen) added)

/-- The core with its dot moved across the symbol, if that comes next. -/
def move (symbol : Symbol) (core : Core) : Option (Option Core) := do
  if (← next g core) = some symbol then
    return some (← advance core)
  else
    return none

def goto (cores : List Core) (symbol : Symbol) : Option (List Core) := do
  return Core.sortDistinct (← cores.filterMapM (move g symbol))

def outgoing (cores : List Core) : Option (List Symbol) := do
  let symbols ← cores.filterMapM (next g)
  return (symbols.filter (· ≠ .terminal endTerminal)).eraseDups

/-! ## The construction -/

/-- The cores of all items, each at the place of its number. -/
def arena (states : Array State) : List Core := states.toList.flatMap (·.cores)

/-- The items of a state, taken out of the arena by their numbers. -/
def items (states : Array State) (state : State) : Option (List (Core × Nat)) :=
  (List.range' state.firstItem state.cores.length).mapM fun item => do
    return (← (arena states)[item]?, item)

def intern (kernel : List Core) (builder : Builder) : Option (StateId × Builder) := do
  match builder.kernels[kernel]? with
  | some id => return (id, builder)
  | none =>
      let id := builder.states.size
      let added ← expansion g g.nonterminals.size ∅ kernel
      let state : State := ⟨kernel, added, builder.itemCount, []⟩
      return (id, {
        states := builder.states.push state
        itemCount := state.endItem
        kernels := builder.kernels.insert kernel id
        queue := (builder.queue.push id).2 })

/-- Find the states that moves across the given symbols lead to, for transitions of a state that
must exist. -/
def internAll (id : StateId) (cores : List Core) :
    List Symbol → Builder → Option (List (Symbol × StateId) × Builder)
  | [], builder => some ([], builder)
  | symbol :: rest, builder => do
      let (target, builder) ← intern g (← goto g cores symbol) builder
      let _ ← builder.states[id]?
      let (transitions, builder) ← internAll id cores rest builder
      return ((symbol, target) :: transitions, builder)

def expand (id : StateId) (builder : Builder) : Option Builder := do
  let state ← builder.states[id]?
  let cores := (← items builder.states state).map (·.1)
  let (transitions, builder) ← internAll g id cores (← outgoing g cores) builder
  return { builder with states := builder.states.modify id fun state => { state with transitions } }

/-- Expand states until none waits, which must be after at most `bound` of them. -/
def run : (bound : Nat) → Builder → Option Builder
  | 0, builder =>
      match builder.queue.pop with
      | none => some builder
      | some _ => none
  | bound + 1, builder =>
      match builder.queue.pop with
      | none => some builder
      | some (id, queue) => do run bound (← expand g id { builder with queue })

def build : Option Automaton := do
  let begun ← intern g [⟨acceptProduction, 0⟩] .empty
  let builder ← run g (1 <<< g.coreCount) begun.2
  return ⟨builder.states⟩

variable {g}

/-! ## Nothing fails -/

theorem nextNonterminal_eq {core : Core} (isOf : core.IsOf g) :
    nextNonterminal g core = some (core.nextNonterminal g) := by
  rw [nextNonterminal, next_eq isOf, Core.nextNonterminal]
  rcases core.next g with _ | _ | _ <;> rfl

theorem followers_eq {cores : List Core} (isOf : ∀ core ∈ cores, core.IsOf g) (seen : IdSet) :
    followers g seen cores = some (g.followers seen cores) := by
  have each := filterMapM_eq_some fun core member => nextNonterminal_eq (isOf core member)
  rw [followers, each]
  rfl

theorem expansion_eq (wellFormed : g.WellFormed) {cores : List Core}
    (isOf : ∀ core ∈ cores, core.IsOf g) {bound : Nat} {seen : IdSet}
    (enough : (g.unexpanded seen).card ≤ bound) :
    expansion g bound seen cores = some (g.expansion bound seen cores) := by
  induction bound generalizing seen cores with
  | zero =>
      rw [expansion, followers_eq isOf, Grammar.followers_eq_nil wellFormed cores enough]
      rfl
  | succ bound ih =>
      have opened : ∀ core ∈ (g.followers seen cores).flatMap g.openings, core.IsOf g := by
        intro core member
        obtain ⟨n, _, opening⟩ := List.mem_flatMap.1 member
        exact Grammar.isOf_opening wellFormed opening
      rw [expansion, followers_eq isOf, Grammar.expansion]
      cases fresh : g.followers seen cores with
      | nil => rfl
      | cons n rest =>
          have smaller := @Grammar.card_unexpanded_lt g wellFormed seen cores n (by simp [fresh])
          rw [fresh] at opened smaller
          have later := ih opened (Nat.le_of_lt_succ (Nat.lt_of_lt_of_le smaller enough))
          simp only [Option.bind_eq_bind, Option.bind_some, later]
          rfl

theorem move_eq (defined : g.IsDefined) {core : Core} (isOf : core.IsOf g) (symbol : Symbol) :
    move g symbol core = some (if core.next g = some symbol then some core.advance else none) := by
  rw [move, next_eq isOf, Option.bind_eq_bind, Option.bind_some]
  split
  · next follows =>
      rw [advance_eq defined follows]
      rfl
  · rfl

theorem goto_eq (defined : g.IsDefined) {cores : List Core} (isOf : ∀ core ∈ cores, core.IsOf g)
    (symbol : Symbol) : goto g cores symbol = some (g.goto cores symbol) := by
  have each := filterMapM_eq_some fun core member => move_eq defined (isOf core member) symbol
  have moved : ∀ core : Core,
      ((((core.next g).map (·, core.advance)).filter fun move => move.1 = symbol).map (·.2)) =
        if core.next g = some symbol then some core.advance else none := by
    intro core
    cases core.next g with
    | none => rfl
    | some other => by_cases same : other = symbol <;> simp [same]
  rw [goto, each, Grammar.goto, movesAcross, Grammar.moves, List.filter_filterMap,
    List.map_filterMap]
  simp only [moved]
  rfl

theorem outgoing_eq {cores : List Core} (isOf : ∀ core ∈ cores, core.IsOf g) :
    outgoing g cores = some (Builder.outgoing (g.moves cores)) := by
  have each := filterMapM_eq_some fun core member => next_eq (isOf core member)
  have symbols : (g.moves cores).map (·.1) = cores.filterMap (Core.next g) := by
    rw [Grammar.moves, List.map_filterMap]
    apply List.filterMap_congr
    intro core _
    cases core.next g <;> rfl
  rw [outgoing, each, Builder.outgoing, symbols]
  rfl

theorem items_between (before after cores : List Core) :
    (List.range' before.length cores.length).mapM
        (fun item => (before ++ (cores ++ after))[item]?.bind fun core => some (core, item)) =
      some (cores.zipIdx before.length) := by
  induction cores generalizing before with
  | nil => rfl
  | cons core cores ih =>
      have later := ih (before ++ [core])
      have here : (before ++ (core :: cores ++ after))[before.length]? = some core := by simp
      rw [List.length_append, List.length_singleton, List.append_assoc] at later
      rw [List.length_cons, List.range'_succ, List.mapM_cons, here, List.zipIdx_cons]
      simp only [List.cons_append, List.nil_append] at later ⊢
      rw [later]
      rfl

/-- A state finds its items in the arena. -/
theorem items_eq {states : Array State} {id : StateId} {state : State}
    (found : states[id]? = some state)
    (numbered : state.firstItem = ((Builder.lengths states).take id).sum) :
    items states state = some state.items := by
  obtain ⟨inside, here⟩ := List.getElem?_eq_some_iff.1 (Array.getElem?_toList.trans found)
  have split : states.toList = states.toList.take id ++ state :: states.toList.drop (id + 1) := by
    rw [← here, List.getElem_cons_drop, List.take_append_drop]
  have before : ((states.toList.take id).flatMap (·.cores)).length = state.firstItem := by
    rw [List.length_flatMap, numbered, Builder.lengths, List.map_take]
  have whole := items_between ((states.toList.take id).flatMap (·.cores))
    ((states.toList.drop (id + 1)).flatMap (·.cores)) state.cores
  rw [← List.flatMap_cons, ← List.flatMap_append, ← split, before] at whole
  exact whole

theorem intern_eq (wellFormed : g.WellFormed) {kernel : List Core}
    (isOf : ∀ core ∈ kernel, core.IsOf g) (builder : Builder) :
    intern g kernel builder = some (builder.intern g kernel) := by
  have enough := Grammar.card_unexpanded_le g ∅
  rw [intern, Builder.intern, expansion_eq wellFormed isOf enough]
  cases builder.kernels[kernel]? <;> rfl

theorem internAll_eq (defined : g.IsDefined) {popped : Nat} {builder : Builder}
    (sound : builder.Sound g popped) {cores : List Core} (isOf : ∀ core ∈ cores, core.IsOf g)
    {id : StateId} (inside : id < builder.states.size) (symbols : List Symbol) :
    internAll g id cores symbols builder =
      some (builder.internAll g (g.moves cores) symbols) := by
  induction symbols generalizing builder with
  | nil => rfl
  | cons symbol rest ih =>
      have isKernel := g.isKernel_goto cores symbol
      rw [internAll, goto_eq defined isOf, Option.bind_eq_bind, Option.bind_some,
        intern_eq defined.wellFormed isKernel.cores]
      cases first : builder.intern g (movesAcross (g.moves cores) symbol) with
      | mk target middle =>
          obtain ⟨middleSound, extended, _⟩ := sound.intern isKernel first
          have inside' := Nat.lt_of_lt_of_le inside extended.size_le
          have goto : builder.intern g (g.goto cores symbol) = (target, middle) := first
          simp only [goto, Builder.internAll, first, Option.bind_eq_bind, Option.bind_some,
            Array.getElem?_eq_getElem inside', ih middleSound inside']
          rfl

theorem expand_eq (defined : g.IsDefined) {popped : Nat} {builder : Builder}
    (sound : builder.Sound g popped) {id : StateId} (inside : id < builder.states.size) :
    expand g id builder = some (builder.expand g id) := by
  have found := Array.getElem?_eq_getElem inside
  generalize builder.states[id] = state at found
  have isOf := sound.isOf defined.wellFormed found
  rw [expand, Builder.expand, found]
  simp only [Option.bind_eq_bind, Option.bind_some, items_eq found (sound.numbered found),
    state.map_fst_items, outgoing_eq isOf, internAll_eq defined sound isOf inside]
  rfl

theorem run_eq (defined : g.IsDefined) {popped : Nat} {builder : Builder}
    (invariant : builder.Invariant g popped) {bound : Nat}
    (ended : (builder.run g bound).queue.pop = none) :
    run g bound builder = some (builder.run g bound) := by
  induction bound generalizing popped builder with
  | zero =>
      rw [Builder.run] at ended ⊢
      rw [run, ended]
  | succ bound ih =>
      rw [Builder.run] at ended ⊢
      rw [run]
      cases taken : builder.queue.pop with
      | none => rfl
      | some next =>
          obtain ⟨id, queue⟩ := next
          obtain ⟨rfl, inside, sound⟩ := invariant.toSound.pop taken
          rw [taken] at ended
          simp only [expand_eq defined sound inside, Option.bind_eq_bind, Option.bind_some]
          exact ih (invariant.expand taken) ended

/-- The construction of an automaton never fails. -/
theorem build_eq (defined : g.IsDefined) : build g = some (Automaton.build g) := by
  have start : ∀ core ∈ [(⟨acceptProduction, 0⟩ : Core)], core.IsOf g := by
    intro core member
    rw [List.mem_singleton.1 member]
    exact ⟨_, defined.wellFormed.augmented, Nat.zero_le _⟩
  have finished := run_eq defined (Builder.invariant_start defined.wellFormed)
    (Builder.run_start_ended defined.wellFormed)
  rw [Builder.start] at finished
  rw [build, intern_eq defined.wellFormed start, Option.bind_eq_bind, Option.bind_some, finished]
  rfl

end Strict

end Lalr
