import Lalr.Automaton.Printer
import Lalr.Generator

/-!
# Listings

A listing shows the grammar, every state with its items, actions and gotos, and the remarks.  Of the
lookaheads it shows those of reduction items, the only ones that matter to the table.  A remark is
written in one line, behind the word for its severity.
-/

namespace Lalr

/-! ## Remarks -/

def Severity.word : Severity → String
  | .note => "note"
  | .warning => "warning"

namespace Diagnostic

def message (g : Grammar) : Diagnostic → String
  | .conflict record => record.render g
  | .deadProduction p => s!"production #{p} is never reduced: {g.renderProductionId p}"
  | .unusedTerminal t => s!"terminal `{g.terminalName t}' is never used"

def render (g : Grammar) (diagnostic : Diagnostic) : String :=
  s!"{diagnostic.severity.word}: {diagnostic.message g}"

end Diagnostic

/-! ## The listing -/

def listedItem (g : Grammar) (lookaheads : Lookaheads) (mark : String) (core : Core) (item : Nat) :
    String :=
  mark ++ core.render g ++
    if core.isReduction g then "  " ++ g.renderTerminals (lookaheads.ofItem item) else ""

def listedState (g : Grammar) (output : Output) (state : State) (id : StateId) : List String :=
  let lookaheads := output.propagation.lookaheads
  [s!"#### State {id}", "## items"] ++
    state.kernelItems.map (fun (core, item) => listedItem g lookaheads "- " core item) ++
    state.addedItems.map (fun (core, item) => listedItem g lookaheads "+ " core item) ++
    ((output.table.rows[id]?.map (·.render g)).getD []) ++ [""]

def Output.listing (output : Output) (g : Grammar) : String :=
  let states := output.automaton.states.toList.zipIdx.flatMap fun (state, id) =>
    listedState g output state id
  let remarks := if output.diagnostics.isEmpty then ["(none)"] else
    output.diagnostics.map (·.render g)
  g.render ++ Text.lines ("" :: states ++ "## diagnostics" :: remarks)

end Lalr
