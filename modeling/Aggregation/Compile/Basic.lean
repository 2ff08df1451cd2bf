import Aggregation.Compile.Config
import Aggregation.Pipeline.Emission

/-! Compiling an expression: first no node may be a stranger, then accumulators are bound to groups, then stages are
emitted. A failing compilation yields no stage at all. -/

namespace Aggregation

structure Compilation where
  pipeline : Pipeline
  /-- The plans of the groups, in the order in which they were reached. -/
  groups : List GroupPlan
  eliminated : List Elimination
  deriving Repr

def checkCapabilities (root : Expr) : Except CompileError Unit :=
  match root.occurrences.find? Expr.isExtension with
  | some e => .error (.unhandled "capability-check" e)
  | none => .ok ()

namespace Compilation

/-- The result of a compilation, and what was logged on the way. -/
structure Run where
  result : Except CompileError Compilation
  log : List Log.Entry
  deriving Repr

/-- The steps of a compilation, with what is logged between its beginning and its end. -/
def steps (config : Config) (root : Expr) (supply : Supply) : Run :=
  match checkCapabilities root with
  | .error e => ⟨.error e, []⟩
  | .ok () =>
    match (plan config.stem root).run supply with
    | .error e => ⟨.error e, []⟩
    | .ok (planned, _) =>
      match emit config.eliminates planned.root with
      | .error e => ⟨.error e, planned.log⟩
      | .ok emission =>
        ⟨.ok ⟨emission.pipeline, planned.groups, emission.eliminated⟩,
          planned.log ++ emission.eliminated.map Elimination.entry⟩

def beginEntry (id : String) (root : Expr) : Log.Entry :=
  Log.Event.compileBegin.entry [("translation_id", id), ("root", root.kind.name)]

def endEntry (id : String) : Except CompileError Compilation → Log.Entry
  | .ok c => Log.Event.compileComplete.entry
    [("translation_id", id), ("collection", c.pipeline.collection),
      ("stages", toString c.pipeline.stages.length), ("groups", toString c.groups.length)]
  | .error e => Log.Event.compileRejected.entry
    [("translation_id", id), ("code", e.code), ("error_severity", e.severity), ("error", e.message)]

end Compilation

/-- Compiles an expression under a name for the log. The supply gives serials that are new to the expression. -/
def compile (config : Config) (id : String) (root : Expr) (supply : Supply) : Compilation.Run :=
  let run := Compilation.steps config root supply
  ⟨run.result, Compilation.beginEntry id root :: run.log ++ [Compilation.endEntry id run.result]⟩

end Aggregation
