import Aggregation.Pipeline.Elimination
import Aggregation.Pipeline.Lowering

/-! From a planned expression to the pipeline that is sent. -/

namespace Aggregation

/-- A pipeline, and the stages that are not in it any more. -/
structure Emission where
  pipeline : Pipeline
  eliminated : List Elimination := []
  deriving DecidableEq, Repr

/-- The pipeline of an expression, with or without the stages that change nothing. -/
def emit (eliminates : Bool) (root : Expr) : Except CompileError Emission := do
  let (collection, stages) ← Lowering.lower root
  if eliminates then
    let (stages, eliminated) := Pipeline.eliminate stages
    return ⟨⟨collection, stages⟩, eliminated⟩
  else return ⟨⟨collection, stages⟩, []⟩

end Aggregation
