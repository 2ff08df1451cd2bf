import Aggregation.Compile.Basic

/-! Accounts of compilations for people. They do not name the run, so the same query has the same account. -/

namespace Aggregation

def joinLines (lines : List String) : String := String.join (lines.map (· ++ "\n"))

/-- The first line of an account. -/
def explainTitle : String := "=== EXPLAIN TRANSLATION ==="

def GroupPlan.explainLines (p : GroupPlan) : List String :=
  ("Group " ++ p.scope.label ++ ":") :: p.describe.map ("  - " ++ ·)

/-- The line about stages. -/
def explainStages (operators : List String) : String :=
  "Stages: " ++ if operators.isEmpty then "(none)" else " -> ".intercalate operators

/-- The lines about stages that are not there. -/
def explainEliminated (eliminated : List Elimination) : List String :=
  if eliminated.isEmpty then [] else "Eliminated:" :: eliminated.map fun e => "  - " ++ e.describe

/-- The account of a compilation that succeeded. -/
def Compilation.explain (c : Compilation) : String :=
  joinLines ([explainTitle, "Status: ACCEPTED", "Collection: " ++ c.pipeline.collection] ++
    c.groups.flatMap GroupPlan.explainLines ++ [explainStages c.pipeline.operators] ++
    explainEliminated c.eliminated)

/-- The account of a compilation that failed. -/
def CompileError.explain (e : CompileError) : String :=
  joinLines [explainTitle, "Status: REJECTED", "Error Code: " ++ e.code, "Severity: " ++ e.severity,
    "Reason: " ++ e.message]

end Aggregation
