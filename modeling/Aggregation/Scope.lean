/-! Scopes tie accumulators to the group stage that has to compute them. -/

namespace Aggregation

/-- The name of a group scope. -/
structure Scope where
  number : Nat
  deriving DecidableEq, Repr, Inhabited

def Scope.label (s : Scope) : String := "corr#" ++ toString s.number

end Aggregation
