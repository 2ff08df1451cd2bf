import Aggregation.Expr.Build

/-! Resolvers mint scopes and tie accumulators to them. Scopes of all resolvers are distinct, and a resolver takes
only those that it minted itself. -/

namespace Aggregation

/-- The scopes that a resolver has minted, oldest first. -/
structure Resolver where
  scopes : List Scope := []
  deriving DecidableEq, Repr, Inhabited

namespace Resolver

def mint (r : Resolver) : Build (Scope × Resolver) := do
  let scope ← Build.mintScope
  return (scope, { r with scopes := r.scopes ++ [scope] })

def owns (r : Resolver) (scope : Scope) : Bool := r.scopes.contains scope

/-- Ties an accumulator to a scope. -/
def tag (r : Resolver) (inner : Expr) (scope : Scope) : Build Expr := do
  if ¬ r.owns scope then throw (.foreign scope)
  Build.correlated scope inner

end Resolver

end Aggregation
