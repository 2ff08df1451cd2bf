import Aggregation.Correlation.Map
import Aggregation.Expr.Display
import Aggregation.Expr.Equality

/-! The outputs of a group. Every accumulator that is tied to the scope of a group becomes one of its outputs;
accumulators of one structure share an output, and a new output gets the first numbered name that is free. -/

namespace Aggregation

/-- The outputs of the group of a scope, and how many correlated accumulators read them. -/
structure GroupPlan where
  scope : Scope
  /-- The outputs that the group had, and then the new ones. -/
  outputs : List (String × Expr)
  occurrences : Nat
  deriving Repr

namespace GroupPlan

def names (p : GroupPlan) : List String := p.outputs.map Prod.fst

/-- Equality under which doubles in constants compare as numbers. -/
def numericEq (p q : GroupPlan) : Bool :=
  p.scope == q.scope && Expr.agreeEntries Value.numericEq p.outputs q.outputs && p.occurrences == q.occurrences

/-- A line for every output. -/
def describe (p : GroupPlan) : List String := p.outputs.map fun (name, e) => name ++ " = " ++ e.toText

end GroupPlan

/-- Which output a correlated accumulator reads, by the serial of its node. -/
abbrev Bindings := List (Nat × String)

namespace GroupPlan

def numbered (stem : String) (number : Nat) : String := stem ++ toString number

/-- The first number from `number` on whose name is not taken, looking at `fuel` names at most. -/
def freeNumber (stem : String) (taken : List String) : Nat → Nat → Nat
  | 0, number => number
  | fuel + 1, number =>
    if taken.contains (numbered stem number) then freeNumber stem taken fuel (number + 1) else number

/-- The state of naming: the outputs so far, the next number, and what reads which output. -/
structure Naming where
  outputs : List (String × Expr)
  nextNumber : Nat := 0
  bindings : Bindings
  deriving Repr

def sharedName? (outputs : List (String × Expr)) (e : Expr) : Option String :=
  (outputs.find? fun output => output.2.sameStructure e).map Prod.fst

/-- Gives a correlated accumulator its output. Of any `n + 1` names one is not among `n` taken ones. -/
def Naming.assign (stem : String) (s : Naming) : Expr → Naming
  | .correlated info _ inner =>
    match sharedName? s.outputs inner with
    | some name => { s with bindings := (info.serial, name) :: s.bindings }
    | none =>
      let number := freeNumber stem (s.outputs.map Prod.fst) s.outputs.length s.nextNumber
      let name := numbered stem number
      { outputs := s.outputs ++ [(name, inner)]
        nextNumber := number + 1
        bindings := (info.serial, name) :: s.bindings }
  | _ => s

/-- The plan of a group that has outputs already and whose scope has live accumulators. -/
def ofScope (stem : String) (scope : Scope) (existing : List (String × Expr)) (live : List Expr)
    (bindings : Bindings) : GroupPlan × Bindings :=
  let s := live.foldl (Naming.assign stem) { outputs := existing, bindings }
  (⟨scope, s.outputs, live.length⟩, s.bindings)

end GroupPlan

end Aggregation
