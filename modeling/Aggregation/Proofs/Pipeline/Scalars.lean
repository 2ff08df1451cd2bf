import Aggregation.Proofs.Pipeline.Operators

/-!
Scalars and the values that they become. A database that reads the value of a scalar as an expression computes what
the scalar stands for. In a projection the same holds of the value that is made for it, in which nothing is read as
a flag.
-/

namespace Aggregation.Lowering

open Aggregation.Expr (Scalar)
open Reading (expression flag? projected)

variable {I : Interpretation} {row : Document} {members : List Document} {tied : Scope → Prop} {ok : String → Prop}
  {e : Expr} {v : Value}

/-- The value of a scalar, read as an expression, is what the scalar stands for. -/
theorem expression_lowerScalar (hs : Scalar tied ok e) (h : lowerScalar e = .ok v) :
    expression I row v = e.value I members row := by
  rw [← I.read_operators]
  exact (I.value_eq_of_result? (result?_eq_read_lowerScalar I.operators row hs.wellNamed h)).symm

/-- The value that a projection has for a scalar is no flag, and the projection reads it as what the scalar stands
for. -/
theorem projected_lowerProjected {path : String} (hn : e.WellNamed) (h : lowerProjected e = .ok v) :
    projected I row path v = e.value I members row ∧ flag? v = none := by
  have hflags := flag?_eq_none_of_lowerProjected hn h
  refine ⟨?_, Reading.flag?_eq_none hflags⟩
  rw [Reading.projected_eq_expression I v path hflags, ← I.read_operators]
  exact (I.value_eq_of_result? (result?_eq_read_lowerProjected I.operators row hn h)).symm

end Aggregation.Lowering
