import Aggregation.Proofs.Expr.Sessions
import Aggregation.Proofs.Pipeline.Acceptance
import Aggregation.Proofs.Pipeline.Operators
import Aggregation.Proofs.Pipeline.Predicates

/-!
What callers' scalars and predicates become. A scalar that a caller holds becomes a value if all its nodes compute, and
that value is read as an expression that has the result of the scalar, whatever the operators mean. A predicate becomes
a query of its own if it is built from comparisons, which says the same whatever comparisons are true.
-/

namespace Aggregation

universe u v

namespace Expr

variable {e : Expr}

/-- Nodes that are no accumulators, no pipelines and not of a host compute. -/
theorem computed_of_forall (h : ∀ d ∈ e.occurrences,
    d.isAccumulator = false ∧ d.isPipeline = false ∧ d.isExtension = false) : e.Computed := by
  intro d hd
  obtain ⟨haccumulator, hpipeline, hextension⟩ := h d hd
  cases d with
  | constant | field | binary | unary | document => rfl
  | accumulator | correlated => cases haccumulator
  | source | filter | group | project | sort | skip | limit => cases hpipeline
  | extension => cases hextension

end Expr

namespace Build

open Lowering (lowerProjected lowerQuery lowerScalar)

variable {s : Supply} {held : List Expr} {e : Expr}

/-- A scalar that a caller holds, without accumulators, pipelines and nodes of a host, becomes a value, and another one
in a projection. Under every interpretation of operators and on every row both are read as expressions that have the
result of the scalar, and a projection finds no flag in the one that is made for it. -/
theorem Held.lowered_results (h : Held s held) (he : e ∈ held) (hscalar : ∀ d ∈ e.occurrences,
      d.isAccumulator = false ∧ d.isPipeline = false ∧ d.isExtension = false) :
    ∃ x y, lowerScalar e = .ok x ∧ lowerProjected e = .ok y ∧
      (∀ (ρ : Type u) (α : Type v) (O : Operators ρ α) (row : ρ),
        ∃ result, O.result? row e = some result ∧ O.read row x = result ∧ O.read row y = result) ∧
      ∀ z ∈ Reading.flagPlaces y, Reading.flag? z = none := by
  have hn := (h.wellFormed he).wellNamed
  have hcomputed := Expr.computed_of_forall hscalar
  obtain ⟨x, hx⟩ := exists_of_isOk (Lowering.isOk_lowerScalar.2 hcomputed)
  obtain ⟨y, hy⟩ := exists_of_isOk (Lowering.isOk_lowerProjected.2 hcomputed)
  refine ⟨x, y, hx, hy, fun ρ α O row => ?_, Lowering.flag?_eq_none_of_lowerProjected hn hy⟩
  have hread := Lowering.result?_eq_read_lowerScalar O row hn hx
  have hprojected := Lowering.result?_eq_read_lowerProjected O row hn hy
  exact ⟨O.read row x, hread, rfl, Option.some.inj (hprojected.symm.trans hread)⟩

/-- A predicate that a caller holds has a query of its own exactly if it is built from comparisons of a field with a
constant. The query can be read in one way only and says what the predicate says, whatever comparisons are true. Any
other predicate is put into a query as an expression, and fails where that cannot be written. -/
theorem Held.lowered_query (h : Held s held) (he : e ∈ held) :
    ((Predicate.query? e).isSome = true ↔ Predicate.IsComparisons e) ∧
      (∀ query, Predicate.query? e = some query → lowerQuery e = .ok query ∧
        ∀ T : Assignment, ∃ b, T.truth? e = some b ∧ T.verdict? (.document query) = some b) ∧
      (Predicate.query? e = none → lowerQuery e = (lowerScalar e).map fun value => .single "$expr" value) := by
  refine ⟨Predicate.isSome_query?_iff, fun query hquery => ⟨?_, fun T => ?_⟩, fun hnone => ?_⟩
  · rw [lowerQuery, hquery]
  · exact Predicate.truth?_eq_verdict?_of_query? T (h.wellFormed he).wellNamed hquery
  · rw [lowerQuery, hnone]
    cases lowerScalar e with
    | error err => rfl
    | ok value => rfl

section Offers

def note : Expr := .constant ⟨0, .string⟩ (.string "$qty")

def rule : Expr := .constant ⟨1, .document⟩ (.document (.single "$sum" (.int32 1)))

def quantity : Expr := .field ⟨2, .int32⟩ "qty"

def debt : Expr := .unary ⟨3, .int32⟩ .negate quantity

/-- A document with constants that look like a path and like an operator, beside what is computed. -/
def offer : Expr := .document ⟨4, .document⟩ [("note", note), ("rule", rule), ("debt", debt)]

def ten : Expr := .constant ⟨5, .int32⟩ (.int32 10)

def isLow : Expr := .binary ⟨6, .bool⟩ .gt ten quantity

def isRule : Expr := .binary ⟨7, .bool⟩ .eq quantity rule

def isNoRule : Expr := .unary ⟨8, .bool⟩ .not isRule

/-- The comparison with the greater constant first, and the denial of equality to what looks like an operator. -/
def isWanted : Expr := .binary ⟨9, .bool⟩ .and isLow isNoRule

/-- What a caller holds that has made the document and the predicate. -/
def offers : List Expr := [isWanted, isNoRule, isRule, isLow, ten, offer, debt, quantity, rule, note]

theorem held_offers : Held ⟨10, 1⟩ offers := by
  have hnote : Held ⟨1, 1⟩ [note] := .node (.nothing ⟨0, 1⟩) (.constant (.string "$qty")) rfl
  have hrule : Held ⟨2, 1⟩ [rule, note] := .node hnote (.constant (.document (.single "$sum" (.int32 1)))) rfl
  have hquantity : Held ⟨3, 1⟩ [quantity, rule, note] :=
    .node hrule (.field "qty" .int32) (field_run_iff.2 ⟨by decide, rfl, rfl⟩)
  have hdebt : Held ⟨4, 1⟩ [debt, quantity, rule, note] :=
    .node hquantity (.unary .negate List.mem_cons_self) ((unary_makes _ _ _ _ _).2 ⟨.int32, rfl, ⟨rfl, rfl⟩, rfl⟩)
  have hcall : Call [debt, quantity, rule, note] (document [("note", note), ("rule", rule), ("debt", debt)]) :=
    .document (by simp)
  have hoffer : Held ⟨5, 1⟩ [offer, debt, quantity, rule, note] :=
    .node hdebt hcall ((document_makes _ _ _ _).2 ⟨.document, rfl, ⟨by decide, by decide, rfl⟩, rfl⟩)
  have hten : Held ⟨6, 1⟩ [ten, offer, debt, quantity, rule, note] := .node hoffer (.constant (.int32 10)) rfl
  have hlow : Held ⟨7, 1⟩ [isLow, ten, offer, debt, quantity, rule, note] :=
    .node hten (.binary .gt (by simp) (by simp)) ((binary_makes _ _ _ _ _ _).2 ⟨.bool, rfl, ⟨rfl, rfl, rfl⟩, rfl⟩)
  have hisRule : Held ⟨8, 1⟩ [isRule, isLow, ten, offer, debt, quantity, rule, note] :=
    .node hlow (.binary .eq (by simp) (by simp)) ((binary_makes _ _ _ _ _ _).2 ⟨.bool, rfl, ⟨rfl, rfl, rfl⟩, rfl⟩)
  have hisNoRule : Held ⟨9, 1⟩ [isNoRule, isRule, isLow, ten, offer, debt, quantity, rule, note] :=
    .node hisRule (.unary .not List.mem_cons_self) ((unary_makes _ _ _ _ _).2 ⟨.bool, rfl, ⟨rfl, rfl⟩, rfl⟩)
  exact .node hisNoRule (.binary .and (by simp) (by simp))
    ((binary_makes _ _ _ _ _ _).2 ⟨.bool, rfl, ⟨rfl, rfl, rfl⟩, rfl⟩)

/-- The document has one result in either form. -/
theorem lowered_results_offer : Held ⟨10, 1⟩ offers ∧
    ∃ x y, lowerScalar offer = .ok x ∧ lowerProjected offer = .ok y ∧
      (∀ (ρ : Type u) (α : Type v) (O : Operators ρ α) (row : ρ),
        ∃ result, O.result? row offer = some result ∧ O.read row x = result ∧ O.read row y = result) ∧
      ∀ z ∈ Reading.flagPlaces y, Reading.flag? z = none := by
  have hscalar : ∀ d ∈ offer.occurrences, d.isAccumulator = false ∧ d.isPipeline = false ∧ d.isExtension = false := by
    decide +kernel
  exact ⟨held_offers, held_offers.lowered_results (by simp [offers]) hscalar⟩

/-- The predicate has a query, which says what it says. -/
theorem lowered_query_isWanted : Held ⟨10, 1⟩ offers ∧
    ((Predicate.query? isWanted).isSome = true ↔ Predicate.IsComparisons isWanted) ∧
      (∀ query, Predicate.query? isWanted = some query → lowerQuery isWanted = .ok query ∧
        ∀ T : Assignment, ∃ b, T.truth? isWanted = some b ∧ T.verdict? (.document query) = some b) ∧
      (Predicate.query? isWanted = none →
        lowerQuery isWanted = (lowerScalar isWanted).map fun value => .single "$expr" value) :=
  ⟨held_offers, held_offers.lowered_query List.mem_cons_self⟩

end Offers

end Build

end Aggregation
