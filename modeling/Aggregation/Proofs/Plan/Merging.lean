import Aggregation.Proofs.Expr.Sessions
import Aggregation.Proofs.Pipeline.Relabel
import Aggregation.Proofs.Plan.Outputs

/-!
Accumulators that share an output. Having one structure is an equivalence, which may be told without looking into
children that are one node, and nodes of one structure are lowered to the same. So what an output computes is what each
of the accumulators that read it would compute in an output of its own.
-/

namespace Aggregation

namespace Expr

variable {c d e : Expr}

/-- Structural equality that does not look into children that are one node. -/
def sameShared (d e : Expr) : Bool :=
  d.type = e.type && d.payload = e.payload && d.children.length = e.children.length &&
    (d.children.attach.zip e.children).all fun p => p.1.val.isNode p.2 || p.1.val.sameShared p.2
termination_by sizeOf d
decreasing_by exact sizeOf_lt_of_mem_children p.1.2

theorem sameShared_iff : d.sameShared e = true ↔ d.type = e.type ∧ d.payload = e.payload ∧
    List.Forall₂ (fun c c' => c.isNode c' = true ∨ c.sameShared c' = true) d.children e.children := by
  have hall : (d.children.attach.zip e.children).all (fun p => p.1.val.isNode p.2 || p.1.val.sameShared p.2) =
      (d.children.zip e.children).all fun p => p.1.isNode p.2 || p.1.sameShared p.2 := by
    conv => rhs; rw [← List.attach_map_subtype_val d.children, List.zip_map_left, List.all_map]
    rfl
  rw [sameShared, hall, List.forall₂_iff_zip]
  simp only [Bool.and_eq_true, decide_eq_true_eq, List.all_eq_true, Bool.or_eq_true, Prod.forall, and_assoc]

/-- Where nodes with one serial are one node, nothing is lost by not looking into them. -/
theorem sameShared_eq_sameStructure {n : Nat} {held : List Expr} (hfresh : Fresh 0 n held)
    (hchildren : ∀ e ∈ held, ∀ c ∈ e.children, c ∈ held) (hd : d ∈ held) (he : e ∈ held) :
    d.sameShared e = d.sameStructure e := by
  induction d using induction_children generalizing e with
  | step d ih =>
      rw [Bool.eq_iff_iff, sameShared_iff, sameStructure_iff, List.forall₂_iff_zip, List.forall₂_iff_zip]
      refine and_congr_right fun _ => and_congr_right fun _ => and_congr_right fun _ => ?_
      refine forall_congr' fun c => forall_congr' fun c' => imp_congr_right fun hmem => ?_
      obtain ⟨hc, hc'⟩ := List.of_mem_zip hmem
      have hheld := hchildren d hd c hc
      have hheld' := hchildren e he c' hc'
      rw [ih c hc hheld hheld']
      refine or_iff_right_of_imp fun hnode => ?_
      rw [hfresh.eq_of_serial c hheld c' hheld' (beq_iff_eq.1 hnode)]
      exact c'.sameStructure_self

theorem sameStructure_equivalence : Equivalence fun d e : Expr => d.sameStructure e = true where
  refl := sameStructure_self
  symm := sameStructure_symm
  trans h h' := (agree_same_iff _ _).2 (((agree_same_iff _ _).1 h).trans ((agree_same_iff _ _).1 h'))

end Expr

open Lowering (lowerScalar lowerAccumulator)

variable {s : Supply} {held : List Expr}

/-- Having one structure is an equivalence, for constants that hold a NaN too; among the nodes that a caller holds it may
be told without looking into children that are one node; nodes of one structure have one type and are lowered to one
value or fail alike; and whatever is planned for a scope, an accumulator that is bound reads an output that is of its
type and is lowered to what the accumulator is lowered to. -/
theorem merging_sound (hheld : Build.Held s held) :
    Equivalence (fun d e : Expr => d.sameStructure e = true) ∧
    (∀ d ∈ held, ∀ e ∈ held, d.sameShared e = d.sameStructure e) ∧
    (∀ d e : Expr, d.sameStructure e = true →
      d.type = e.type ∧ lowerScalar d = lowerScalar e ∧ lowerAccumulator d = lowerAccumulator e) ∧
    ∀ stem scope existing live, ∀ b ∈ (GroupPlan.ofScope stem scope existing live []).2,
      ∃ i scope' inner e, .correlated i scope' inner ∈ live ∧ i.serial = b.1 ∧
        (b.2, e) ∈ (GroupPlan.ofScope stem scope existing live []).1.outputs ∧ e.type = inner.type ∧
        lowerAccumulator e = lowerAccumulator inner := by
  have hlowered (d e : Expr) (h : d.sameStructure e = true) :
      d.type = e.type ∧ lowerScalar d = lowerScalar e ∧ lowerAccumulator d = lowerAccumulator e :=
    ⟨(Expr.sameStructure_iff.1 h).1, Lowering.lowerScalar_eq_of_sameStructure h,
      Lowering.lowerAccumulator_eq_of_sameStructure h⟩
  refine ⟨Expr.sameStructure_equivalence, fun d hd e he => ?_, hlowered, fun stem scope existing live b hb => ?_⟩
  · exact Expr.sameShared_eq_sameStructure hheld.sound.fresh hheld.sound.children hd he
  · obtain ⟨naming, ⟨-, new, hbindings, hbound⟩, hplan⟩ : ∃ naming, GroupPlan.Named existing [] live naming ∧
        GroupPlan.ofScope stem scope existing live [] = _ := GroupPlan.named_ofScope scope []
    rw [hplan] at hb ⊢
    rw [hbindings, List.append_nil] at hb
    obtain ⟨i, scope', inner, hmem, hserial, e, he, hsame⟩ := hbound b hb
    obtain ⟨htype, -, haccumulator⟩ := hlowered e inner hsame
    exact ⟨i, scope', inner, e, hmem, hserial, he, htype, haccumulator⟩

/-- Two largest values of NaNs that are built apart. They are no equal numbers, but of one structure, and one output is
enough for both. -/
theorem merging_sound_nan :
    let nan (n : Nat) : Expr := .constant ⟨n, .double⟩ (.double ⟨0x7FF8000000000000⟩)
    let largest (n : Nat) : Expr := .accumulator ⟨n + 1, .double⟩ .max (some (nan n))
    let live : List Expr := [.correlated ⟨4, .double⟩ ⟨1⟩ (largest 0), .correlated ⟨5, .double⟩ ⟨1⟩ (largest 2)]
    Build.Held ⟨4, 1⟩ [largest 2, nan 2, largest 0, nan 0] ∧ (largest 0).numericEq (largest 2) = false ∧
      (largest 0).sameShared (largest 2) = true ∧ lowerAccumulator (largest 0) = lowerAccumulator (largest 2) ∧
      (GroupPlan.ofScope "total" ⟨1⟩ [] live []).2 = [(5, "total0"), (4, "total0")] := by
  intro nan largest live
  have hnan (n : Nat) : (Build.constant (.double ⟨0x7FF8000000000000⟩)).run ⟨n, 1⟩ = .ok (nan n, ⟨n + 1, 1⟩) := rfl
  have hlargest (n : Nat) : (Build.accumulator .max (some (nan n))).run ⟨n + 1, 1⟩ =
      .ok (largest n, ⟨n + 2, 1⟩) := by
    refine (Build.accumulator_makes .max _ _ _ _).2 ⟨.double, rfl, ⟨fun e he => ?_, rfl⟩, rfl⟩
    cases he
    refine ⟨rfl, ?_⟩
    rw [Expr.containsAccumulator, Expr.occurrences_eq]
    rfl
  have hheld : Build.Held ⟨4, 1⟩ [largest 2, nan 2, largest 0, nan 0] := by
    refine .node (.node (.node (.node (.nothing ⟨0, 1⟩) ?_ (hnan 0)) ?_ (hlargest 0)) ?_ (hnan 2)) ?_ (hlargest 2)
    · exact .constant (.double ⟨0x7FF8000000000000⟩)
    · exact .accumulator .max (by simp)
    · exact .constant (.double ⟨0x7FF8000000000000⟩)
    · exact .accumulator .max (by simp)
  obtain ⟨-, hshared, hlowered, -⟩ := merging_sound hheld
  have hsame : (largest 0).sameStructure (largest 2) = true := by decide
  refine ⟨hheld, by decide, ?_, (hlowered _ _ hsame).2.2, by decide⟩
  rw [hshared _ (by simp) _ (by simp)]
  exact hsame

end Aggregation
