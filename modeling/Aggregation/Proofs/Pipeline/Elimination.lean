import Aggregation.Pipeline.Elimination
import Aggregation.Proofs.Pipeline.Stages

/-!
Leaving out stages changes no result. No stage makes documents more, so there are fewer than counts can name at every
stage, and then a stage that keeps all is the identity and two skips or limits in turn are one.
-/

namespace Aggregation.Pipeline

open Lowering (drop_min runStage_skip runStage_limit)
open Reading (runStage)

variable {I : Interpretation} {rows rows' : List Document}

/-- No stage has more documents after it than before it. -/
theorem length_le_of_runStage {stage : Document} (h : runStage I stage rows = some rows') :
    rows'.length ≤ rows.length := by
  unfold runStage at h
  split at h
  · cases h
    exact List.length_filter_le _ _
  · cases h
    rw [List.length_map]
    exact I.length_groups_le _ _
  · cases h
    exact Nat.le_of_eq (List.length_map _)
  · obtain ⟨keys, -, rfl⟩ := Option.map_eq_some_iff.1 h
    exact Nat.le_of_eq (I.order_perm keys rows).length_eq
  · split at h
    · cases h
      rw [List.length_drop]
      exact Nat.sub_le _ _
    · cases h
  · split at h
    · cases h
      rw [List.length_take]
      exact Nat.min_le_right _ _
    · cases h
  · cases h

/-- The documents after stages. -/
def run (I : Interpretation) (stages : List Stage) (rows : List Document) : Option (List Document) :=
  Reading.run I (stages.map Stage.document) rows

theorem run_append (xs ys : List Stage) : run I (xs ++ ys) rows = (run I xs rows).bind (run I ys) := by
  rw [run, run, Reading.run, Reading.run, List.map_append, List.foldlM_append]
  rfl

theorem run_singleton (stage : Stage) : run I [stage] rows = runStage I stage.document rows := by
  show (runStage I stage.document rows).bind some = _
  exact Option.bind_fun_some _

theorem run_cons (stage : Stage) (rest : List Stage) :
    run I (stage :: rest) rows = (runStage I stage.document rows).bind (run I rest) := rfl

theorem length_le_of_run {stages : List Stage} (h : run I stages rows = some rows') :
    rows'.length ≤ rows.length := by
  induction stages generalizing rows with
  | nil =>
      cases h
      exact Nat.le_refl _
  | cons stage rest ih =>
      rw [run_cons] at h
      obtain ⟨between, hstage, hrest⟩ := Option.bind_eq_some_iff.1 h
      exact Nat.le_trans (ih hrest) (length_le_of_runStage hstage)

/-- Stages after others may be replaced by stages that do the same to few enough documents. -/
theorem run_append_congr {xs ys zs : List Stage} (hrows : rows.length < 2 ^ 63)
    (h : ∀ rows : List Document, rows.length < 2 ^ 63 → run I ys rows = run I zs rows) :
    run I (xs ++ ys) rows = run I (xs ++ zs) rows := by
  rw [run_append, run_append]
  cases hx : run I xs rows with
  | none => rfl
  | some between => exact h between (Nat.lt_of_le_of_lt (length_le_of_run hx) hrows)

theorem run_limit_limit (m n : Nat) (h : rows.length < 2 ^ 63) :
    run I [.limit (min m n)] rows = run I [.limit m, .limit n] rows := by
  have htake : (rows.take m).length < 2 ^ 63 := by
    rw [List.length_take]
    exact Nat.lt_of_le_of_lt (Nat.min_le_right _ _) h
  rw [run_cons _ [.limit n], run_singleton, runStage_limit _ h, runStage_limit _ h]
  by_cases hm : m = 0
  · rw [if_pos hm, if_pos (by omega)]
    rfl
  · rw [if_neg hm]
    show _ = run I [.limit n] (rows.take m)
    rw [run_singleton, runStage_limit _ htake]
    by_cases hn : n = 0
    · rw [if_pos hn, if_pos (by omega)]
    · rw [if_neg hn, if_neg (by omega), List.take_take, Nat.min_comm]

theorem run_skip_skip (m n : Nat) (h : rows.length < 2 ^ 63) :
    run I [.skip (min (m + n) maxSkip)] rows = run I [.skip m, .skip n] rows := by
  have hdrop : (rows.drop m).length < 2 ^ 63 := by
    rw [List.length_drop]
    exact Nat.lt_of_le_of_lt (Nat.sub_le _ _) h
  rw [run_cons _ [.skip n], run_singleton, runStage_skip _ h, runStage_skip _ h]
  show _ = run I [.skip n] (rows.drop m)
  rw [run_singleton, runStage_skip _ hdrop, List.drop_drop, drop_min _ (Nat.le_trans (Nat.le_of_lt h) (by decide))]

/-- Putting a stage after others and dropping it or merging it changes no result. -/
theorem run_append_stage (done : List Stage) (stage : Stage) (h : rows.length < 2 ^ 63) :
    run I (append done stage).1.reverse rows = run I (done.reverse ++ [stage]) rows := by
  unfold append
  split
  · show run I done.reverse rows = _
    conv_lhs => rw [← List.append_nil done.reverse]
    refine run_append_congr h fun rows _ => ?_
    rw [run_singleton]
    exact congrArg some (List.filter_eq_self.2 fun row _ => rfl).symm
  · show run I done.reverse rows = _
    conv_lhs => rw [← List.append_nil done.reverse]
    refine run_append_congr h fun rows hrows => ?_
    rw [run_singleton, runStage_skip _ hrows]
    rfl
  · next n m rest =>
      rw [List.reverse_cons, List.reverse_cons, List.append_assoc]
      exact run_append_congr h fun rows hrows => run_limit_limit m n hrows
  · next n m rest _ =>
      rw [List.reverse_cons, List.reverse_cons, List.append_assoc]
      exact run_append_congr h fun rows hrows => run_skip_skip m n hrows
  · rw [List.reverse_cons]

theorem run_appendAll (done stages : List Stage) (h : rows.length < 2 ^ 63) :
    run I (appendAll done stages).1 rows = run I (done.reverse ++ stages) rows := by
  induction stages generalizing done with
  | nil =>
      rw [appendAll, List.append_nil]
  | cons stage rest ih =>
      have hstep : ∀ ys, run I ((append done stage).1.reverse ++ ys) rows
          = run I (done.reverse ++ [stage] ++ ys) rows := by
        intro ys
        rw [run_append, run_append, run_append_stage done stage h]
      calc run I (appendAll done (stage :: rest)).1 rows
          = run I (appendAll (append done stage).1 rest).1 rows := rfl
        _ = run I ((append done stage).1.reverse ++ rest) rows := ih _
        _ = run I (done.reverse ++ [stage] ++ rest) rows := hstep rest
        _ = run I (done.reverse ++ stage :: rest) rows := by rw [List.append_assoc, List.singleton_append]

/-- The stages that are left do what all stages did. -/
theorem run_eliminate (stages : List Stage) (h : rows.length < 2 ^ 63) :
    run I (eliminate stages).1 rows = run I stages rows :=
  run_appendAll [] stages h

/-- The stages are taken in turn, so what comes after some of them starts from what is left of these. -/
theorem appendAll_append (done xs ys : List Stage) :
    appendAll done (xs ++ ys) = ((appendAll (appendAll done xs).1.reverse ys).1,
      (appendAll done xs).2 ++ (appendAll (appendAll done xs).1.reverse ys).2) := by
  induction xs generalizing done with
  | nil => rw [List.nil_append, appendAll, List.reverse_reverse, List.nil_append]
  | cons stage rest ih =>
      rw [List.cons_append, appendAll, appendAll]
      dsimp only
      rw [ih, List.append_assoc]

theorem length_append (done : List Stage) (stage : Stage) :
    (append done stage).1.length + (append done stage).2.toList.length = done.length + 1 := by
  unfold append
  split <;> rfl

theorem length_appendAll (done stages : List Stage) :
    (appendAll done stages).1.length + (appendAll done stages).2.length = done.length + stages.length := by
  induction stages generalizing done with
  | nil => simp [appendAll]
  | cons stage rest ih =>
      have hlast := length_append done stage
      have hrest := ih (append done stage).1
      simp only [appendAll, List.length_append, List.length_cons]
      omega

/-- Every stage stays or is told of. -/
theorem length_eliminate (stages : List Stage) :
    (eliminate stages).1.length + (eliminate stages).2.length = stages.length :=
  (length_appendAll [] stages).trans (Nat.zero_add _)

end Aggregation.Pipeline
