import Aggregation.Proofs.Pipeline.Elimination
import Mathlib.Data.List.Chain
import Mathlib.Data.List.Induction
import Mathlib.Data.List.Infix

/-!
What is left of stages after those that change nothing have gone. Filters, groups, projections and sorts may do anything
to documents here; only counts have a meaning. The stages that are left then have the same documents as all of them had,
also with the counts that can be written, and nothing more can be left out of them.
-/

namespace Aggregation

namespace Stage

/-- Whether two stages in turn can be one. -/
def merges : Stage → Stage → Bool
  | .skip _, .skip _ | .limit _, .limit _ => true
  | _, _ => false

theorem merges_limit (stage : Stage) (m n : Nat) : stage.merges (.limit m) = stage.merges (.limit n) := by
  cases stage <;> rfl

theorem merges_skip (stage : Stage) (m n : Nat) : stage.merges (.skip m) = stage.merges (.skip n) := by
  cases stage <;> rfl

end Stage

namespace Pipeline

/-- What there may be after a stage has been put after others, of which the last comes first. -/
inductive Appends : List Stage → Stage → List Stage → Prop
  | keep (done : List Stage) : Appends done .keep done
  | nothing (done : List Stage) : Appends done (.skip 0) done
  | limit (m n : Nat) (rest : List Stage) : Appends (.limit m :: rest) (.limit n) (.limit (min m n) :: rest)
  | skip (m n : Nat) (rest : List Stage) (hcount : n ≠ 0) :
      Appends (.skip m :: rest) (.skip n) (.skip (min (m + n) maxSkip) :: rest)
  | push (done : List Stage) (stage : Stage) (hkeep : stage ≠ .keep) (hskip : stage ≠ .skip 0)
      (hlast : ∀ last ∈ done.head?, last.merges stage = false) : Appends done stage (stage :: done)

variable {done next stages : List Stage} {stage : Stage}

theorem append_eq_push (hkeep : stage ≠ .keep) (hskip : stage ≠ .skip 0)
    (hlast : ∀ last ∈ done.head?, last.merges stage = false) : append done stage = (stage :: done, none) := by
  unfold append
  split
  · exact absurd rfl hkeep
  · exact absurd rfl hskip
  · cases hlast _ rfl
  · cases hlast _ rfl
  · rfl

theorem appends_append (done : List Stage) (stage : Stage) : Appends done stage (append done stage).1 := by
  unfold append
  split
  · exact .keep _
  · exact .nothing _
  · exact .limit _ _ _
  · next hcount => exact .skip _ _ _ hcount
  · next hkeep hskip hlimit hskips =>
      refine .push _ _ hkeep hskip fun last hmem => ?_
      obtain ⟨rest, rfl⟩ := List.head?_eq_some_iff.1 hmem
      cases last <;> cases stage <;> first | rfl | exact (hlimit _ _ _ rfl rfl).elim | exact (hskips _ _ _ rfl rfl).elim

/-- The last stage is put after what is left of the others. -/
theorem eliminate_concat (stages : List Stage) (stage : Stage) :
    eliminate (stages ++ [stage])
      = ((append (eliminate stages).1.reverse stage).1.reverse,
          (eliminate stages).2 ++ (append (eliminate stages).1.reverse stage).2.toList) := by
  rw [eliminate, appendAll_append, appendAll]
  dsimp only
  rw [appendAll, List.append_nil]
  rfl

/-- Stages of which none can be left out or be one with the next. -/
structure Irredundant (stages : List Stage) : Prop where
  keep_notMem : .keep ∉ stages
  skip_notMem : .skip 0 ∉ stages
  apart : stages.IsChain fun a b => a.merges b = false

theorem irredundant_concat : Irredundant (stages ++ [stage]) ↔
    Irredundant stages ∧ stage ≠ .keep ∧ stage ≠ .skip 0 ∧ ∀ last ∈ stages.getLast?, last.merges stage = false := by
  constructor
  · rintro ⟨hkeep, hskip, hapart⟩
    rw [List.mem_append, not_or, List.mem_singleton] at hkeep hskip
    obtain ⟨hstages, -, hlast⟩ := List.isChain_append.1 hapart
    exact ⟨⟨hkeep.1, hskip.1, hstages⟩, Ne.symm hkeep.2, Ne.symm hskip.2, fun last h => hlast last h stage rfl⟩
  · rintro ⟨⟨hkeep, hskip, hapart⟩, hstage, hcount, hlast⟩
    refine ⟨?_, ?_, List.isChain_append.2 ⟨hapart, .singleton _, ?_⟩⟩
    · rw [List.mem_append, not_or, List.mem_singleton]
      exact ⟨hkeep, Ne.symm hstage⟩
    · rw [List.mem_append, not_or, List.mem_singleton]
      exact ⟨hskip, Ne.symm hcount⟩
    · intro last h next hnext
      cases hnext
      exact hlast last h

theorem Irredundant.appends (h : Irredundant done.reverse) (hnext : Appends done stage next) :
    Irredundant next.reverse := by
  cases hnext with
  | keep | nothing => exact h
  | limit m n rest =>
      rw [List.reverse_cons] at h ⊢
      obtain ⟨hrest, -, -, hlast⟩ := irredundant_concat.1 h
      refine irredundant_concat.2 ⟨hrest, by simp, by simp, fun last hmem => ?_⟩
      rw [last.merges_limit _ m]
      exact hlast last hmem
  | skip m n rest hcount =>
      rw [List.reverse_cons] at h ⊢
      obtain ⟨hrest, -, -, hlast⟩ := irredundant_concat.1 h
      have hpositive : 0 < min (m + n) maxSkip := Nat.lt_min.2 ⟨by omega, by decide⟩
      refine irredundant_concat.2 ⟨hrest, by simp, fun heq => ?_, fun last hmem => ?_⟩
      · exact Nat.ne_of_gt hpositive (Stage.skip.inj heq)
      · rw [last.merges_skip _ m]
        exact hlast last hmem
  | push _ _ hkeep hskip hlast =>
      rw [List.reverse_cons]
      rw [← List.getLast?_reverse] at hlast
      exact irredundant_concat.2 ⟨h, hkeep, hskip, hlast⟩

/-- Nothing more can be left out of what is left. -/
theorem irredundant_eliminate (stages : List Stage) : Irredundant (eliminate stages).1 := by
  induction stages using List.reverseRecOn with
  | nil => exact ⟨List.not_mem_nil, List.not_mem_nil, .nil⟩
  | append_singleton stages stage ih =>
      rw [eliminate_concat]
      have hreverse : Irredundant (eliminate stages).1.reverse.reverse := (List.reverse_reverse _).symm ▸ ih
      exact hreverse.appends (appends_append _ stage)

theorem Irredundant.eliminate_eq (h : Irredundant stages) : eliminate stages = (stages, []) := by
  induction stages using List.reverseRecOn with
  | nil => rfl
  | append_singleton stages stage ih =>
      obtain ⟨hstages, hkeep, hskip, hlast⟩ := irredundant_concat.1 h
      rw [← List.head?_reverse] at hlast
      rw [eliminate_concat, ih hstages, append_eq_push hkeep hskip hlast, List.reverse_cons, List.reverse_reverse]
      rfl

theorem limit_notMem_appends (h : Appends done stage next) (hdone : .limit 0 ∉ done) (hstage : stage ≠ .limit 0) :
    .limit 0 ∉ next := by
  cases h with
  | keep | nothing => exact hdone
  | limit m n rest =>
      have hcount : n ≠ 0 := fun hzero => hstage (hzero ▸ rfl)
      rw [List.mem_cons, not_or, Stage.limit.injEq] at hdone ⊢
      exact ⟨by omega, hdone.2⟩
  | skip m n rest =>
      rw [List.mem_cons, not_or] at hdone ⊢
      exact ⟨by simp, hdone.2⟩
  | push =>
      rw [List.mem_cons, not_or]
      exact ⟨Ne.symm hstage, hdone⟩

theorem limit_notMem_eliminate (h : .limit 0 ∉ stages) : .limit 0 ∉ (eliminate stages).1 := by
  induction stages using List.reverseRecOn with
  | nil => exact h
  | append_singleton stages stage ih =>
      rw [List.mem_append, not_or, List.mem_singleton] at h
      rw [eliminate_concat, List.mem_reverse]
      refine limit_notMem_appends (appends_append _ stage) ?_ (Ne.symm h.2)
      rw [List.mem_reverse]
      exact ih h.1

end Pipeline

/-- What the stages do that are not counts. -/
structure Effects where
  filter : Document → List Document → List Document
  group : Document → List Document → List Document
  project : Document → List Document → List Document
  sort : Document → List Document → List Document

namespace Effects

open Lowering (drop_min exists_countValue take_min)
open Pipeline (Appends Irredundant appends_append eliminate eliminate_concat irredundant_eliminate length_eliminate
  limit_notMem_eliminate maxSkip)

variable (E : Effects) {stages : List Stage} {rows : List Document}

/-- What a stage does. -/
def apply : Stage → List Document → List Document
  | .filter query, rows => E.filter query rows
  | .keep, rows => rows
  | .group spec, rows => E.group spec rows
  | .project spec, rows => E.project spec rows
  | .sort spec, rows => E.sort spec rows
  | .skip count, rows => rows.drop count
  | .limit count, rows => rows.take count

/-- What stages do in turn. -/
def applyAll (stages : List Stage) (rows : List Document) : List Document :=
  stages.foldl (fun rows stage => E.apply stage rows) rows

/-- What a stage does as it is written, with the count that is written there. A limit must be positive. -/
def serve (stage : Document) (rows : List Document) : Option (List Document) :=
  match stage.entries with
  | [("$match", .document query)] => some (E.filter query rows)
  | [("$group", .document spec)] => some (E.group spec rows)
  | [("$project", .document spec)] => some (E.project spec rows)
  | [("$sort", .document spec)] => some (E.sort spec rows)
  | [("$skip", .int64 count)] => if 0 ≤ count.toInt then some (rows.drop count.toInt.toNat) else none
  | [("$limit", .int64 count)] => if 0 < count.toInt then some (rows.take count.toInt.toNat) else none
  | _ => none

/-- What stages do in turn as they are written. -/
def serveAll (stages : List Document) (rows : List Document) : Option (List Document) :=
  stages.foldlM (fun rows stage => E.serve stage rows) rows

/-- Before, between and after stages there are no more documents than the largest count that can be written. -/
def Counted (stages : List Stage) (rows : List Document) : Prop :=
  ∀ done, done <+: stages → (E.applyAll done rows).length < 2 ^ 63

variable {E} {done next : List Stage} {stage : Stage}

theorem applyAll_concat (stages : List Stage) (stage : Stage) :
    E.applyAll (stages ++ [stage]) rows = E.apply stage (E.applyAll stages rows) := by
  rw [applyAll, List.foldl_append]
  rfl

theorem serveAll_concat (stages : List Document) (stage : Document) :
    E.serveAll (stages ++ [stage]) rows = (E.serveAll stages rows).bind (E.serve stage) := by
  rw [serveAll, List.foldlM_append]
  show (E.serveAll stages rows).bind (fun rows => (E.serve stage rows).bind some) = _
  simp only [Option.bind_fun_some]

theorem counted_concat :
    E.Counted (stages ++ [stage]) rows ↔
      E.Counted stages rows ∧ (E.apply stage (E.applyAll stages rows)).length < 2 ^ 63 := by
  unfold Counted
  simp only [List.prefix_concat_iff, forall_eq_or_imp, applyAll_concat]
  exact And.comm

theorem Counted.length_lt (h : E.Counted stages rows) : (E.applyAll stages rows).length < 2 ^ 63 :=
  h stages (List.prefix_refl stages)

/-- A stage does what it says, where a count that is too large leaves no document or every one. -/
theorem serve_document (hkeep : stage ≠ .keep) (hlimit : stage ≠ .limit 0)
    (h : rows.length < 2 ^ 63) : E.serve stage.document rows = some (E.apply stage rows) := by
  cases stage with
  | keep => exact absurd rfl hkeep
  | filter | group | project | sort => rfl
  | skip count =>
      obtain ⟨n, hvalue, hn⟩ := exists_countValue count
      show E.serve ⟨[("$skip", Stage.countValue count)]⟩ rows = some (rows.drop count)
      rw [hvalue]
      show (if 0 ≤ n.toInt then some (rows.drop n.toInt.toNat) else none) = _
      rw [hn, if_pos (Int.natCast_nonneg _), Int.toNat_natCast, drop_min count (by omega)]
  | limit count =>
      obtain ⟨n, hvalue, hn⟩ := exists_countValue count
      have hpositive : count ≠ 0 := fun hzero => hlimit (hzero ▸ rfl)
      show E.serve ⟨[("$limit", Stage.countValue count)]⟩ rows = some (rows.take count)
      rw [hvalue]
      show (if 0 < n.toInt then some (rows.take n.toInt.toNat) else none) = _
      rw [hn, if_pos (by omega), Int.toNat_natCast, take_min count (by omega)]

/-- Stages do what they say as they are written, if all of them can be written. -/
theorem serveAll_documents (hkeep : .keep ∉ stages) (hlimit : .limit 0 ∉ stages) (h : E.Counted stages rows) :
    E.serveAll (stages.map Stage.document) rows = some (E.applyAll stages rows) := by
  induction stages using List.reverseRecOn with
  | nil => rfl
  | append_singleton stages stage ih =>
      rw [List.mem_append, not_or, List.mem_singleton] at hkeep hlimit
      obtain ⟨hstages, -⟩ := counted_concat.1 h
      rw [List.map_append, List.map_singleton, serveAll_concat, ih hkeep.1 hlimit.1 hstages, applyAll_concat]
      exact serve_document (Ne.symm hkeep.2) (Ne.symm hlimit.2) hstages.length_lt

/-- A stage that has been put after others does what it says after them. -/
theorem applyAll_appends (h : Appends done stage next) (hrows : E.Counted done.reverse rows) :
    E.applyAll next.reverse rows = E.apply stage (E.applyAll done.reverse rows) := by
  cases h with
  | keep => rfl
  | nothing => exact List.drop_zero.symm
  | limit m n rest =>
      rw [List.reverse_cons, List.reverse_cons, applyAll_concat, applyAll_concat]
      show List.take (min m n) _ = List.take n (List.take m _)
      rw [List.take_take, Nat.min_comm]
  | skip m n rest =>
      rw [List.reverse_cons] at hrows
      have hbetween : (E.applyAll rest.reverse rows).length ≤ maxSkip :=
        Nat.le_trans (Nat.le_of_lt (counted_concat.1 hrows).1.length_lt) (by decide)
      rw [List.reverse_cons, List.reverse_cons, applyAll_concat, applyAll_concat]
      show List.drop (min (m + n) maxSkip) _ = List.drop n (List.drop m _)
      rw [drop_min _ hbetween, List.drop_drop]
  | push =>
      rw [List.reverse_cons, applyAll_concat]

theorem counted_appends (h : Appends done stage next) (hrows : E.Counted (done.reverse ++ [stage]) rows) :
    E.Counted next.reverse rows := by
  obtain ⟨hdone, hlast⟩ := counted_concat.1 hrows
  rw [← applyAll_appends h hdone] at hlast
  have hshorter (last : Stage) (rest : List Stage) (hrest : done = last :: rest) : E.Counted rest.reverse rows := by
    rw [hrest, List.reverse_cons] at hdone
    exact (counted_concat.1 hdone).1
  cases h with
  | keep | nothing => exact hdone
  | limit | skip =>
      rw [List.reverse_cons] at hlast ⊢
      rw [applyAll_concat] at hlast
      exact counted_concat.2 ⟨hshorter _ _ rfl, hlast⟩
  | push => rwa [List.reverse_cons]

/-- What is left of stages does what they all do, and never has more documents than they have. -/
theorem applyAll_eliminate (h : E.Counted stages rows) :
    E.applyAll (eliminate stages).1 rows = E.applyAll stages rows ∧ E.Counted (eliminate stages).1 rows := by
  induction stages using List.reverseRecOn with
  | nil => exact ⟨rfl, h⟩
  | append_singleton stages stage ih =>
      obtain ⟨hstages, hlast⟩ := counted_concat.1 h
      obtain ⟨hsame, hcounted⟩ := ih hstages
      have happends := appends_append (eliminate stages).1.reverse stage
      have hdone : E.Counted ((eliminate stages).1.reverse.reverse ++ [stage]) rows := by
        rw [List.reverse_reverse, counted_concat, hsame]
        exact ⟨hcounted, hlast⟩
      rw [eliminate_concat, applyAll_appends happends (counted_concat.1 hdone).1, List.reverse_reverse, hsame,
        applyAll_concat]
      exact ⟨rfl, counted_appends happends hdone⟩

/-- What is left of stages is sent and gives the documents that all of them would have given, whatever filters, groups,
projections and sorts do, while there are no more documents than a count can tell. Nothing more can be left out of it,
and every other stage is told of. -/
theorem serveAll_eliminate (E : Effects) {stages : List Stage} {rows : List Document} (hlimit : .limit 0 ∉ stages)
    (h : E.Counted stages rows) :
    E.serveAll ((eliminate stages).1.map Stage.document) rows = some (E.applyAll stages rows) ∧
      Irredundant (eliminate stages).1 ∧ eliminate (eliminate stages).1 = ((eliminate stages).1, []) ∧
      (eliminate stages).1.length + (eliminate stages).2.length = stages.length := by
  have hirredundant := irredundant_eliminate stages
  obtain ⟨hsame, hcounted⟩ := applyAll_eliminate h
  refine ⟨?_, hirredundant, hirredundant.eliminate_eq, length_eliminate stages⟩
  rw [serveAll_documents hirredundant.keep_notMem (limit_notMem_eliminate hlimit) hcounted, hsame]

/-- Dropped stages make neighbours of two skips and of two limits. -/
theorem serveAll_eliminate_neighbours :
    let E : Effects := ⟨fun _ rows => rows, fun _ rows => rows, fun _ rows => rows, fun _ rows => rows.reverse⟩
    let stages : List Stage := [.skip 1, .keep, .skip 1, .limit 4, .skip 0, .limit 2, .sort .empty, .limit 1]
    let rows : List Document := [.single "n" (.int32 0), .single "n" (.int32 1), .single "n" (.int32 2),
      .single "n" (.int32 3), .single "n" (.int32 4)]
    .limit 0 ∉ stages ∧ E.Counted stages rows ∧
      E.serveAll ((eliminate stages).1.map Stage.document) rows = some [.single "n" (.int32 3)] ∧
      (eliminate stages).1 = [.skip 2, .limit 2, .sort .empty, .limit 1] := by
  intro E stages rows
  have hlimit : .limit 0 ∉ stages := by decide
  have hcounted : E.Counted stages rows := by
    intro done hdone
    have hall : ∀ done ∈ stages.inits, (E.applyAll done rows).length < 2 ^ 63 := by decide +kernel
    exact hall done (List.mem_inits _ _ |>.2 hdone)
  refine ⟨hlimit, hcounted, (serveAll_eliminate E hlimit hcounted).1.trans ?_, by decide +kernel⟩
  decide +kernel

end Effects

end Aggregation
