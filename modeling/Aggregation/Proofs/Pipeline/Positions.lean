import Aggregation.Pipeline.Emission
import Aggregation.Proofs.Expr.Places
import Aggregation.Proofs.Pipeline.Elimination

/-!
Which stage of a pipeline comes from which node. Every pipeline adds one stage to those of the pipeline that it reads
from, and leaving out stages moves nothing past a stage that stays. Matches, sorts, skips and limits hand on documents
as they are, so the documents that a stage reads have been made by the last group or projection before it.
-/

namespace Aggregation

namespace Expr

/-- Whether a pipeline makes new documents. -/
def reshapes (e : Expr) : Bool := e.kind = .group || e.kind = .project

/-- The pipeline that has made the documents of a pipeline: the nearest group or projection. -/
def maker? (e : Expr) : Option Expr := e.chain.find? reshapes

end Expr

namespace Stage

/-- Whether a stage hands on documents as they are. -/
def handsOn : Stage → Bool
  | .group _ | .project _ => false
  | .filter _ | .keep | .sort _ | .skip _ | .limit _ => true

/-- Whether a stage is never left out and never merged. -/
def isSolid : Stage → Bool
  | .keep | .skip _ | .limit _ => false
  | .filter _ | .group _ | .project _ | .sort _ => true

end Stage

namespace Lowering

variable {e d g : Expr} {collection : String} {stages : List Stage}

/-- The stage that a pipeline adds to those of the pipeline that it reads from. -/
def ownStage : Expr → Except CompileError Stage
  | .filter _ _ predicate => lowerPredicate predicate
  | .group _ _ key _ outputs => do
    let key ← lowerScalar key
    let outputs ← lowerOutputs outputs
    return .group (.ofList (("_id", key) :: outputs))
  | .project _ _ projection => lowerProjection projection
  | .sort _ _ keys => .ok (.sort (.ofList (keys.map sortField)))
  | .skip _ _ count => .ok (.skip count)
  | .limit _ _ count => .ok (.limit count)
  | e => .error (unlowered "stage-emitter" e)

/-- A pipeline that is lowered is a source, or it adds its stage to those of the pipeline that it reads from. -/
theorem exists_of_lower (h : lower e = .ok (collection, stages)) :
    (∃ i, e = .source i collection ∧ stages = []) ∨
      ∃ input before stage, e.children[0]? = some input ∧ e.chain = e :: input.chain ∧
        lower input = .ok (collection, before) ∧ ownStage e = .ok stage ∧ stages = before ++ [stage] := by
  cases e with
  | source i collection =>
      cases h
      exact .inl ⟨i, rfl, rfl⟩
  | filter i input predicate | project i input projection =>
      obtain ⟨⟨_, before⟩, hbefore, h⟩ := bind_eq_ok.1 h
      obtain ⟨stage, hstage, h⟩ := bind_eq_ok.1 h
      cases h
      exact .inr ⟨input, before, stage, rfl, rfl, hbefore, hstage, rfl⟩
  | group i input key scope outputs =>
      obtain ⟨⟨_, before⟩, hbefore, h⟩ := bind_eq_ok.1 h
      obtain ⟨k, hkey, h⟩ := bind_eq_ok.1 h
      obtain ⟨values, hvalues, h⟩ := bind_eq_ok.1 h
      cases h
      exact .inr ⟨input, before, _, rfl, rfl, hbefore, bind_eq_ok.2 ⟨k, hkey, bind_eq_ok.2 ⟨values, hvalues, rfl⟩⟩, rfl⟩
  | sort i input keys | skip i input count | limit i input count =>
      obtain ⟨⟨_, before⟩, hbefore, h⟩ := bind_eq_ok.1 h
      cases h
      exact .inr ⟨input, before, _, rfl, rfl, hbefore, rfl, rfl⟩
  | constant | field | binary | unary | document | accumulator | correlated | extension => cases h

/-- The stages of a pipeline begin with those of every pipeline that it is made of. -/
theorem exists_upto {m : Nat} (hat : e.at? (List.replicate m 0) = some d) (h : lower e = .ok (collection, stages)) :
    ∃ upto later, lower d = .ok (collection, upto) ∧ stages = upto ++ later := by
  induction m generalizing e stages with
  | zero =>
      cases hat
      exact ⟨stages, [], h, (List.append_nil _).symm⟩
  | succ m ih =>
      obtain ⟨c, hc, hat⟩ := Option.bind_eq_some_iff.1 hat
      obtain ⟨i, rfl, -⟩ | ⟨input, before, stage, hinput, -, hbefore, -, rfl⟩ := exists_of_lower h
      · cases hc
      · cases hinput.symm.trans hc
        obtain ⟨upto, later, hupto, rfl⟩ := ih hat hbefore
        exact ⟨upto, later ++ [stage], hupto, List.append_assoc ..⟩

theorem handsOn_of_ownStage {stage : Stage} (h : ownStage e = .ok stage) (he : e.reshapes = false) :
    stage.handsOn = true := by
  cases e with
  | filter i input predicate =>
      simp only [ownStage] at h
      unfold lowerPredicate at h
      split at h
      · cases h
        rfl
      · obtain ⟨query, -, h⟩ := bind_eq_ok.1 h
        cases h
        rfl
  | sort | skip | limit =>
      cases h
      rfl
  | group | project => cases he
  | constant | field | binary | unary | document | accumulator | correlated | source | extension => cases h

/-- After the stage of the pipeline that has made the documents of a pipeline, documents are handed on as they are. -/
theorem exists_stage_of_maker? (hmaker : e.maker? = some g) (h : lower e = .ok (collection, stages)) :
    ∃ below stage between, stages = below ++ stage :: between ∧ ownStage g = .ok stage ∧
      ∀ s ∈ between, s.handsOn = true := by
  induction e using Expr.induction_children generalizing stages with
  | step e ih =>
      obtain ⟨i, rfl, -⟩ | ⟨input, before, stage, hinput, hchain, hbefore, hstage, rfl⟩ := exists_of_lower h
      · cases hmaker
      rw [Expr.maker?, hchain, List.find?_cons] at hmaker
      cases hshape : e.reshapes with
      | true =>
          rw [hshape] at hmaker
          cases hmaker
          exact ⟨before, stage, [], rfl, hstage, nofun⟩
      | false =>
          rw [hshape] at hmaker
          obtain ⟨below, made, between, rfl, hmade, hbetween⟩ := ih input (List.mem_of_getElem? hinput) hmaker hbefore
          refine ⟨below, made, between ++ [stage], ?_, hmade, ?_⟩
          · rw [List.append_assoc, List.cons_append]
          · exact List.forall_mem_append.2 ⟨hbetween, List.forall_mem_singleton.2 (handsOn_of_ownStage hstage hshape)⟩

end Lowering

namespace Pipeline

variable {I : Interpretation} {stage : Stage} {done older xs ys stages : List Stage} {rows rows' : List Document}

/-- What is put after a stage that stays does not touch what is before it. -/
theorem append_above (h : stage.isSolid = true) (done older : List Stage) (next : Stage) :
    (append (done ++ stage :: older) next).1 = (append done next).1 ++ stage :: older := by
  cases done with
  | nil =>
      cases next with
      | keep => rfl
      | skip count =>
          cases count with
          | zero => rfl
          | succ count => cases stage <;> first | rfl | cases h
      | limit count => cases stage <;> first | rfl | cases h
      | filter | group | project | sort => rfl
  | cons last done =>
      cases next with
      | keep => rfl
      | skip count =>
          cases count with
          | zero => rfl
          | succ count => cases last <;> rfl
      | limit count => cases last <;> rfl
      | filter | group | project | sort => rfl

theorem appendAll_above (h : stage.isSolid = true) (done older stages : List Stage) :
    (appendAll (done ++ stage :: older) stages).1 = older.reverse ++ stage :: (appendAll done stages).1 := by
  induction stages generalizing done with
  | nil => simp [appendAll]
  | cons next rest ih =>
      rw [appendAll, appendAll]
      dsimp only
      rw [append_above h, ih]

/-- Around a stage that stays, stages are left out on either side apart. -/
theorem eliminate_append (h : stage.isSolid = true) (xs ys : List Stage) :
    (eliminate (xs ++ stage :: ys)).1 = (eliminate xs).1 ++ stage :: (eliminate ys).1 := by
  have hpush : append (appendAll [] xs).1.reverse stage = (stage :: (appendAll [] xs).1.reverse, none) := by
    cases stage with
    | keep | skip | limit => cases h
    | filter | group | project | sort => rfl
  rw [eliminate, appendAll_append]
  dsimp only
  rw [appendAll, hpush]
  exact (appendAll_above h [] _ ys).trans (by rw [List.reverse_reverse]; rfl)

theorem mem_of_mem_append (h : stage.isSolid = true) {next : Stage} (hmem : stage ∈ (append done next).1) :
    stage = next ∨ stage ∈ done := by
  unfold append at hmem
  split at hmem
  · exact .inr hmem
  · exact .inr hmem
  · rcases List.mem_cons.1 hmem with rfl | hmem
    · cases h
    · exact .inr (List.mem_cons_of_mem _ hmem)
  · rcases List.mem_cons.1 hmem with rfl | hmem
    · cases h
    · exact .inr (List.mem_cons_of_mem _ hmem)
  · exact List.mem_cons.1 hmem

theorem mem_of_mem_appendAll (h : stage.isSolid = true) (hmem : stage ∈ (appendAll done stages).1) :
    stage ∈ done ∨ stage ∈ stages := by
  induction stages generalizing done with
  | nil => exact .inl (List.mem_reverse.1 hmem)
  | cons next rest ih =>
      rw [appendAll] at hmem
      rcases ih hmem with hdone | hrest
      · rcases mem_of_mem_append h hdone with rfl | hdone
        · exact .inr List.mem_cons_self
        · exact .inl hdone
      · exact .inr (List.mem_cons_of_mem _ hrest)

/-- What may be done to stages before they are sent: nothing is moved past a stage that stays, no such stage is new,
and the documents that come out are the same. -/
structure Tidies (f : List Stage → List Stage) : Prop where
  split : ∀ {stage}, stage.isSolid = true → ∀ xs ys, f (xs ++ stage :: ys) = f xs ++ stage :: f ys
  mem_of_mem : ∀ {stage}, stage.isSolid = true → ∀ {stages}, stage ∈ f stages → stage ∈ stages
  run_eq : ∀ I stages {rows : List Document}, rows.length < 2 ^ 63 → run I (f stages) rows = run I stages rows

theorem tidies_id : Tidies id := ⟨fun _ _ _ => rfl, fun _ _ h => h, fun _ _ _ _ => rfl⟩

theorem tidies_eliminate : Tidies fun stages => (eliminate stages).1 :=
  ⟨eliminate_append, fun h _ hmem => (mem_of_mem_appendAll h hmem).resolve_left List.not_mem_nil,
    fun _ stages _ h => run_eliminate stages h⟩

/-- The same is true of all stages as before, if it is true of the stages that may be left out or merged. -/
theorem Tidies.forall_mem_iff {f : List Stage → List Stage} {P : Stage → Prop} (hf : Tidies f)
    (h : ∀ s, s.isSolid = false → P s) : (∀ s ∈ f stages, P s) ↔ ∀ s ∈ stages, P s := by
  have hsolid (xs ys : List Stage) (hxy : ∀ s, s.isSolid = true → s ∈ ys → s ∈ xs) (hall : ∀ s ∈ xs, P s) :
      ∀ s ∈ ys, P s := by
    intro s hs
    cases hkind : s.isSolid with
    | true => exact hall s (hxy s hkind hs)
    | false => exact h s hkind
  -- a stage that stays splits the stages, so it is among those that are left
  refine ⟨hsolid _ _ fun s hs hmem => ?_, hsolid _ _ fun s hs hmem => hf.mem_of_mem hs hmem⟩
  obtain ⟨xs, ys, rfl⟩ := List.append_of_mem hmem
  rw [hf.split hs]
  exact List.mem_append_right _ List.mem_cons_self

/-- A stage that hands on documents as they are makes none. -/
theorem mem_of_runStage (h : stage.handsOn = true) (hrun : Reading.runStage I stage.document rows = some rows') :
    ∀ row ∈ rows', row ∈ rows := by
  intro row hrow
  cases stage with
  | filter query | keep =>
      cases hrun
      exact List.mem_of_mem_filter hrow
  | group | project => cases h
  | sort spec =>
      obtain ⟨keys, -, rfl⟩ := Option.map_eq_some_iff.1 hrun
      exact (I.order_perm keys rows).mem_iff.1 hrow
  | skip count =>
      replace hrun : (if 0 ≤ (Int64.ofNat (min count 0x7FFFFFFFFFFFFFFF)).toInt then
        some (rows.drop (Int64.ofNat (min count 0x7FFFFFFFFFFFFFFF)).toInt.toNat) else none) = some rows' := hrun
      split at hrun
      · cases hrun
        exact List.mem_of_mem_drop hrow
      · cases hrun
  | limit count =>
      replace hrun : (if 0 < (Int64.ofNat (min count 0x7FFFFFFFFFFFFFFF)).toInt then
        some (rows.take (Int64.ofNat (min count 0x7FFFFFFFFFFFFFFF)).toInt.toNat) else none) = some rows' := hrun
      split at hrun
      · cases hrun
        exact List.mem_of_mem_take hrow
      · cases hrun

theorem mem_of_run (h : ∀ s ∈ stages, s.handsOn = true) (hrun : run I stages rows = some rows') :
    ∀ row ∈ rows', row ∈ rows := by
  induction stages generalizing rows with
  | nil =>
      cases hrun
      exact fun _ hrow => hrow
  | cons stage rest ih =>
      rw [run_cons] at hrun
      obtain ⟨between, hstage, hrest⟩ := Option.bind_eq_some_iff.1 hrun
      obtain ⟨hfirst, hlater⟩ := List.forall_mem_cons.1 h
      exact fun row hrow => mem_of_runStage hfirst hstage row (ih hlater hrest row hrow)

end Pipeline

end Aggregation
