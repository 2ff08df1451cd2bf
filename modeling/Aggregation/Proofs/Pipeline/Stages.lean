import Aggregation.Proofs.Pipeline.Scalars
import Mathlib.Algebra.Group.Nat.Defs

/-!
What the stages do that projections, groups, sorts and counts become.
-/

namespace Aggregation.Lowering

universe u

open Aggregation.Expr (Scalar)
open Reading (flag? projected runStage)

variable {I : Interpretation} {row : Document} {members : List Document} {tied : Scope → Prop} {ok : String → Prop}

section Projection

variable {fields : List (String × Expr)} {values : List (String × Value)}

/-- What a projection makes of values none of which is a flag, after the key has been left out or not. -/
theorem project_of_flag?_eq_none (hne : values ≠ []) (hflag : ∀ f ∈ values, flag? f.2 = none)
    {front : List (String × Value)} (hfront : front = [withoutId] ∨ front = [] ∧ ∃ f ∈ values, f.1 = "_id") :
    Reading.project I (front ++ values) row = ⟨values.map fun f => (f.1, projected I row f.1 f.2)⟩ := by
  have hkeeps : ∀ f ∈ values, (flag? f.2 != some false) = true := fun f hf => by rw [hflag f hf]; rfl
  have hall : ((front ++ values).all fun f => flag? f.2 = some false) = false := by
    obtain ⟨f, rest, rfl⟩ := List.exists_cons_of_ne_nil hne
    rw [List.all_append, List.all_cons, hflag f List.mem_cons_self]
    exact Bool.and_false _
  have hkept : ((front ++ values).filter fun f => flag? f.2 != some false) = values := by
    rw [List.filter_append, List.filter_eq_self.2 hkeeps]
    rcases hfront with rfl | ⟨rfl, -⟩ <;> rfl
  have hid : ((front ++ values).any fun f => f.1 == "_id") = true := by
    rcases hfront with rfl | ⟨rfl, f, hf, hname⟩
    · rfl
    · exact List.any_eq_true.2 ⟨f, hf, beq_iff_eq.2 hname⟩
  unfold Reading.project
  rw [hall, hkept, hid]
  rfl

theorem FieldsBecome.map_projected (h : FieldsBecome lowerProjected fields values)
    (hn : ∀ f ∈ fields, f.2.WellNamed) :
    (values.map fun f => (f.1, projected I row f.1 f.2)) = Expr.fieldValues I members row fields ∧
      ∀ f ∈ values, flag? f.2 = none := by
  induction h with
  | nil => exact ⟨rfl, nofun⟩
  | @cons f g fs gs hfg _ ih =>
      obtain ⟨name, e⟩ := f
      obtain ⟨name', v⟩ := g
      obtain ⟨hname, hv⟩ : name = name' ∧ lowerProjected e = .ok v := hfg
      obtain ⟨hprojected, hflag⟩ : projected I row name' v = e.value I members row ∧ flag? v = none :=
        projected_lowerProjected (hn (name, e) List.mem_cons_self) hv
      obtain ⟨hmap, hflags⟩ := ih fun f hf => hn f (List.mem_cons_of_mem _ hf)
      rw [List.map_cons, hmap, Expr.fieldValues, hprojected, hname]
      exact ⟨rfl, List.forall_mem_cons.2 ⟨hflag, hflags⟩⟩

/-- The body of a projection with fields makes of every row the document of the projection. -/
theorem exists_body_of_lowerProjection {i : NodeInfo} {stage : Stage} (hne : fields ≠ [])
    (hn : (Expr.document i fields).WellNamed) (h : lowerProjection (.document i fields) = .ok stage) :
    ∃ body, stage = .project body ∧ ∀ (I : Interpretation) (members : List Document) (row : Document),
      Reading.project I body.entries row = ⟨Expr.fieldValues I members row fields⟩ := by
  obtain ⟨-, hdistinct⟩ := hn.named
  have hfields : ∀ f ∈ fields, f.2.WellNamed := fun f hf => hn.child (List.mem_map_of_mem hf)
  rw [lowerProjection] at h
  obtain ⟨values, hvalues, h⟩ := bind_eq_ok.1 h
  cases h
  have hbecome := fieldsBecome_of_lowerProjectedFields hvalues
  have hvne : values ≠ [] := by
    intro heq
    apply hne
    rw [← List.map_eq_nil_iff (f := Prod.fst), ← hbecome.map_fst, heq, List.map_nil]
  refine ⟨_, rfl, fun I members row => ?_⟩
  have hproject (front : List (String × Value))
      (hfront : front = [withoutId] ∨ front = [] ∧ ∃ f ∈ values, f.1 = "_id") :
      Reading.project I (front ++ values) row = ⟨Expr.fieldValues I members row fields⟩ := by
    obtain ⟨hmap, hflags⟩ :
        (values.map fun f => (f.1, projected I row f.1 f.2)) = Expr.fieldValues I members row fields ∧
          ∀ f ∈ values, flag? f.2 = none := hbecome.map_projected hfields
    rw [project_of_flag?_eq_none hvne hflags hfront, hmap]
  split
  · next hid =>
      obtain ⟨f, hf, hname⟩ := List.any_eq_true.1 hid
      have hmem : "_id" ∈ values.map Prod.fst :=
        hbecome.map_fst ▸ List.mem_map.2 ⟨f, hf, beq_iff_eq.1 hname⟩
      obtain ⟨g, hg, hgname⟩ := List.mem_map.1 hmem
      rw [hbecome.ofList_eq hdistinct]
      exact hproject [] (.inr ⟨rfl, g, hg, hgname⟩)
  · next hid =>
      have hnodup : ((withoutId :: values).map Prod.fst).Nodup := by
        rw [List.map_cons, List.nodup_cons, hbecome.map_fst]
        refine ⟨fun hmem => hid ?_, hdistinct⟩
        obtain ⟨f, hf, hname⟩ := List.mem_map.1 hmem
        exact List.any_eq_true.2 ⟨f, hf, beq_iff_eq.2 hname⟩
      rw [Record.ofList_eq_mk hnodup]
      exact hproject [withoutId] (.inl rfl)

/-- The stage of a projection makes of each row the document of the projection. -/
theorem runStage_lowerProjection (members : List Document) {i : NodeInfo} {stage : Stage} (hne : fields ≠ [])
    (hs : Scalar tied ok (.document i fields)) (h : lowerProjection (.document i fields) = .ok stage)
    (rows : List Document) :
    runStage I stage.document rows = some (rows.map fun row => ⟨Expr.fieldValues I members row fields⟩) := by
  obtain ⟨body, rfl, hproject⟩ := exists_body_of_lowerProjection hne hs.wellNamed h
  show some (rows.map (Reading.project I body.entries)) = _
  rw [funext fun row => hproject I members row]

/-- The body of a projection without fields only leaves the key of every row out. -/
theorem project_withoutId (row : Document) :
    Reading.project I (Record.ofList [withoutId]).entries row = ⟨row.entries.filter fun f => f.1 != "_id"⟩ := by
  show Record.mk (row.entries.filter fun f => "_id" != f.1 && true) = _
  simp only [Bool.and_true, bne_comm]

/-- The body of a projection that is no document makes of every row a document with one field. -/
theorem exists_body_of_lowerProjection_scalar {e : Expr} {stage : Stage} (hkind : e.kind ≠ .document)
    (hn : e.WellNamed) (h : lowerProjection e = .ok stage) :
    ∃ body, stage = .project body ∧ ∀ (I : Interpretation) (members : List Document) (row : Document),
      Reading.project I body.entries row = .single scalarField (e.value I members row) := by
  unfold lowerProjection at h
  split at h
  · exact absurd rfl hkind
  · obtain ⟨v, hv, h⟩ := bind_eq_ok.1 h
    cases h
    refine ⟨_, rfl, fun I members row => ?_⟩
    obtain ⟨hprojected, hflag⟩ : projected I row scalarField v = e.value I members row ∧ flag? v = none :=
      projected_lowerProjected hn hv
    have hone : Reading.project I ([withoutId] ++ [(scalarField, v)]) row =
        ⟨[(scalarField, projected I row scalarField v)]⟩ :=
      project_of_flag?_eq_none (List.cons_ne_nil _ _) (List.forall_mem_singleton.2 hflag) (.inl rfl)
    rw [hprojected] at hone
    have hnodup : ([withoutId, (scalarField, v)].map Prod.fst).Nodup := (by decide : ["_id", scalarField].Nodup)
    rw [Record.ofList_eq_mk hnodup]
    exact hone

end Projection

section Group

variable {outputs : List (String × Expr)} {values : List (String × Value)}

theorem fieldsBecome_of_lowerOutputs (h : lowerOutputs outputs = .ok values) :
    FieldsBecome lowerAccumulator outputs values :=
  fieldsBecome_of_lowered (by rw [lowerOutputs]) (fun _ _ _ => by rw [lowerOutputs]) h

theorem accumulatorOp?_stageKey {op : AccumulatorOp} (h : op ≠ .count) :
    Reading.accumulatorOp? op.stageKey = some op := by
  cases op with
  | count => exact absurd rfl h
  | sum | avg | min | max | first | last | push | addToSet => rfl

/-- What an output computes is the value of the accumulator that it was made from. -/
theorem output_lowerAccumulator {i : NodeInfo} {scope : Scope} {e : Expr} {v : Value}
    (hs : Scalar tied ok (.correlated i scope e)) (h : lowerAccumulator e = .ok v) :
    Reading.output I members v = e.value I members row := by
  cases hs with
  | count =>
      cases h
      rfl
  | @accumulator _ j op _ operand hop _ hoperand =>
      have hlower : (do let w ← lowerScalar operand
                        return .document (.single op.stageKey w) : Except CompileError Value) = .ok v := by
        cases op <;> first | exact absurd rfl hop | exact h
      obtain ⟨w, hw, hlower⟩ := bind_eq_ok.1 hlower
      cases hlower
      show Reading.output I members (.document ⟨[(op.stageKey, w)]⟩) = _
      rw [Reading.output, accumulatorOp?_stageKey hop, Expr.value]
      show I.accumulate op _ = I.accumulate op _
      congr 2
      funext r
      exact expression_lowerScalar hoperand hw

theorem FieldsBecome.map_output (h : FieldsBecome lowerAccumulator outputs values)
    (hs : ∀ f ∈ outputs, ∃ i scope, Scalar tied ok (.correlated i scope f.2)) :
    (values.map fun f => (f.1, Reading.output I members f.2)) = Expr.fieldValues I members row outputs := by
  induction h with
  | nil => rfl
  | @cons f g fs gs hfg _ ih =>
      obtain ⟨name, e⟩ := f
      obtain ⟨name', v⟩ := g
      obtain ⟨hname, hv⟩ : name = name' ∧ lowerAccumulator e = .ok v := hfg
      obtain ⟨i, scope, he⟩ := hs (name, e) List.mem_cons_self
      rw [List.map_cons, output_lowerAccumulator he hv, ih fun f hf => hs f (List.mem_cons_of_mem _ hf),
        Expr.fieldValues, hname]

/-- The stage of a group gives a document for each group. -/
theorem runStage_group {key : Expr} {k : Value} (hkey : Scalar tied ok key)
    (hs : ∀ f ∈ outputs, ∃ i scope, Scalar tied ok (.correlated i scope f.2))
    (hdistinct : ("_id" :: outputs.map Prod.fst).Nodup) (hk : lowerScalar key = .ok k)
    (hvalues : lowerOutputs outputs = .ok values) (rows : List Document) :
    runStage I (Stage.group (.ofList (("_id", k) :: values))).document rows
      = some ((I.groups (fun row => key.value I [] row) rows).map fun (key, members) =>
          Expr.groupRow I outputs key members) := by
  have hbecome := fieldsBecome_of_lowerOutputs hvalues
  have hnodup : ((("_id", k) :: values).map Prod.fst).Nodup := by
    rwa [List.map_cons, hbecome.map_fst]
  have hread : (fun row => Reading.expression I row k) = fun row => key.value I [] row := by
    funext row
    exact expression_lowerScalar hkey hk
  have hgrouped : ∀ key members, Reading.grouped I values key members = Expr.groupRow I outputs key members := by
    intro key members
    rw [Reading.grouped, Expr.groupRow, hbecome.map_output hs]
  rw [Record.ofList_eq_mk hnodup]
  show some ((I.groups (fun row => Reading.expression I row k) rows).map fun (key, members) =>
    Reading.grouped I values key members) = _
  simp only [hread, hgrouped]

end Group

theorem sortKeys?_map_sortField (keys : List SortKey) : Reading.sortKeys? (keys.map sortField) = some keys := by
  induction keys with
  | nil => rfl
  | cons key rest ih =>
      unfold Reading.sortKeys? at ih ⊢
      rw [List.map_cons, List.mapM_cons, ih]
      obtain ⟨path, direction⟩ := key
      cases direction <;> rfl

/-- The stage of sort keys orders by them, if no path occurs twice. -/
theorem runStage_sort {keys : List SortKey} (h : (keys.map SortKey.path).Nodup) (rows : List Document) :
    runStage I (Stage.sort (.ofList (keys.map sortField))).document rows = some (I.order keys rows) := by
  have hnames : (keys.map sortField).map Prod.fst = keys.map SortKey.path := by
    rw [List.map_map]
    rfl
  rw [Record.ofList_eq_mk (hnames ▸ h)]
  show (Reading.sortKeys? (keys.map sortField)).map _ = _
  rw [sortKeys?_map_sortField]
  rfl

section Counts

variable {α : Type u} {rows : List α} {bound : Nat}

theorem drop_min (count : Nat) (h : rows.length ≤ bound) : rows.drop (min count bound) = rows.drop count := by
  by_cases hcount : count ≤ bound
  · rw [Nat.min_eq_left hcount]
  · rw [Nat.min_eq_right (Nat.le_of_not_le hcount), List.drop_eq_nil_of_le h, List.drop_eq_nil_of_le (by omega)]

theorem take_min (count : Nat) (h : rows.length ≤ bound) : rows.take (min count bound) = rows.take count := by
  by_cases hcount : count ≤ bound
  · rw [Nat.min_eq_left hcount]
  · rw [Nat.min_eq_right (Nat.le_of_not_le hcount), List.take_of_length_le h, List.take_of_length_le (by omega)]

theorem exists_countValue (count : Nat) : ∃ n : Int64, Stage.countValue count = .int64 n ∧
    n.toInt = (min count 0x7FFFFFFFFFFFFFFF : Nat) :=
  ⟨_, rfl, Int64.toInt_ofNat_of_lt (by omega)⟩

variable {rows : List Document}

theorem runStage_skip (count : Nat) (h : rows.length < 2 ^ 63) :
    runStage I (Stage.skip count).document rows = some (rows.drop count) := by
  obtain ⟨n, hvalue, hn⟩ := exists_countValue count
  show runStage I ⟨[("$skip", Stage.countValue count)]⟩ rows = _
  rw [hvalue]
  show (if 0 ≤ n.toInt then some (rows.drop n.toInt.toNat) else none) = _
  rw [hn, if_pos (Int.natCast_nonneg _), Int.toNat_natCast, drop_min _ (by omega)]

theorem runStage_limit (count : Nat) (h : rows.length < 2 ^ 63) :
    runStage I (Stage.limit count).document rows = if count = 0 then none else some (rows.take count) := by
  obtain ⟨n, hvalue, hn⟩ := exists_countValue count
  show runStage I ⟨[("$limit", Stage.countValue count)]⟩ rows = _
  rw [hvalue]
  show (if 0 < n.toInt then some (rows.take n.toInt.toNat) else none) = _
  by_cases hzero : count = 0
  · rw [hn, hzero]
    rfl
  · rw [hn, if_pos (by omega), if_neg hzero, Int.toNat_natCast, take_min _ (by omega)]

end Counts

end Aggregation.Lowering
