import Aggregation.Proofs.Expr.Places
import Aggregation.Proofs.Query.Sessions

/-!
What later passes rely on without looking. A constructor looks at the nodes that it is given and no further, but for
accumulators; a tree is lawful all the way down because every node of it was once made from nodes that were held.
-/

namespace Aggregation

namespace Expr

variable {e c d : Expr} {k : Nat}

/-- The type of a node by its kind and by the types of its children. A field has the type that it was declared with. -/
def ruling : Expr → Except CompileError ResultType
  | .constant _ v => .ok (.ofValue v)
  | .field i _ => .ok i.type
  | .binary _ op left right => op.resultType left.type right.type
  | .unary _ op operand => op.resultType operand.type
  | .accumulator _ op operand => op.resultType (operand.map type)
  | .document .. => .ok .document
  | .correlated _ _ inner => .ok inner.type
  | .source .. | .filter .. | .group .. | .project .. | .sort .. | .skip .. | .limit .. => .ok .documents
  | .extension .. => .ok .any

/-- The laws of trees. -/
structure Lawful (e : Expr) : Prop where
  typed : ∀ d ∈ e.occurrences, d.ruling = .ok d.type
  inputs : ∀ d ∈ e.occurrences, d.isPipeline = true → ∀ c, d.children[0]? = some c → c.isPipeline = true
  predicates : ∀ i input predicate, filter i input predicate ∈ e.occurrences →
    predicate.type = .bool ∨ predicate.type = .any
  operands : ∀ i op operand, accumulator i op (some operand) ∈ e.occurrences →
    ∀ d ∈ operand.occurrences, d.isAccumulator = false
  keys : ∀ i input key scope outputs, group i input key scope outputs ∈ e.occurrences →
    ∀ d ∈ key.occurrences, d.isAccumulator = false
  outputs : ∀ i input key scope outputs, group i input key scope outputs ∈ e.occurrences →
    (∀ f ∈ outputs, f.2.kind = .accumulator ∧ Build.isOutputName f.1 = true ∧ f.1 ≠ "_id") ∧
      (outputs.map Prod.fst).Nodup
  fields : ∀ i fields, document i fields ∈ e.occurrences →
    (∀ f ∈ fields, Build.isOutputName f.1 = true) ∧ (fields.map Prod.fst).Nodup
  /-- All children but the one that a pipeline reads from are scalars, down to the leaves. -/
  scalars : (∀ d ∈ e.occurrences, d.isExtension = false) → ∀ d ∈ e.occurrences, ∀ k c, d.children[k]? = some c →
    ¬(d.isPipeline = true ∧ k = 0) → ∀ b ∈ c.occurrences, b.isPipeline = false

theorem Checked.ruling_eq (h : d.Checked) : d.ruling = .ok d.type := by
  cases d with
  | constant | extension => exact congrArg Except.ok h.symm
  | field => rfl
  | binary => exact h.2.2
  | unary | accumulator => exact h.2
  | source | correlated => exact congrArg Except.ok h.2.symm
  | document | project | skip => exact congrArg Except.ok h.2.2.symm
  | filter | sort | limit => exact congrArg Except.ok h.2.2.2.symm
  | group => exact congrArg Except.ok h.2.2.2.2.2.symm

theorem Checked.isPipeline_input (h : d.Checked) (hpipeline : d.isPipeline = true) (hc : d.children[0]? = some c) :
    c.isPipeline = true := by
  cases d with
  | filter | group | project | sort | skip | limit =>
      cases hc
      exact h.1
  | source => cases hc
  | constant | field | binary | unary | document | accumulator | correlated | extension => cases hpipeline

/-- What a pipeline has besides the pipeline that it reads from are scalars. -/
theorem Checked.isPipeline_eq_false (h : d.Checked) (hpipeline : d.isPipeline = true) (hc : c ∈ d.children.tail) :
    c.isPipeline = false := by
  cases d with
  | filter | project =>
      rw [List.mem_singleton.1 hc]
      exact h.2.1
  | group i input key scope outputs =>
      rcases List.mem_cons.1 hc with rfl | hc
      · exact h.2.1
      · obtain ⟨f, hf, rfl⟩ := List.mem_map.1 hc
        rw [isPipeline, (h.2.2.2.1 f hf).2.2]
        rfl
  | source | sort | skip | limit => exact absurd hc List.not_mem_nil
  | constant | field | binary | unary | document | accumulator | correlated | extension => cases hpipeline

theorem eq_bool_or_any_of_isBoolean {t : ResultType} (h : t.isBoolean = true) : t = .bool ∨ t = .any := by
  cases t with
  | any => exact .inr rfl
  | bool => exact .inl rfl
  | null | int32 | int64 | double | string | binary | document | array => cases h

theorem WellFormed.isPipeline_child_eq_false (hw : d.WellFormed) (hnative : d.Native) (hc : d.children[k]? = some c)
    (hk : ¬(d.isPipeline = true ∧ k = 0)) : c.isPipeline = false := by
  by_cases hpipeline : d.isPipeline = true
  · cases k with
    | zero => exact absurd ⟨hpipeline, rfl⟩ hk
    | succ k =>
        rw [← List.getElem?_tail] at hc
        exact hw.checked.isPipeline_eq_false hpipeline (List.mem_of_getElem? hc)
  · exact Expr.isPipeline_child_eq_false hw.checked (native_iff.1 hnative).1 (Bool.eq_false_iff.2 hpipeline)
      (List.mem_of_getElem? hc)

/-- A tree of which every node obeys the rules of its kind is lawful. -/
theorem lawful_of_wellFormed (h : e.WellFormed) : e.Lawful where
  typed d hd := (h d hd).ruling_eq
  inputs d hd hpipeline _ hc := (h d hd).isPipeline_input hpipeline hc
  predicates _ _ _ hd := eq_bool_or_any_of_isBoolean (h _ hd).2.2.1
  operands i op operand hd d hmem := isAccumulator_eq_false_of_accumulator (h _ hd) rfl List.mem_cons_self hmem
  keys _ _ _ _ _ hd := containsAccumulator_eq_false_iff.1 (h _ hd).2.2.1
  outputs _ _ _ _ _ hd := by
    obtain ⟨-, -, -, houtputs, hnodup, -⟩ := h _ hd
    refine ⟨fun f hf => ?_, hnodup⟩
    obtain ⟨hname, hid, hkind⟩ := houtputs f hf
    exact ⟨hkind, hname, hid⟩
  fields _ _ hd := by
    obtain ⟨hfields, hnodup, -⟩ := h _ hd
    exact ⟨fun f hf => (hfields f hf).1, hnodup⟩
  scalars hnone d hd k c hc hk b hb := by
    have hwd : d.WellFormed := fun x hx => h x (mem_occurrences_trans hd hx)
    have hnd : d.Native := fun x hx => hnone x (mem_occurrences_trans hd hx)
    have hmem := List.mem_of_getElem? hc
    exact isPipeline_eq_false_of_mem (hwd.child hmem) (hnd.child hmem) (hwd.isPipeline_child_eq_false hnd hc hk) hb

end Expr

namespace Build

variable {held : List Expr} {s : Supply} {e : Expr}

/-- Whatever calls a caller makes, and in whatever order, the nodes that it holds are lawful, and so is a node of which
it has mapped the children. -/
theorem Held.lawful (h : Held s held) (he : e ∈ held) :
    e.Lawful ∧ ∀ f, Stays f → ∀ d t, (e.mapChildren f).run s = .ok (d, t) → d.Lawful := by
  refine ⟨Expr.lawful_of_wellFormed (h.wellFormed he), fun f hf d t hrun => ?_⟩
  obtain ⟨more, hmore, hd⟩ := hf.mapChildren h he hrun
  exact Expr.lawful_of_wellFormed (hmore.wellFormed hd)

/-- Keeps at most ten documents of a pipeline. -/
def capped (e : Expr) : Build Expr := if e.isPipeline then limit e 10 else pure e

theorem capped_stays : Stays capped := by
  intro s t held c d h hc hrun
  unfold capped at hrun
  split at hrun
  · exact ⟨[d], .node h (.limit 10 hc) hrun, List.mem_cons_self⟩
  · obtain ⟨rfl, rfl⟩ := run_pure_eq_ok.1 hrun
    exact ⟨[], h, hc⟩

/-- The greatest quantity of each region that has more than one order. -/
def largest : Query :=
  ⟨"orders",
    [.group (.ofMembers [("field", .string "region")])
      (some (.ofMembers [("gt", .array [.ofMembers [("count", .ofMembers [])], .int 1])]))
      ⟨[("largest", .ofMembers [("max", .ofMembers [("field", .string "qty")])])]⟩]⟩

/-- The tree of a query is lawful, and so is another tree that reads from fewer documents. -/
theorem Held.lawful_capped : ∃ s held e d t, Held s held ∧ e ∈ held ∧ Stays capped ∧
    (e.mapChildren capped).run s = .ok (d, t) ∧ d.occurrences.length = e.occurrences.length + 1 ∧
    e.Lawful ∧ d.Lawful := by
  have hcheck : ((largest.build.run {}).toOption.bind fun built =>
      ((built.1.mapChildren capped).run built.2).toOption.map fun r =>
        decide (r.1.occurrences.length = built.1.occurrences.length + 1)) = some true := by decide +kernel
  cases hbuild : largest.build.run {} with
  | error err =>
      rw [hbuild] at hcheck
      cases hcheck
  | ok built =>
      obtain ⟨e, s⟩ := built
      rw [hbuild] at hcheck
      replace hcheck : ((e.mapChildren capped).run s).toOption.map (fun r =>
        decide (r.1.occurrences.length = e.occurrences.length + 1)) = some true := hcheck
      cases hrun : (e.mapChildren capped).run s with
      | error err =>
          rw [hrun] at hcheck
          cases hcheck
      | ok mapped =>
          obtain ⟨d, t⟩ := mapped
          rw [hrun] at hcheck
          obtain ⟨held, hheld, he⟩ := Query.exists_held_of_build hbuild
          obtain ⟨hlawful, hmapped⟩ := Held.lawful hheld he
          exact ⟨s, held, e, d, t, hheld, he, capped_stays, hrun, of_decide_eq_true (Option.some.inj hcheck), hlawful,
            hmapped capped capped_stays d t hrun⟩

end Build

end Aggregation
