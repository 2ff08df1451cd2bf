import Aggregation.Proofs.Expr.Runs
import Mathlib.Data.List.Nodup

/-!
What building a node gives: a node of the payload and the children that were asked for, with the next serial. Checks
that stand before it are kept as facts where others rest on them.
-/

namespace Aggregation.Build

variable {s t : Supply} {e left right operand input predicate key projection : Expr} {op : BinaryOp}

/-- A node of the next serial has been built. -/
def Minted (s t : Supply) (i : NodeInfo) : Prop := i.serial = s.nextNode ∧ t = s.next

theorem minted_of_run {type : ResultType} {node : NodeInfo → Expr}
    (h : (do return node (← mint type) : Build Expr).run s = .ok (e, t)) : ∃ i, e = node i ∧ Minted s t i := by
  obtain ⟨i, s', hi, h⟩ := run_bind_eq_ok.1 h
  obtain ⟨rfl, rfl⟩ := run_mint_eq_ok.1 hi
  obtain ⟨rfl, rfl⟩ := run_pure_eq_ok.1 h
  exact ⟨_, rfl, rfl, rfl⟩

/-- A check that stands before other steps has been passed. -/
theorem run_check_eq_ok {α β : Type} {x : Except CompileError α} {f : α → Build β} {b : β}
    (h : (liftM x >>= f : Build β).run s = .ok (b, t)) : ∃ a, x = .ok a ∧ (f a).run s = .ok (b, t) := by
  obtain ⟨a, s', hx, hf⟩ := run_bind_eq_ok.1 h
  obtain ⟨hok, hs⟩ := run_lift_eq_ok.1 hx
  exact ⟨a, hok, hs ▸ hf⟩

theorem constant_eq_ok {v : Value} (h : (constant v).run s = .ok (e, t)) :
    ∃ i, e = .constant i v ∧ Minted s t i := minted_of_run h

theorem field_eq_ok {path : String} {type : ResultType} (h : (field path type).run s = .ok (e, t)) :
    isPath path = true ∧ ∃ i, e = .field i path ∧ Minted s t i := by
  obtain ⟨_, hpath, h⟩ := run_check_eq_ok h
  exact ⟨demand_eq_ok.1 hpath, minted_of_run h⟩

theorem binary_eq_ok (h : (binary op left right).run s = .ok (e, t)) :
    ∃ i, e = .binary i op left right ∧ Minted s t i := by
  obtain ⟨_, _, h⟩ := run_check_eq_ok h
  obtain ⟨_, _, h⟩ := run_check_eq_ok h
  obtain ⟨_, _, h⟩ := run_check_eq_ok h
  exact minted_of_run h

theorem unary_eq_ok {op : UnaryOp} (h : (unary op operand).run s = .ok (e, t)) :
    ∃ i, e = .unary i op operand ∧ Minted s t i := by
  obtain ⟨_, _, h⟩ := run_check_eq_ok h
  obtain ⟨_, _, h⟩ := run_check_eq_ok h
  exact minted_of_run h

theorem names_of_demandFields {fields : List (String × Expr)} {seen : List String} {u : Unit}
    (h : demandFields seen fields = .ok u) :
    (∀ f ∈ fields, isOutputName f.1 = true ∧ f.1 ∉ seen) ∧ (fields.map Prod.fst).Nodup := by
  induction fields generalizing seen with
  | nil => exact ⟨nofun, List.nodup_nil⟩
  | cons f rest ih =>
      obtain ⟨name, d⟩ := f
      obtain ⟨_, hname, h⟩ := bind_eq_ok.1 h
      obtain ⟨_, hseen, h⟩ := bind_eq_ok.1 h
      obtain ⟨_, _, h⟩ := bind_eq_ok.1 h
      obtain ⟨hrest, hnodup⟩ := ih h
      have hnew : name ∉ seen := by simpa using demand_eq_ok.1 hseen
      refine ⟨List.forall_mem_cons.2 ⟨⟨demand_eq_ok.1 hname, hnew⟩, fun g hg => ?_⟩, ?_⟩
      · exact ⟨(hrest g hg).1, fun hmem => (hrest g hg).2 (List.mem_cons_of_mem _ hmem)⟩
      · rw [List.map_cons, List.nodup_cons]
        refine ⟨fun hmem => ?_, hnodup⟩
        obtain ⟨g, hg, hgname⟩ := List.mem_map.1 hmem
        exact (hrest g hg).2 (hgname ▸ List.mem_cons_self)

theorem document_eq_ok {fields : List (String × Expr)} (h : (document fields).run s = .ok (e, t)) :
    (fields.map Prod.fst).Nodup ∧ (∀ f ∈ fields, isOutputName f.1 = true) ∧
      ∃ i, e = .document i fields ∧ Minted s t i := by
  obtain ⟨_, hfields, h⟩ := run_check_eq_ok h
  obtain ⟨hnames, hnodup⟩ := names_of_demandFields hfields
  exact ⟨hnodup, fun f hf => (hnames f hf).1, minted_of_run h⟩

theorem count_eq_ok (h : (accumulator .count none).run s = .ok (e, t)) :
    ∃ i, e = .accumulator i .count none ∧ Minted s t i := by
  obtain ⟨_, _, h⟩ := run_check_eq_ok h
  exact minted_of_run h

theorem accumulator_eq_ok {op : AccumulatorOp} (h : (accumulator op (some operand)).run s = .ok (e, t)) :
    op ≠ .count ∧ ∃ i, e = .accumulator i op (some operand) ∧ Minted s t i := by
  obtain ⟨_, _, h⟩ := run_check_eq_ok h
  obtain ⟨_, _, h⟩ := run_check_eq_ok h
  obtain ⟨_, htype, h⟩ := run_check_eq_ok h
  refine ⟨fun hop => ?_, minted_of_run h⟩
  rw [hop] at htype
  exact absurd htype nofun

theorem correlated_eq_ok {scope : Scope} (h : (correlated scope operand).run s = .ok (e, t)) :
    ∃ i, e = .correlated i scope operand ∧ Minted s t i := by
  obtain ⟨_, _, h⟩ := run_check_eq_ok h
  exact minted_of_run h

theorem source_eq_ok {collection : String} (h : (source collection).run s = .ok (e, t)) :
    ∃ i, e = .source i collection ∧ Minted s t i := by
  obtain ⟨_, _, h⟩ := run_check_eq_ok h
  exact minted_of_run h

theorem filter_eq_ok (h : (filter input predicate).run s = .ok (e, t)) :
    ∃ i, e = .filter i input predicate ∧ Minted s t i := by
  obtain ⟨_, _, h⟩ := run_check_eq_ok h
  obtain ⟨_, _, h⟩ := run_check_eq_ok h
  split at h
  · exact absurd h run_throw_ne_ok
  · exact minted_of_run h

theorem names_of_demandOutputs {outputs : List (String × Expr)} {seen : List String} {u : Unit}
    (h : demandOutputs seen outputs = .ok u) :
    (∀ f ∈ outputs, isOutputName f.1 = true ∧ f.1 ≠ "_id" ∧ f.1 ∉ seen) ∧ (outputs.map Prod.fst).Nodup := by
  induction outputs generalizing seen with
  | nil => exact ⟨nofun, List.nodup_nil⟩
  | cons f rest ih =>
      obtain ⟨name, d⟩ := f
      obtain ⟨_, hname, h⟩ := bind_eq_ok.1 h
      obtain ⟨_, hseen, h⟩ := bind_eq_ok.1 h
      obtain ⟨_, _, h⟩ := bind_eq_ok.1 h
      obtain ⟨hrest, hnodup⟩ := ih h
      obtain ⟨hid, hnew⟩ : name ≠ "_id" ∧ name ∉ seen := by simpa using demand_eq_ok.1 hseen
      refine ⟨List.forall_mem_cons.2 ⟨⟨demand_eq_ok.1 hname, hid, hnew⟩, fun g hg => ?_⟩, ?_⟩
      · obtain ⟨hgname, hgid, hgseen⟩ := hrest g hg
        exact ⟨hgname, hgid, fun hmem => hgseen (List.mem_cons_of_mem _ hmem)⟩
      · rw [List.map_cons, List.nodup_cons]
        refine ⟨fun hmem => ?_, hnodup⟩
        obtain ⟨g, hg, hgname⟩ := List.mem_map.1 hmem
        exact (hrest g hg).2.2 (hgname ▸ List.mem_cons_self)

theorem group_eq_ok {scope : Scope} {outputs : List (String × Expr)}
    (h : (group input key scope outputs).run s = .ok (e, t)) :
    (∀ f ∈ outputs, isOutputName f.1 = true) ∧ ("_id" :: outputs.map Prod.fst).Nodup ∧
      ∃ i, e = .group i input key scope outputs ∧ Minted s t i := by
  obtain ⟨_, _, h⟩ := run_check_eq_ok h
  obtain ⟨_, _, h⟩ := run_check_eq_ok h
  obtain ⟨_, _, h⟩ := run_check_eq_ok h
  obtain ⟨_, houtputs, h⟩ := run_check_eq_ok h
  obtain ⟨hnames, hnodup⟩ := names_of_demandOutputs houtputs
  refine ⟨fun f hf => (hnames f hf).1, List.nodup_cons.2 ⟨fun hmem => ?_, hnodup⟩, minted_of_run h⟩
  obtain ⟨f, hf, hname⟩ := List.mem_map.1 hmem
  exact (hnames f hf).2.1 hname

theorem project_eq_ok (h : (project input projection).run s = .ok (e, t)) :
    ∃ i, e = .project i input projection ∧ Minted s t i := by
  obtain ⟨_, _, h⟩ := run_check_eq_ok h
  obtain ⟨_, _, h⟩ := run_check_eq_ok h
  exact minted_of_run h

theorem sort_eq_ok {keys : List SortKey} (h : (sort input keys).run s = .ok (e, t)) :
    ∃ i, e = .sort i input keys ∧ Minted s t i := by
  obtain ⟨_, _, h⟩ := run_check_eq_ok h
  obtain ⟨_, _, h⟩ := run_check_eq_ok h
  obtain ⟨_, _, h⟩ := run_check_eq_ok h
  exact minted_of_run h

theorem skip_eq_ok {count : Nat} (h : (skip input count).run s = .ok (e, t)) :
    ∃ i, e = .skip i input count ∧ Minted s t i := by
  obtain ⟨_, _, h⟩ := run_check_eq_ok h
  obtain ⟨_, _, h⟩ := run_check_eq_ok h
  exact minted_of_run h

theorem limit_eq_ok {count : Nat} (h : (limit input count).run s = .ok (e, t)) :
    count ≠ 0 ∧ ∃ i, e = .limit i input count ∧ Minted s t i := by
  obtain ⟨_, _, h⟩ := run_check_eq_ok h
  obtain ⟨_, _, h⟩ := run_check_eq_ok h
  obtain ⟨_, hcount, h⟩ := run_check_eq_ok h
  exact ⟨bne_iff_ne.1 (demand_eq_ok.1 hcount), minted_of_run h⟩

theorem extension_eq_ok {name : String} {args : List Expr} (h : (extension name args).run s = .ok (e, t)) :
    ∃ i, e = .extension i name args ∧ Minted s t i := minted_of_run h

end Aggregation.Build
