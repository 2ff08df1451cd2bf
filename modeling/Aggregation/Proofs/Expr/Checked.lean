import Aggregation.Proofs.Expr.Fresh
import Aggregation.Proofs.Expr.Update

/-!
The rules that nodes obey. A step that builds a node succeeds exactly if some type makes the node obey the rules of
its kind, so a node goes over to other children as long as those look to their parent like the ones that it had.
-/

namespace Aggregation

namespace Expr

/-- A node obeys the rules of its kind, and has the type that they give it. -/
def Checked : Expr → Prop
  | .constant i v => i.type = .ofValue v
  | .field _ path => Build.isPath path = true
  | .binary i op left right =>
      left.isPipeline = false ∧ right.isPipeline = false ∧ op.resultType left.type right.type = .ok i.type
  | .unary i op operand => operand.isPipeline = false ∧ op.resultType operand.type = .ok i.type
  | .document i fields =>
      (∀ f ∈ fields, Build.isOutputName f.1 = true ∧ f.2.isPipeline = false) ∧ (fields.map Prod.fst).Nodup ∧
        i.type = .document
  | .accumulator i op operand =>
      (∀ e ∈ operand, e.isPipeline = false ∧ e.containsAccumulator = false) ∧
        op.resultType (operand.map type) = .ok i.type
  | .correlated i _ inner => inner.kind = .accumulator ∧ i.type = inner.type
  | .source i collection => Build.isCollection collection = true ∧ i.type = .documents
  | .filter i input predicate =>
      input.isPipeline = true ∧ predicate.isPipeline = false ∧ predicate.type.isBoolean = true ∧ i.type = .documents
  | .group i input key _ outputs =>
      input.isPipeline = true ∧ key.isPipeline = false ∧ key.containsAccumulator = false ∧
        (∀ f ∈ outputs, Build.isOutputName f.1 = true ∧ f.1 ≠ "_id" ∧ f.2.kind = .accumulator) ∧
        (outputs.map Prod.fst).Nodup ∧ i.type = .documents
  | .project i input projection => input.isPipeline = true ∧ projection.isPipeline = false ∧ i.type = .documents
  | .sort i input keys =>
      input.isPipeline = true ∧ keys ≠ [] ∧ (∀ key ∈ keys, Build.isPath key.path = true) ∧ i.type = .documents
  | .skip i input count => input.isPipeline = true ∧ count ≤ Build.maxCount ∧ i.type = .documents
  | .limit i input count => input.isPipeline = true ∧ count ≤ Build.maxCount ∧ count ≠ 0 ∧ i.type = .documents
  | .extension i _ _ => i.type = .any

end Expr

namespace Build

variable {s t : Supply} {e left right operand input predicate key projection : Expr}

/-- A step makes a node of the next serial, if there is a type with which the node obeys its rules. -/
def Makes (x : Build Expr) (node : NodeInfo → Expr) : Prop :=
  ∀ s e t, x.run s = .ok (e, t) ↔ ∃ type, e = node ⟨s.nextNode, type⟩ ∧ e.Checked ∧ t = s.next

theorem run_check_iff {α β : Type} {x : Except CompileError α} {f : α → Build β} {b : β} :
    (liftM x >>= f : Build β).run s = .ok (b, t) ↔ ∃ a, x = .ok a ∧ (f a).run s = .ok (b, t) := by
  refine ⟨run_check_eq_ok, fun ⟨a, hx, hf⟩ => run_bind_eq_ok.2 ⟨a, s, run_lift_eq_ok.2 ⟨hx, rfl⟩, hf⟩⟩

theorem run_mint_iff {type : ResultType} {node : NodeInfo → Expr} :
    (do return node (← mint type) : Build Expr).run s = .ok (e, t) ↔ e = node ⟨s.nextNode, type⟩ ∧ t = s.next := by
  simp only [run_bind_eq_ok, run_mint_eq_ok, run_pure_eq_ok]
  exact ⟨fun ⟨_, _, ⟨hi, hs⟩, he, ht⟩ => ⟨hi ▸ he, hs ▸ ht⟩, fun ⟨he, ht⟩ => ⟨_, _, ⟨rfl, rfl⟩, he, ht⟩⟩

/-- A step that checks something and then makes a node of a type makes the node, if the checks are its rules. -/
theorem makes_of_checks {x : Build Expr} {node : NodeInfo → Expr} {p : ResultType → Prop}
    (hrun : ∀ s e t, x.run s = .ok (e, t) ↔ ∃ type, p type ∧ e = node ⟨s.nextNode, type⟩ ∧ t = s.next)
    (hchecked : ∀ serial type, (node ⟨serial, type⟩).Checked ↔ p type) : Makes x node := by
  intro s e t
  rw [hrun]
  constructor
  · rintro ⟨type, hp, rfl, rfl⟩
    exact ⟨type, rfl, (hchecked _ type).2 hp, rfl⟩
  · rintro ⟨type, rfl, hc, rfl⟩
    exact ⟨type, (hchecked _ type).1 hc, rfl, rfl⟩

theorem constant_makes (v : Value) : Makes (constant v) (.constant · v) :=
  makes_of_checks (p := fun type => type = .ofValue v)
    (fun s e t => by simp only [constant, run_mint_iff, exists_eq_left]) (fun _ _ => Iff.rfl)

/-- A field may have any type. -/
theorem field_run_iff {path : String} {type : ResultType} :
    (field path type).run s = .ok (e, t) ↔
      isPath path = true ∧ e = .field ⟨s.nextNode, type⟩ path ∧ t = s.next := by
  simp only [field, run_check_iff, demand_eq_ok, run_mint_iff, exists_const]

theorem binary_makes (op : BinaryOp) (left right : Expr) : Makes (binary op left right) (.binary · op left right) :=
  makes_of_checks
    (p := fun type =>
      left.isPipeline = false ∧ right.isPipeline = false ∧ op.resultType left.type right.type = .ok type)
    (fun s e t => by
      simp only [binary, demandScalar, run_check_iff, demand_eq_ok, run_mint_iff, exists_const, Bool.not_eq_true',
        and_assoc, exists_and_left])
    (fun _ _ => Iff.rfl)

theorem unary_makes (op : UnaryOp) (operand : Expr) : Makes (unary op operand) (.unary · op operand) :=
  makes_of_checks (p := fun type => operand.isPipeline = false ∧ op.resultType operand.type = .ok type)
    (fun s e t => by
      simp only [unary, demandScalar, run_check_iff, demand_eq_ok, run_mint_iff, exists_const, Bool.not_eq_true',
        and_assoc, exists_and_left])
    (fun _ _ => Iff.rfl)

/-- A name that comes before others is new to what has been seen, and so are the others, besides being other names. -/
theorem notMem_cons_iff {name : String} {seen : List String} {rest : List (String × Expr)} :
    name ∉ seen ∧ (∀ f ∈ rest, f.1 ∉ name :: seen) ∧ (rest.map Prod.fst).Nodup ↔
      (name ∉ seen ∧ ∀ f ∈ rest, f.1 ∉ seen) ∧ (name :: rest.map Prod.fst).Nodup := by
  simp only [List.mem_cons, not_or, List.nodup_cons, List.mem_map, not_exists, not_and]
  constructor
  · rintro ⟨hname, hrest, hnodup⟩
    exact ⟨⟨hname, fun f hf => (hrest f hf).2⟩, fun f hf => (hrest f hf).1, hnodup⟩
  · rintro ⟨⟨hname, hrest⟩, hne, hnodup⟩
    exact ⟨hname, fun f hf => ⟨hne f hf, hrest f hf⟩, hnodup⟩

theorem demandFields_eq_ok {seen : List String} {fields : List (String × Expr)} {u : Unit} :
    demandFields seen fields = .ok u ↔
      (∀ f ∈ fields, isOutputName f.1 = true ∧ f.2.isPipeline = false) ∧ (∀ f ∈ fields, f.1 ∉ seen) ∧
        (fields.map Prod.fst).Nodup := by
  induction fields generalizing seen with
  | nil => simp [demandFields]
  | cons f rest ih =>
      obtain ⟨name, d⟩ := f
      simp only [demandFields, demandScalar, bind_eq_ok, demand_eq_ok, exists_const, ih, List.forall_mem_cons,
        List.map_cons, Bool.not_eq_true', List.contains_eq_mem, decide_eq_false_iff_not, ← notMem_cons_iff]
      tauto

theorem demandOutputs_eq_ok {seen : List String} {outputs : List (String × Expr)} {u : Unit} :
    demandOutputs seen outputs = .ok u ↔
      (∀ f ∈ outputs, isOutputName f.1 = true ∧ f.1 ≠ "_id" ∧ f.2.kind = .accumulator) ∧
        (∀ f ∈ outputs, f.1 ∉ seen) ∧ (outputs.map Prod.fst).Nodup := by
  induction outputs generalizing seen with
  | nil => simp [demandOutputs]
  | cons f rest ih =>
      obtain ⟨name, d⟩ := f
      simp only [demandOutputs, bind_eq_ok, demand_eq_ok, exists_const, ih, List.forall_mem_cons, List.map_cons,
        Bool.and_eq_true, bne_iff_ne, Bool.not_eq_true', List.contains_eq_mem, decide_eq_false_iff_not,
        decide_eq_true_eq, ← notMem_cons_iff]
      tauto

theorem demandPaths_eq_ok {keys : List SortKey} {u : Unit} :
    demandPaths keys = .ok u ↔ ∀ key ∈ keys, isPath key.path = true := by
  induction keys with
  | nil => simp [demandPaths]
  | cons key rest ih => simp only [demandPaths, bind_eq_ok, demand_eq_ok, exists_const, ih, List.forall_mem_cons]

theorem document_makes (fields : List (String × Expr)) : Makes (document fields) (.document · fields) :=
  makes_of_checks
    (p := fun type => (∀ f ∈ fields, isOutputName f.1 = true ∧ f.2.isPipeline = false) ∧
      (fields.map Prod.fst).Nodup ∧ type = .document)
    (fun s e t => by
      simp only [document, run_check_iff, demandFields_eq_ok, run_mint_iff, exists_const]
      simp [and_assoc])
    (fun _ _ => Iff.rfl)

theorem accumulator_makes (op : AccumulatorOp) (operand : Option Expr) :
    Makes (accumulator op operand) (.accumulator · op operand) :=
  makes_of_checks
    (p := fun type => (∀ e ∈ operand, e.isPipeline = false ∧ e.containsAccumulator = false) ∧
      op.resultType (operand.map Expr.type) = .ok type)
    (fun s e t => by
      cases operand with
      | none =>
          show (do return Expr.accumulator (← mint (← liftM (op.resultType none))) op none : Build Expr).run s = _ ↔ _
          simp only [run_check_iff, run_mint_iff]
          simp
      | some d =>
          simp only [accumulator, demandScalar, run_check_iff, demand_eq_ok, run_mint_iff, exists_const,
            Bool.not_eq_true']
          simp [and_assoc])
    (fun _ _ => Iff.rfl)

theorem correlated_makes (scope : Scope) (inner : Expr) :
    Makes (correlated scope inner) (.correlated · scope inner) :=
  makes_of_checks (p := fun type => inner.kind = .accumulator ∧ type = inner.type)
    (fun s e t => by
      simp only [correlated, run_check_iff, demand_eq_ok, run_mint_iff, exists_const, decide_eq_true_eq]
      simp)
    (fun _ _ => Iff.rfl)

theorem source_makes (collection : String) : Makes (source collection) (.source · collection) :=
  makes_of_checks (p := fun type => isCollection collection = true ∧ type = .documents)
    (fun s e t => by
      simp only [source, run_check_iff, demand_eq_ok, run_mint_iff, exists_const]
      simp)
    (fun _ _ => Iff.rfl)

theorem filter_makes (input predicate : Expr) : Makes (filter input predicate) (.filter · input predicate) :=
  makes_of_checks
    (p := fun type => input.isPipeline = true ∧ predicate.isPipeline = false ∧ predicate.type.isBoolean = true ∧
      type = .documents)
    (fun s e t => by
      simp only [filter, demandPipeline, demandScalar, run_check_iff, demand_eq_ok, exists_const, Bool.not_eq_true']
      by_cases hb : predicate.type.isBoolean = true
      · simp only [hb, not_true_eq_false, if_false, run_mint_iff]
        simp [and_assoc]
      · refine ⟨fun ⟨_, _, h⟩ => ?_, fun ⟨_, ⟨_, _, h, _⟩, _⟩ => absurd h hb⟩
        rw [if_pos hb] at h
        exact absurd h run_throw_ne_ok)
    (fun _ _ => Iff.rfl)

theorem group_makes (input key : Expr) (scope : Scope) (outputs : List (String × Expr)) :
    Makes (group input key scope outputs) (.group · input key scope outputs) :=
  makes_of_checks
    (p := fun type => input.isPipeline = true ∧ key.isPipeline = false ∧ key.containsAccumulator = false ∧
      (∀ f ∈ outputs, isOutputName f.1 = true ∧ f.1 ≠ "_id" ∧ f.2.kind = .accumulator) ∧
      (outputs.map Prod.fst).Nodup ∧ type = .documents)
    (fun s e t => by
      simp only [group, demandPipeline, demandScalar, run_check_iff, demand_eq_ok, demandOutputs_eq_ok, run_mint_iff,
        exists_const, Bool.not_eq_true']
      simp [and_assoc])
    (fun _ _ => Iff.rfl)

theorem project_makes (input projection : Expr) : Makes (project input projection) (.project · input projection) :=
  makes_of_checks
    (p := fun type => input.isPipeline = true ∧ projection.isPipeline = false ∧ type = .documents)
    (fun s e t => by
      simp only [project, demandPipeline, demandScalar, run_check_iff, demand_eq_ok, run_mint_iff, exists_const,
        Bool.not_eq_true']
      simp [and_assoc])
    (fun _ _ => Iff.rfl)

theorem sort_makes (input : Expr) (keys : List SortKey) : Makes (sort input keys) (.sort · input keys) :=
  makes_of_checks
    (p := fun type => input.isPipeline = true ∧ keys ≠ [] ∧ (∀ key ∈ keys, isPath key.path = true) ∧
      type = .documents)
    (fun s e t => by
      simp only [sort, demandPipeline, run_check_iff, demand_eq_ok, demandPaths_eq_ok, run_mint_iff, exists_const,
        Bool.not_eq_true', List.isEmpty_eq_false_iff]
      simp [and_assoc])
    (fun _ _ => Iff.rfl)

theorem skip_makes (input : Expr) (count : Nat) : Makes (skip input count) (.skip · input count) :=
  makes_of_checks (p := fun type => input.isPipeline = true ∧ count ≤ maxCount ∧ type = .documents)
    (fun s e t => by
      simp only [skip, demandPipeline, demandCount, run_check_iff, demand_eq_ok, run_mint_iff, exists_const,
        decide_eq_true_eq]
      simp [and_assoc])
    (fun _ _ => Iff.rfl)

theorem limit_makes (input : Expr) (count : Nat) : Makes (limit input count) (.limit · input count) :=
  makes_of_checks
    (p := fun type => input.isPipeline = true ∧ count ≤ maxCount ∧ count ≠ 0 ∧ type = .documents)
    (fun s e t => by
      simp only [limit, demandPipeline, demandCount, run_check_iff, demand_eq_ok, run_mint_iff, exists_const,
        decide_eq_true_eq, bne_iff_ne]
      simp [and_assoc])
    (fun _ _ => Iff.rfl)

theorem extension_makes (name : String) (args : List Expr) :
    Makes (extension name args) (.extension · name args) :=
  makes_of_checks (p := fun type => type = .any)
    (fun s e t => by simp only [extension, run_mint_iff, exists_eq_left]) (fun _ _ => Iff.rfl)

end Build

namespace Expr

variable {e e' c d : Expr} {children : List Expr} {s t : Supply}

/-- A node is rebuilt over other children if it obeys its rules with them. -/
theorem rebuild_makes (hlength : children.length = e.children.length) (hne : children ≠ []) :
    Build.Makes (e.rebuild children) (e.withChildren · children) := by
  cases e with
  | constant | field | source => exact absurd (List.eq_nil_of_length_eq_zero hlength) hne
  | binary _ op =>
      obtain ⟨c, d, rfl⟩ := List.length_eq_two.1 hlength
      exact Build.binary_makes op c d
  | unary _ op =>
      obtain ⟨c, rfl⟩ := List.length_eq_one_iff.1 hlength
      exact Build.unary_makes op c
  | document _ fields => exact Build.document_makes _
  | accumulator _ op => exact Build.accumulator_makes op _
  | correlated _ scope =>
      obtain ⟨c, rfl⟩ := List.length_eq_one_iff.1 hlength
      exact Build.correlated_makes scope c
  | filter =>
      obtain ⟨c, d, rfl⟩ := List.length_eq_two.1 hlength
      exact Build.filter_makes c d
  | group _ _ _ scope =>
      match children, hlength with
      | c :: d :: rest, _ => exact Build.group_makes c d scope _
  | project =>
      obtain ⟨c, d, rfl⟩ := List.length_eq_two.1 hlength
      exact Build.project_makes c d
  | sort _ _ keys =>
      obtain ⟨c, rfl⟩ := List.length_eq_one_iff.1 hlength
      exact Build.sort_makes c keys
  | skip _ _ count =>
      obtain ⟨c, rfl⟩ := List.length_eq_one_iff.1 hlength
      exact Build.skip_makes c count
  | limit _ _ count =>
      obtain ⟨c, rfl⟩ := List.length_eq_one_iff.1 hlength
      exact Build.limit_makes c count
  | extension _ name => exact Build.extension_makes name children

/-- Whether children are the ones that a node has. -/
def isOver (e : Expr) (children : List Expr) : Bool := (e.children.zip children).all fun p => p.1.isNode p.2

/-- An update keeps a node over its own children. Over others it makes a new node of the type that the node has, which
obeys its rules. -/
theorem update_run_iff : (e.update children).run s = .ok (e', t) ↔ children.length = e.children.length ∧
    if e.isOver children then e' = e ∧ t = s
    else e' = e.withChildren ⟨s.nextNode, e.type⟩ children ∧ e'.Checked ∧ t = s.next := by
  unfold update
  dsimp only
  by_cases hlength : children.length = e.children.length
  · rw [if_neg (not_not.2 hlength.symm)]
    change (if e.isOver children then (pure e : Build Expr) else _).run s = .ok (e', t) ↔ _
    by_cases hover : e.isOver children = true
    · rw [if_pos hover, if_pos hover, Build.run_pure_eq_ok]
      exact (and_iff_right hlength).symm
    · have hne : children ≠ [] := by
        rintro rfl
        exact hover (by rw [isOver, List.zip_nil_right]; rfl)
      rw [if_neg hover, if_neg hover, Build.run_bind_eq_ok, and_iff_right hlength]
      constructor
      · rintro ⟨rebuilt, s', hrebuilt, h⟩
        obtain ⟨type, rfl, hchecked, rfl⟩ := (rebuild_makes hlength hne s rebuilt s').1 hrebuilt
        split at h
        · exact absurd h Build.run_throw_bind_ne_ok
        · next htype =>
          obtain ⟨rfl, rfl⟩ := Build.run_pure_eq_ok.1 h
          have htype : type = e.type := by
            rw [← not_not.1 htype, type_withChildren hlength]
          exact ⟨by rw [htype], hchecked, rfl⟩
      · rintro ⟨rfl, hchecked, rfl⟩
        refine ⟨_, s.next, (rebuild_makes hlength hne s _ s.next).2 ⟨e.type, rfl, hchecked, rfl⟩, ?_⟩
        rw [if_neg (not_not.2 (type_withChildren hlength))]
        exact Build.run_pure_eq_ok.2 ⟨rfl, rfl⟩
  · rw [if_pos (Ne.symm hlength)]
    exact ⟨fun h => absurd h Build.run_throw_bind_ne_ok, fun h => absurd h.1 hlength⟩

/-- What the rules of a node ask of its children holds of one child if it holds of another. -/
structure Alike (c d : Expr) : Prop where
  isPipeline_eq : d.isPipeline = c.isPipeline
  type_eq : d.type = c.type
  accumulator : c.kind = .accumulator → d.kind = .accumulator
  containsAccumulator : c.isPipeline = false → c.containsAccumulator = false → d.containsAccumulator = false

/-- Children with names, of which each is alike to the one that had its name. -/
theorem exists_alike_of_mem_zip {entries : List (String × Expr)}
    (h : List.Forall₂ Alike (entries.map Prod.snd) children) {f : String × Expr}
    (hf : f ∈ (entries.map Prod.fst).zip children) : ∃ g ∈ entries, g.1 = f.1 ∧ Alike g.2 f.2 := by
  induction entries generalizing children with
  | nil => exact absurd hf List.not_mem_nil
  | cons g rest ih =>
      obtain ⟨c, cs, hc, hcs, rfl⟩ := List.forall₂_cons_left_iff.1 h
      rcases List.mem_cons.1 hf with rfl | hf
      · exact ⟨g, List.mem_cons_self, rfl, hc⟩
      · obtain ⟨g', hg', heq⟩ := ih hcs hf
        exact ⟨g', List.mem_cons_of_mem _ hg', heq⟩

theorem map_fst_zip_children {entries : List (String × Expr)}
    (h : List.Forall₂ Alike (entries.map Prod.snd) children) :
    ((entries.map Prod.fst).zip children).map Prod.fst = entries.map Prod.fst := by
  rw [List.map_fst_zip]
  simpa using Nat.le_of_eq h.length_eq

/-- A node obeys its rules over children that are alike to its own. -/
theorem Checked.withChildren (h : e.Checked) (hlike : List.Forall₂ Alike e.children children) (n : Nat) :
    (e.withChildren ⟨n, e.type⟩ children).Checked := by
  cases e with
  | constant | field | source => exact h
  | binary i op left right =>
      obtain ⟨left', _, hleft, hrest, rfl⟩ := List.forall₂_cons_left_iff.1 hlike
      obtain ⟨right', _, hright, hnil, rfl⟩ := List.forall₂_cons_left_iff.1 hrest
      cases hnil
      obtain ⟨hl, hr, htype⟩ := h
      refine ⟨hleft.isPipeline_eq.trans hl, hright.isPipeline_eq.trans hr, ?_⟩
      rw [hleft.type_eq, hright.type_eq, htype]
      rfl
  | unary i op operand =>
      obtain ⟨operand', _, hoperand, hnil, rfl⟩ := List.forall₂_cons_left_iff.1 hlike
      cases hnil
      obtain ⟨hscalar, htype⟩ := h
      refine ⟨hoperand.isPipeline_eq.trans hscalar, ?_⟩
      rw [hoperand.type_eq, htype]
      rfl
  | document i fields =>
      obtain ⟨hfields, hnodup, htype⟩ := h
      refine ⟨fun f hf => ?_, (map_fst_zip_children hlike).symm ▸ hnodup, htype⟩
      obtain ⟨g, hg, hname, halike⟩ := exists_alike_of_mem_zip hlike hf
      exact ⟨hname ▸ (hfields g hg).1, halike.isPipeline_eq.trans (hfields g hg).2⟩
  | accumulator i op operand =>
      obtain ⟨hoperand, htype⟩ := h
      cases operand with
      | none =>
          cases hlike
          exact ⟨nofun, htype⟩
      | some d =>
          obtain ⟨d', _, hd, hnil, rfl⟩ := List.forall₂_cons_left_iff.1 hlike
          cases hnil
          obtain ⟨hscalar, hnone⟩ := hoperand d rfl
          refine ⟨fun c hc => ?_, ?_⟩
          · cases hc
            exact ⟨hd.isPipeline_eq.trans hscalar, hd.containsAccumulator hscalar hnone⟩
          · show op.resultType (some d'.type) = _
            rw [hd.type_eq]
            exact htype
  | correlated i scope inner =>
      obtain ⟨inner', _, hinner, hnil, rfl⟩ := List.forall₂_cons_left_iff.1 hlike
      cases hnil
      exact ⟨hinner.accumulator h.1, h.2.trans hinner.type_eq.symm⟩
  | filter i input predicate =>
      obtain ⟨input', _, hinput, hrest, rfl⟩ := List.forall₂_cons_left_iff.1 hlike
      obtain ⟨predicate', _, hpredicate, hnil, rfl⟩ := List.forall₂_cons_left_iff.1 hrest
      cases hnil
      obtain ⟨hpipeline, hscalar, hboolean, htype⟩ := h
      exact ⟨hinput.isPipeline_eq.trans hpipeline, hpredicate.isPipeline_eq.trans hscalar,
        hpredicate.type_eq ▸ hboolean, htype⟩
  | group i input key scope outputs =>
      obtain ⟨input', _, hinput, hrest, rfl⟩ := List.forall₂_cons_left_iff.1 hlike
      obtain ⟨key', rest, hkey, houtputs, rfl⟩ := List.forall₂_cons_left_iff.1 hrest
      obtain ⟨hpipeline, hscalar, hnone, hold, hnodup, htype⟩ := h
      refine ⟨hinput.isPipeline_eq.trans hpipeline, hkey.isPipeline_eq.trans hscalar,
        hkey.containsAccumulator hscalar hnone, fun f hf => ?_, (map_fst_zip_children houtputs).symm ▸ hnodup, htype⟩
      obtain ⟨g, hg, hname, halike⟩ := exists_alike_of_mem_zip houtputs hf
      obtain ⟨hgood, hid, hkind⟩ := hold g hg
      exact ⟨hname ▸ hgood, hname ▸ hid, halike.accumulator hkind⟩
  | project i input projection =>
      obtain ⟨input', _, hinput, hrest, rfl⟩ := List.forall₂_cons_left_iff.1 hlike
      obtain ⟨projection', _, hprojection, hnil, rfl⟩ := List.forall₂_cons_left_iff.1 hrest
      cases hnil
      obtain ⟨hpipeline, hscalar, htype⟩ := h
      exact ⟨hinput.isPipeline_eq.trans hpipeline, hprojection.isPipeline_eq.trans hscalar, htype⟩
  | sort | skip | limit =>
      obtain ⟨input', _, hinput, hnil, rfl⟩ := List.forall₂_cons_left_iff.1 hlike
      cases hnil
      exact ⟨hinput.isPipeline_eq.trans h.1, h.2⟩
  | extension => exact h

/-- The outputs of a group have names of their own, other than that of its key. -/
theorem Checked.nodup_names {i : NodeInfo} {input key : Expr} {scope : Scope} {outputs : List (String × Expr)}
    (h : (group i input key scope outputs).Checked) : ("_id" :: outputs.map Prod.fst).Nodup := by
  obtain ⟨-, -, -, houtputs, hnodup, -⟩ := h
  refine List.nodup_cons.2 ⟨fun hid => ?_, hnodup⟩
  obtain ⟨f, hf, hname⟩ := List.mem_map.1 hid
  exact (houtputs f hf).2.1 hname

/-- Every node of a tree obeys the rules of its kind. -/
def WellFormed (e : Expr) : Prop := ∀ d ∈ e.occurrences, d.Checked

theorem wellFormed_iff : e.WellFormed ↔ e.Checked ∧ ∀ c ∈ e.children, c.WellFormed := by
  simp only [WellFormed, occurrences_eq e, List.forall_mem_cons, List.mem_flatMap, forall_exists_index, and_imp]
  exact and_congr_right fun _ => ⟨fun h c hc d hd => h d c hc hd, fun h d c hc hd => h c hc d hd⟩

theorem WellFormed.checked (h : e.WellFormed) : e.Checked := (wellFormed_iff.1 h).1

theorem WellFormed.child (h : e.WellFormed) (hc : c ∈ e.children) : c.WellFormed := (wellFormed_iff.1 h).2 c hc

end Expr

end Aggregation
