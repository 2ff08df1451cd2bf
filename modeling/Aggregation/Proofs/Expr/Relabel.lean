import Aggregation.Proofs.Expr.Equality
import Aggregation.Proofs.Expr.Places

/-!
Trees that differ in serials and scopes only. A tree can be given other serials and other scopes throughout, and then
looks as it did to whatever does not read these. Without serials, trees of one structure are one tree.
-/

namespace Aggregation

/-- What every node has, with another serial. -/
def NodeInfo.relabel (σ : Nat → Nat) (i : NodeInfo) : NodeInfo := ⟨σ i.serial, i.type⟩

namespace Expr

variable {σ σ' : Nat → Nat} {ρ ρ' : Scope → Scope} {d e c : Expr} {scope : Scope}

mutual

/-- A tree with other serials and other scopes. -/
def relabel (σ : Nat → Nat) (ρ : Scope → Scope) : Expr → Expr
  | .constant i v => .constant (i.relabel σ) v
  | .field i path => .field (i.relabel σ) path
  | .binary i op left right => .binary (i.relabel σ) op (relabel σ ρ left) (relabel σ ρ right)
  | .unary i op operand => .unary (i.relabel σ) op (relabel σ ρ operand)
  | .document i fields => .document (i.relabel σ) (relabelEntries σ ρ fields)
  | .accumulator i op operand => .accumulator (i.relabel σ) op (relabelOperand σ ρ operand)
  | .correlated i scope inner => .correlated (i.relabel σ) (ρ scope) (relabel σ ρ inner)
  | .source i collection => .source (i.relabel σ) collection
  | .filter i input predicate => .filter (i.relabel σ) (relabel σ ρ input) (relabel σ ρ predicate)
  | .group i input key scope outputs =>
    .group (i.relabel σ) (relabel σ ρ input) (relabel σ ρ key) (ρ scope) (relabelEntries σ ρ outputs)
  | .project i input projection => .project (i.relabel σ) (relabel σ ρ input) (relabel σ ρ projection)
  | .sort i input keys => .sort (i.relabel σ) (relabel σ ρ input) keys
  | .skip i input count => .skip (i.relabel σ) (relabel σ ρ input) count
  | .limit i input count => .limit (i.relabel σ) (relabel σ ρ input) count
  | .extension i name args => .extension (i.relabel σ) name (relabelArgs σ ρ args)

def relabelOperand (σ : Nat → Nat) (ρ : Scope → Scope) : Option Expr → Option Expr
  | none => none
  | some e => some (relabel σ ρ e)

def relabelEntries (σ : Nat → Nat) (ρ : Scope → Scope) : List (String × Expr) → List (String × Expr)
  | [] => []
  | (name, e) :: rest => (name, relabel σ ρ e) :: relabelEntries σ ρ rest

def relabelArgs (σ : Nat → Nat) (ρ : Scope → Scope) : List Expr → List Expr
  | [] => []
  | e :: rest => relabel σ ρ e :: relabelArgs σ ρ rest

end

/-- A tree with other scopes. -/
def rename (ρ : Scope → Scope) (e : Expr) : Expr := e.relabel id ρ

/-- A tree with other scopes and without serials. -/
def bare (ρ : Scope → Scope) (e : Expr) : Expr := e.relabel (fun _ => 0) ρ

theorem relabelEntries_eq (entries : List (String × Expr)) :
    relabelEntries σ ρ entries = entries.map (Prod.map id (relabel σ ρ)) := by
  induction entries with
  | nil => rfl
  | cons f rest ih =>
      rw [relabelEntries, ih]
      rfl

theorem relabelArgs_eq (args : List Expr) : relabelArgs σ ρ args = args.map (relabel σ ρ) := by
  induction args with
  | nil => rfl
  | cons e rest ih => rw [relabelArgs, ih, List.map_cons]

theorem relabelOperand_eq (operand : Option Expr) : relabelOperand σ ρ operand = operand.map (relabel σ ρ) := by
  cases operand <;> rfl

@[simp] theorem info_relabel (e : Expr) : (e.relabel σ ρ).info = e.info.relabel σ := by cases e <;> rfl

@[simp] theorem type_relabel (e : Expr) : (e.relabel σ ρ).type = e.type := by
  rw [type, info_relabel]
  rfl

@[simp] theorem kind_relabel (e : Expr) : (e.relabel σ ρ).kind = e.kind := by cases e <;> rfl

@[simp] theorem isPipeline_relabel (e : Expr) : (e.relabel σ ρ).isPipeline = e.isPipeline := by
  rw [isPipeline, kind_relabel]
  rfl

@[simp] theorem isExtension_relabel (e : Expr) : (e.relabel σ ρ).isExtension = e.isExtension := by
  rw [isExtension, kind_relabel]
  rfl

@[simp] theorem isAccumulator_relabel (e : Expr) : (e.relabel σ ρ).isAccumulator = e.isAccumulator := by
  rw [isAccumulator, kind_relabel]
  rfl

@[simp] theorem children_relabel (e : Expr) : (e.relabel σ ρ).children = e.children.map (relabel σ ρ) := by
  have hentries (entries : List (String × Expr)) :
      (relabelEntries σ ρ entries).map Prod.snd = (entries.map Prod.snd).map (relabel σ ρ) := by
    rw [relabelEntries_eq, List.map_map, List.map_map]
    rfl
  cases e with
  | document i fields => exact hentries fields
  | group i input key scope outputs => exact congrArg (relabel σ ρ input :: relabel σ ρ key :: ·) (hentries outputs)
  | accumulator i op operand => cases operand <;> rfl
  | extension i name args => exact relabelArgs_eq args
  | constant | field | binary | unary | correlated | source | filter | project | sort | skip | limit => rfl

/-- Nodes without a scope are relabelled in their children. -/
theorem relabel_withChildren {i : NodeInfo} {children : List Expr} (hc : e.kind ≠ .correlated) (hg : e.kind ≠ .group)
    (hlength : children.length = e.children.length) :
    (e.withChildren i children).relabel σ ρ = e.withChildren (i.relabel σ) (children.map (relabel σ ρ)) := by
  cases e with
  | constant | field | source => rfl
  | binary | filter | project =>
      obtain ⟨c, d, rfl⟩ := List.length_eq_two.1 hlength
      rfl
  | unary | sort | skip | limit =>
      obtain ⟨c, rfl⟩ := List.length_eq_one_iff.1 hlength
      rfl
  | document i fields =>
      show document _ (relabelEntries σ ρ _) = document _ _
      rw [relabelEntries_eq, ← List.zip_map_right]
  | accumulator i op operand => cases children <;> rfl
  | extension i name args => exact congrArg (extension _ name) (relabelArgs_eq children)
  | correlated => exact absurd rfl hc
  | group => exact absurd rfl hg

theorem withChildren_relabel {i : NodeInfo} {children : List Expr} (hc : e.kind ≠ .correlated) (hg : e.kind ≠ .group)
    (hlength : children.length = e.children.length) :
    (e.relabel σ ρ).withChildren i children = e.withChildren i children := by
  cases e with
  | constant | field | source | extension => rfl
  | binary | filter | project =>
      obtain ⟨c, d, rfl⟩ := List.length_eq_two.1 hlength
      rfl
  | unary | sort | skip | limit =>
      obtain ⟨c, rfl⟩ := List.length_eq_one_iff.1 hlength
      rfl
  | document i fields =>
      show document _ (((relabelEntries σ ρ fields).map Prod.fst).zip children) = document _ _
      rw [relabelEntries_eq, List.map_map]
      rfl
  | accumulator i op operand => cases children <;> rfl
  | correlated => exact absurd rfl hc
  | group => exact absurd rfl hg

theorem relabel_kept (hc : e.kind ≠ .correlated) (hg : e.kind ≠ .group) :
    e.relabel σ ρ = e.withChildren (e.info.relabel σ) (e.children.map (relabel σ ρ)) := by
  have hself := relabel_withChildren (σ := σ) (ρ := ρ) (i := e.info) hc hg rfl
  rwa [withChildren_children] at hself

theorem relabelEntries_relabelEntries {entries : List (String × Expr)}
    (h : ∀ f ∈ entries, (f.2.relabel σ ρ).relabel σ' ρ' = f.2.relabel (σ' ∘ σ) (ρ' ∘ ρ)) :
    relabelEntries σ' ρ' (relabelEntries σ ρ entries) = relabelEntries (σ' ∘ σ) (ρ' ∘ ρ) entries := by
  rw [relabelEntries_eq, relabelEntries_eq, relabelEntries_eq, List.map_map]
  exact List.map_congr_left fun f hf => congrArg (Prod.mk f.1) (h f hf)

theorem relabel_relabel (e : Expr) : (e.relabel σ ρ).relabel σ' ρ' = e.relabel (σ' ∘ σ) (ρ' ∘ ρ) := by
  induction e using induction_children with
  | step e ih =>
      by_cases hc : e.kind = .correlated
      · obtain ⟨i, scope, inner, rfl⟩ := exists_of_kind_eq_correlated hc
        exact congrArg (correlated _ _) (ih inner List.mem_cons_self)
      by_cases hg : e.kind = .group
      · obtain ⟨i, input, key, scope, outputs, rfl⟩ := exists_of_kind_eq_group hg
        have houtputs : ∀ f ∈ outputs, (f.2.relabel σ ρ).relabel σ' ρ' = f.2.relabel (σ' ∘ σ) (ρ' ∘ ρ) := fun f hf =>
          ih f.2 (List.mem_cons_of_mem _ (List.mem_cons_of_mem _ (List.mem_map_of_mem hf)))
        simp only [relabel, ih input List.mem_cons_self, ih key (List.mem_cons_of_mem _ List.mem_cons_self),
          relabelEntries_relabelEntries houtputs]
        rfl
      · rw [relabel_kept hc hg, relabel_withChildren hc hg (List.length_map _), relabel_kept hc hg, List.map_map]
        congr 1
        exact List.map_congr_left ih

theorem bare_relabel (e : Expr) : (e.relabel σ ρ).bare ρ' = e.bare (ρ' ∘ ρ) := relabel_relabel e

section Structure

mutual

/-- Trees are of one structure if they differ in serials only. -/
theorem agree_same_iff : ∀ d e : Expr, agree Value.same d e = true ↔ d.bare id = e.bare id
  | .constant _ _, e => by
      cases e <;> simp [agree, bare, relabel, NodeInfo.relabel, Value.same_iff_eq]
  | .field _ _, e | .source _ _, e => by
      cases e <;> simp [agree, bare, relabel, NodeInfo.relabel]
  | .binary _ _ d d', e | .filter _ d d', e | .project _ d d', e => by
      cases e <;> simp [agree, bare, relabel, NodeInfo.relabel, agree_same_iff d, agree_same_iff d', and_assoc]
  | .unary _ _ d, e | .correlated _ _ d, e => by
      cases e <;> simp [agree, bare, relabel, NodeInfo.relabel, agree_same_iff d, and_assoc]
  | .document _ fields, e => by
      cases e <;> simp [agree, bare, relabel, NodeInfo.relabel, agreeEntries_same_iff fields]
  | .accumulator _ _ none, e => by
      rcases e with _ | _ | _ | _ | _ | ⟨_, _, _ | _⟩ <;>
        simp [agree, bare, relabel, relabelOperand, NodeInfo.relabel]
  | .accumulator _ _ (some d), e => by
      rcases e with _ | _ | _ | _ | _ | ⟨_, _, _ | _⟩ <;>
        simp [agree, bare, relabel, relabelOperand, NodeInfo.relabel, agree_same_iff d, and_assoc]
  | .group _ input key _ outputs, e => by
      cases e <;> simp [agree, bare, relabel, NodeInfo.relabel, agree_same_iff input, agree_same_iff key,
        agreeEntries_same_iff outputs, and_assoc, and_left_comm]
  | .sort _ d _, e => by
      cases e <;> simp [agree, bare, relabel, NodeInfo.relabel, agree_same_iff d, and_assoc, and_comm]
  | .skip _ d _, e | .limit _ d _, e => by
      cases e <;> simp [agree, bare, relabel, NodeInfo.relabel, agree_same_iff d, and_assoc, and_comm,
        and_left_comm]
  | .extension _ _ args, e => by
      cases e <;> simp [agree, bare, relabel, NodeInfo.relabel, agreeArgs_same_iff args, and_assoc]

theorem agreeEntries_same_iff : ∀ xs ys : List (String × Expr), agreeEntries Value.same xs ys = true ↔
    relabelEntries (fun _ => 0) id xs = relabelEntries (fun _ => 0) id ys
  | [], ys => by cases ys <;> simp [agreeEntries, relabelEntries]
  | (name, d) :: rest, ys => by
      rcases ys with _ | ⟨⟨name', e⟩, rest'⟩
      · simp [agreeEntries, relabelEntries]
      · simp [agreeEntries, relabelEntries, agree_same_iff d, agreeEntries_same_iff rest, bare]

theorem agreeArgs_same_iff : ∀ xs ys : List Expr, agreeArgs Value.same xs ys = true ↔
    relabelArgs (fun _ => 0) id xs = relabelArgs (fun _ => 0) id ys
  | [], ys => by cases ys <;> simp [agreeArgs, relabelArgs]
  | d :: rest, ys => by
      rcases ys with _ | ⟨e, rest'⟩
      · simp [agreeArgs, relabelArgs]
      · simp [agreeArgs, relabelArgs, agree_same_iff d, agreeArgs_same_iff rest, bare]

end

/-- Trees that are given new scopes are of one structure if they were, provided that no two scopes become one. -/
theorem sameStructure_relabel (hρ : Function.Injective ρ) (d e : Expr) :
    (d.relabel σ ρ).sameStructure (e.relabel σ ρ) = d.sameStructure e := by
  obtain ⟨back, hback⟩ := hρ.hasLeftInverse
  rw [Bool.eq_iff_iff, sameStructure, sameStructure, agree_same_iff, agree_same_iff, bare_relabel, bare_relabel]
  constructor <;> intro h
  · have hscopes := congrArg (relabel (fun _ => 0) back) h
    rwa [bare, bare, relabel_relabel, relabel_relabel, Function.id_comp, hback.comp_eq_id] at hscopes
  · have hscopes := congrArg (relabel (fun _ => 0) ρ) h
    rwa [bare, bare, relabel_relabel, relabel_relabel] at hscopes

end Structure

section Walks

theorem occurrences_relabel (e : Expr) : (e.relabel σ ρ).occurrences = e.occurrences.map (relabel σ ρ) := by
  induction e using induction_children with
  | step e ih =>
      rw [occurrences_eq, occurrences_eq e, List.map_cons, children_relabel, List.flatMap_map, List.map_flatMap]
      congr 1
      exact List.flatMap_congr ih

theorem visible_relabel (e : Expr) : (e.relabel σ ρ).visible = e.visible.map (relabel σ ρ) := by
  induction e using induction_children with
  | step e ih =>
      rw [visible_eq, visible_eq e, kind_relabel]
      split
      · rfl
      · rw [List.map_cons, children_relabel, List.flatMap_map, List.map_flatMap]
        congr 1
        exact List.flatMap_congr ih

theorem at?_relabel (e : Expr) (path : List Nat) : (e.relabel σ ρ).at? path = (e.at? path).map (relabel σ ρ) := by
  induction path generalizing e with
  | nil => rfl
  | cons k path ih =>
      rw [at?, at?, children_relabel, List.getElem?_map]
      cases e.children[k]? with
      | none => rfl
      | some c => exact ih c

theorem chain_relabel (e : Expr) : (e.relabel σ ρ).chain = e.chain.map (relabel σ ρ) := by
  induction e using induction_children with
  | step e ih =>
      cases e with
      | filter i input | group i input | project i input | sort i input | skip i input | limit i input =>
          exact congrArg (_ :: ·) (ih input (by simp [children]))
      | constant | field | binary | unary | document | accumulator | correlated | source | extension => rfl

theorem outputs_relabel (e : Expr) : (e.relabel σ ρ).outputs = e.outputs.map (Prod.map id (relabel σ ρ)) := by
  cases e with
  | group => exact relabelEntries_eq _
  | constant | field | binary | unary | document | accumulator | correlated | source | filter | project | sort | skip
  | limit | extension => rfl

theorem containsAccumulator_relabel (e : Expr) : (e.relabel σ ρ).containsAccumulator = e.containsAccumulator := by
  rw [containsAccumulator, containsAccumulator, occurrences_relabel, List.any_map]
  exact congrArg (List.any _) (funext isAccumulator_relabel)

theorem isGroupOf_relabel (hρ : Function.Injective ρ) (scope : Scope) (e : Expr) :
    isGroupOf (ρ scope) (e.relabel σ ρ) = isGroupOf scope e := by
  cases e with
  | group => exact decide_eq_decide.2 hρ.eq_iff
  | constant | field | binary | unary | document | accumulator | correlated | source | filter | project | sort | skip
  | limit | extension => rfl

theorem isTiedTo_relabel (hρ : Function.Injective ρ) (scope : Scope) (e : Expr) :
    isTiedTo (ρ scope) (e.relabel σ ρ) = isTiedTo scope e := by
  cases e with
  | correlated => exact decide_eq_decide.2 hρ.eq_iff
  | constant | field | binary | unary | document | accumulator | group | source | filter | project | sort | skip
  | limit | extension => rfl

end Walks

section Rules

theorem forall_mem_relabelEntries {p : String × Expr → Prop} {entries : List (String × Expr)} :
    (∀ f ∈ relabelEntries σ ρ entries, p f) ↔ ∀ f ∈ entries, p (f.1, f.2.relabel σ ρ) := by
  rw [relabelEntries_eq, List.forall_mem_map]
  rfl

theorem map_fst_relabelEntries (entries : List (String × Expr)) :
    (relabelEntries σ ρ entries).map Prod.fst = entries.map Prod.fst := by
  rw [relabelEntries_eq, List.map_map]
  rfl

/-- The rules of a node do not ask for its serial, nor for scopes. -/
@[simp] theorem checked_relabel (e : Expr) : (e.relabel σ ρ).Checked ↔ e.Checked := by
  cases e with
  | accumulator i op operand =>
      cases operand <;> simp [relabel, relabelOperand, Checked, NodeInfo.relabel, containsAccumulator_relabel]
  | document | group =>
      simp only [relabel, Checked, NodeInfo.relabel, forall_mem_relabelEntries, map_fst_relabelEntries,
        containsAccumulator_relabel, isPipeline_relabel, kind_relabel]
  | constant | field | binary | unary | correlated | source | filter | project | sort | skip | limit | extension =>
      simp [relabel, Checked, NodeInfo.relabel]

theorem wellFormed_relabel (e : Expr) : (e.relabel σ ρ).WellFormed ↔ e.WellFormed := by
  rw [WellFormed, occurrences_relabel, List.forall_mem_map]
  exact forall₂_congr fun d _ => checked_relabel d

theorem native_relabel (e : Expr) : (e.relabel σ ρ).Native ↔ e.Native := by
  rw [Native, occurrences_relabel, List.forall_mem_map]
  exact forall₂_congr fun d _ => by rw [isExtension_relabel]

theorem countP_isGroupOf_relabel (hρ : Function.Injective ρ) (scope : Scope) (es : List Expr) :
    (es.map (relabel σ ρ)).countP (isGroupOf (ρ scope)) = es.countP (isGroupOf scope) := by
  rw [List.countP_map]
  exact congrArg (List.countP · es) (funext fun e => isGroupOf_relabel hρ scope e)

/-- No scope has two groups, if none had before two scopes became one. -/
theorem countP_le_one_relabel (hρ : Function.Injective ρ) (e : Expr) :
    (∀ scope, (e.relabel σ ρ).occurrences.countP (isGroupOf scope) ≤ 1) ↔
      ∀ scope, e.occurrences.countP (isGroupOf scope) ≤ 1 := by
  rw [occurrences_relabel]
  constructor
  · intro h scope
    rw [← countP_isGroupOf_relabel (σ := σ) hρ]
    exact h (ρ scope)
  · intro h scope
    by_cases hscope : ∃ old, ρ old = scope
    · obtain ⟨old, rfl⟩ := hscope
      rw [countP_isGroupOf_relabel hρ]
      exact h old
    · -- no group has been given the scope
      have hnone : (e.occurrences.map (relabel σ ρ)).countP (isGroupOf scope) = 0 := by
        refine List.countP_eq_zero.2 (List.forall_mem_map.2 fun d _ hd => hscope ?_)
        cases d with
        | group _ _ _ old => exact ⟨old, of_decide_eq_true hd⟩
        | constant | field | binary | unary | document | accumulator | correlated | source | filter | project | sort
        | skip | limit | extension => cases hd
      omega

theorem anchoredAt_relabel (hρ : Function.Injective ρ) (e : Expr) (path : List Nat) (scope : Scope) :
    (e.relabel σ ρ).AnchoredAt path (ρ scope) ↔ e.AnchoredAt path scope := by
  have hany (d : Expr) : (d.relabel σ ρ).chain.any (isGroupOf (ρ scope)) = d.chain.any (isGroupOf scope) := by
    rw [chain_relabel, List.any_map]
    exact congrArg (List.any _) (funext fun c => isGroupOf_relabel hρ scope c)
  unfold AnchoredAt
  simp only [at?_relabel, Option.map_eq_some_iff]
  constructor
  · rintro ⟨before, after, _, hpath, ⟨d, hd, rfl⟩, hkind, hgroup⟩
    rw [kind_relabel] at hkind
    rw [hany] at hgroup
    exact ⟨before, after, d, hpath, hd, hkind, hgroup⟩
  · rintro ⟨before, after, d, hpath, hd, hkind, hgroup⟩
    refine ⟨before, after, _, hpath, ⟨d, hd, rfl⟩, ?_, ?_⟩
    · rwa [kind_relabel]
    · rwa [hany]

theorem anchored_relabel (hρ : Function.Injective ρ) (e : Expr) : (e.relabel σ ρ).Anchored ↔ e.Anchored := by
  constructor
  · intro h path i scope inner hat
    have hat' : (e.relabel σ ρ).at? path = some (.correlated (i.relabel σ) (ρ scope) (inner.relabel σ ρ)) := by
      rw [at?_relabel, hat]
      rfl
    exact (anchoredAt_relabel hρ e path scope).1 (h path _ _ _ hat')
  · intro h path i scope inner hat
    rw [at?_relabel] at hat
    obtain ⟨d, hd, heq⟩ := Option.map_eq_some_iff.1 hat
    have hkind : d.kind = .correlated := by rw [← kind_relabel (σ := σ) (ρ := ρ), heq]; rfl
    obtain ⟨j, old, c, rfl⟩ := exists_of_kind_eq_correlated hkind
    cases heq
    exact (anchoredAt_relabel hρ e path old).2 (h path _ _ _ hd)

end Rules

end Expr

theorem Fresh.rename {lo hi : Nat} {e : Expr} (h : Fresh lo hi e.occurrences) :
    Fresh lo hi (e.rename ρ).occurrences := by
  have hserial (d : Expr) : (d.rename ρ).serial = d.serial := by
    rw [Expr.rename, Expr.serial, Expr.info_relabel]
    rfl
  rw [Expr.rename, Expr.occurrences_relabel]
  constructor
  · exact List.forall_mem_map.2 fun d hd => (hserial d).symm ▸ h.bounds d hd
  · refine List.forall_mem_map.2 fun c hc => List.forall_mem_map.2 fun d hd heq => ?_
    have hsame : c.serial = d.serial := (hserial c).symm.trans (heq.trans (hserial d))
    rw [h.eq_of_serial c hc d hd hsame]

end Aggregation
