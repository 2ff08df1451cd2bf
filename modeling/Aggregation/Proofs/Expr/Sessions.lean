import Aggregation.Correlation.Resolver
import Aggregation.Proofs.Expr.Checked

/-!
Expressions as callers make them. A caller holds nodes and makes one node after the other from those that it holds, so
a node may come to stand in many places, also twice in one tree. Every node that a caller holds obeys the rules of its
kind down to its leaves, and nodes with one serial are one node.
-/

namespace Aggregation

namespace Build

/-- The calls that make a node from given ones. Scopes may be of any origin: a resolver that owns a scope ties an
accumulator to it. -/
inductive Call (held : List Expr) : Build Expr → Prop
  | constant (v : Value) : Call held (constant v)
  | field (path : String) (type : ResultType) : Call held (field path type)
  | binary (op : BinaryOp) {left right : Expr} (hleft : left ∈ held) (hright : right ∈ held) :
      Call held (binary op left right)
  | unary (op : UnaryOp) {operand : Expr} (h : operand ∈ held) : Call held (unary op operand)
  | document {fields : List (String × Expr)} (h : ∀ f ∈ fields, f.2 ∈ held) : Call held (document fields)
  | accumulator (op : AccumulatorOp) {operand : Option Expr} (h : ∀ e ∈ operand, e ∈ held) :
      Call held (accumulator op operand)
  | tag (r : Resolver) (scope : Scope) {inner : Expr} (h : inner ∈ held) : Call held (r.tag inner scope)
  | source (collection : String) : Call held (source collection)
  | filter {input predicate : Expr} (hinput : input ∈ held) (hpredicate : predicate ∈ held) :
      Call held (filter input predicate)
  | group (scope : Scope) {input key : Expr} {outputs : List (String × Expr)} (hinput : input ∈ held)
      (hkey : key ∈ held) (houtputs : ∀ f ∈ outputs, f.2 ∈ held) : Call held (group input key scope outputs)
  | project {input projection : Expr} (hinput : input ∈ held) (hprojection : projection ∈ held) :
      Call held (project input projection)
  | sort (keys : List SortKey) {input : Expr} (h : input ∈ held) : Call held (sort input keys)
  | skip (count : Nat) {input : Expr} (h : input ∈ held) : Call held (skip input count)
  | limit (count : Nat) {input : Expr} (h : input ∈ held) : Call held (limit input count)
  | extension (name : String) {args : List Expr} (h : ∀ e ∈ args, e ∈ held) : Call held (extension name args)
  | update {e : Expr} {children : List Expr} (he : e ∈ held) (h : ∀ c ∈ children, c ∈ held) :
      Call held (e.update children)

/-- The nodes that a caller may hold when the supply has come to a point. -/
inductive Held : Supply → List Expr → Prop
  | nothing (s : Supply) : Held s []
  | scope {s t : Supply} {held : List Expr} {scope : Scope} (h : Held s held)
      (hrun : mintScope.run s = .ok (scope, t)) : Held t held
  | node {s t : Supply} {held : List Expr} {x : Build Expr} {e : Expr} (h : Held s held) (hcall : Call held x)
      (hrun : x.run s = .ok (e, t)) : Held t (e :: held)

end Build

namespace Expr

/-- A node as calls make it: a node that is held already, or a new one of which the children are held. -/
def MadeFrom (held : List Expr) (s t : Supply) (e : Expr) : Prop :=
  e ∈ held ∧ t = s ∨ e.Checked ∧ (∀ c ∈ e.children, c ∈ held) ∧ e.serial = s.nextNode ∧ t = s.next

variable {held : List Expr} {s t : Supply} {e : Expr} {children : List Expr}

theorem madeFrom_of_makes {x : Build Expr} {node : NodeInfo → Expr} (hx : Build.Makes x node)
    (hinfo : ∀ i, (node i).info = i) (hchildren : ∀ i, ∀ c ∈ (node i).children, c ∈ held)
    (hrun : x.run s = .ok (e, t)) : MadeFrom held s t e := by
  obtain ⟨type, rfl, hchecked, rfl⟩ := (hx s e t).1 hrun
  exact .inr ⟨hchecked, hchildren _, congrArg NodeInfo.serial (hinfo _), rfl⟩

/-- What a call makes from the nodes that are held. -/
theorem madeFrom_of_call {x : Build Expr} (hcall : Build.Call held x) (hrun : x.run s = .ok (e, t)) :
    MadeFrom held s t e := by
  have hsnd {entries : List (String × Expr)} (h : ∀ f ∈ entries, f.2 ∈ held) :
      ∀ c ∈ entries.map Prod.snd, c ∈ held := by
    intro c hc
    obtain ⟨f, hf, rfl⟩ := List.mem_map.1 hc
    exact h f hf
  cases hcall with
  | constant v => exact madeFrom_of_makes (Build.constant_makes v) (fun _ => rfl) (fun _ => nofun) hrun
  | field path type =>
      obtain ⟨hpath, rfl, rfl⟩ := Build.field_run_iff.1 hrun
      exact .inr ⟨hpath, nofun, rfl, rfl⟩
  | binary op hleft hright =>
      refine madeFrom_of_makes (Build.binary_makes op _ _) (fun _ => rfl) (fun _ c hc => ?_) hrun
      rcases List.mem_pair.1 hc with rfl | rfl
      · exact hleft
      · exact hright
  | unary op h =>
      refine madeFrom_of_makes (Build.unary_makes op _) (fun _ => rfl) (fun _ c hc => ?_) hrun
      rwa [List.mem_singleton.1 hc]
  | document h => exact madeFrom_of_makes (Build.document_makes _) (fun _ => rfl) (fun _ => hsnd h) hrun
  | accumulator op h =>
      refine madeFrom_of_makes (Build.accumulator_makes op _) (fun _ => rfl) (fun _ c hc => ?_) hrun
      exact h c (Option.mem_toList.1 hc)
  | @tag r scope inner h =>
      have hrun : (Build.correlated scope inner).run s = .ok (e, t) := by
        unfold Resolver.tag at hrun
        split at hrun
        · exact absurd hrun Build.run_throw_ne_ok
        · exact hrun
      refine madeFrom_of_makes (Build.correlated_makes scope _) (fun _ => rfl) (fun _ c hc => ?_) hrun
      rwa [List.mem_singleton.1 hc]
  | source collection =>
      exact madeFrom_of_makes (Build.source_makes collection) (fun _ => rfl) (fun _ => nofun) hrun
  | filter hinput hpredicate =>
      refine madeFrom_of_makes (Build.filter_makes _ _) (fun _ => rfl) (fun _ c hc => ?_) hrun
      rcases List.mem_pair.1 hc with rfl | rfl
      · exact hinput
      · exact hpredicate
  | group scope hinput hkey houtputs =>
      refine madeFrom_of_makes (Build.group_makes _ _ scope _) (fun _ => rfl) (fun _ c hc => ?_) hrun
      rcases List.mem_cons.1 hc with rfl | hc
      · exact hinput
      · rcases List.mem_cons.1 hc with rfl | hc
        · exact hkey
        · exact hsnd houtputs c hc
  | project hinput hprojection =>
      refine madeFrom_of_makes (Build.project_makes _ _) (fun _ => rfl) (fun _ c hc => ?_) hrun
      rcases List.mem_pair.1 hc with rfl | rfl
      · exact hinput
      · exact hprojection
  | sort keys h =>
      refine madeFrom_of_makes (Build.sort_makes _ keys) (fun _ => rfl) (fun _ c hc => ?_) hrun
      rwa [List.mem_singleton.1 hc]
  | skip count h =>
      refine madeFrom_of_makes (Build.skip_makes _ count) (fun _ => rfl) (fun _ c hc => ?_) hrun
      rwa [List.mem_singleton.1 hc]
  | limit count h =>
      refine madeFrom_of_makes (Build.limit_makes _ count) (fun _ => rfl) (fun _ c hc => ?_) hrun
      rwa [List.mem_singleton.1 hc]
  | extension name h => exact madeFrom_of_makes (Build.extension_makes name _) (fun _ => rfl) (fun _ => h) hrun
  | @update d children he h =>
      obtain ⟨hlength, hrun⟩ := update_run_iff.1 hrun
      split at hrun
      · obtain ⟨rfl, rfl⟩ := hrun
        exact .inl ⟨he, rfl⟩
      · obtain ⟨rfl, hchecked, rfl⟩ := hrun
        refine .inr ⟨hchecked, ?_, ?_, rfl⟩
        · rwa [children_withChildren hlength]
        · rw [serial, info_withChildren hlength]

end Expr

namespace Build

variable {held : List Expr} {s t : Supply} {e : Expr}

/-- What holds of all nodes that a caller holds. -/
structure Sound (s : Supply) (held : List Expr) : Prop where
  checked : ∀ e ∈ held, e.Checked
  children : ∀ e ∈ held, ∀ c ∈ e.children, c ∈ held
  fresh : Fresh 0 s.nextNode held

theorem Sound.madeFrom (h : Sound s held) (he : Expr.MadeFrom held s t e) : Sound t (e :: held) := by
  rcases he with ⟨he, rfl⟩ | ⟨hchecked, hchildren, hserial, rfl⟩
  · refine ⟨List.forall_mem_cons.2 ⟨h.checked e he, h.checked⟩,
      List.forall_mem_cons.2 ⟨fun c hc => ?_, fun d hd c hc => ?_⟩,
      ⟨List.forall_mem_cons.2 ⟨h.fresh.bounds e he, h.fresh.bounds⟩, ?_⟩⟩
    · exact List.mem_cons_of_mem _ (h.children e he c hc)
    · exact List.mem_cons_of_mem _ (h.children d hd c hc)
    · intro c hc d hd
      have hmem {b : Expr} (hb : b ∈ e :: held) : b ∈ held := (List.mem_cons.1 hb).elim (· ▸ he) id
      exact h.fresh.eq_of_serial c (hmem hc) d (hmem hd)
  · refine ⟨List.forall_mem_cons.2 ⟨hchecked, h.checked⟩, List.forall_mem_cons.2 ⟨fun c hc => ?_, fun d hd c hc => ?_⟩,
      h.fresh.cons hserial (Nat.zero_le _)⟩
    · exact List.mem_cons_of_mem _ (hchildren c hc)
    · exact List.mem_cons_of_mem _ (h.children d hd c hc)

theorem Held.sound (h : Held s held) : Sound s held := by
  induction h with
  | nothing s => exact ⟨nofun, nofun, .nil⟩
  | scope _ hrun ih =>
      cases hrun
      exact ⟨ih.checked, ih.children, ih.fresh⟩
  | node _ hcall hrun ih => exact ih.madeFrom (Expr.madeFrom_of_call hcall hrun)

/-- All nodes of a tree that is held are held. -/
theorem Sound.occurrences (h : Sound s held) (he : e ∈ held) : ∀ d ∈ e.occurrences, d ∈ held := by
  induction e using Expr.induction_children with
  | step e ih =>
      intro d hd
      rw [Expr.occurrences_eq] at hd
      rcases List.mem_cons.1 hd with rfl | hd
      · exact he
      · obtain ⟨c, hc, hd⟩ := List.mem_flatMap.1 hd
        exact ih c hc (h.children e he c hc) d hd

theorem Held.wellFormed (h : Held s held) (he : e ∈ held) : e.WellFormed :=
  fun d hd => h.sound.checked d (h.sound.occurrences he d hd)

/-- In a tree that is held nodes with one serial are one node, and no serial is still to be given out. -/
theorem Held.fresh (h : Held s held) (he : e ∈ held) : Fresh 0 s.nextNode e.occurrences :=
  ⟨fun d hd => h.sound.fresh.bounds d (h.sound.occurrences he d hd),
    fun c hc d hd => h.sound.fresh.eq_of_serial c (h.sound.occurrences he c hc) d (h.sound.occurrences he d hd)⟩

/-- A step that a caller takes from a node it holds to another one, by calls of its own. -/
def Stays (f : Expr → Build Expr) : Prop :=
  ∀ {s t : Supply} {held : List Expr} {c d : Expr}, Held s held → c ∈ held → (f c).run s = .ok (d, t) →
    ∃ more, Held t (more ++ held) ∧ d ∈ more ++ held

theorem Stays.mapM {f : Expr → Build Expr} (hf : Stays f) {cs ds : List Expr} (h : Held s held)
    (hcs : ∀ c ∈ cs, c ∈ held) (hrun : (cs.mapM f).run s = .ok (ds, t)) :
    ∃ more, Held t (more ++ held) ∧ ∀ d ∈ ds, d ∈ more ++ held := by
  induction cs generalizing s held ds with
  | nil =>
      rw [List.mapM_nil] at hrun
      obtain ⟨rfl, rfl⟩ := run_pure_eq_ok.1 hrun
      exact ⟨[], h, nofun⟩
  | cons c rest ih =>
      rw [List.mapM_cons] at hrun
      obtain ⟨d, u, hd, hrun⟩ := run_bind_eq_ok.1 hrun
      obtain ⟨ds', u', hds', hrun⟩ := run_bind_eq_ok.1 hrun
      obtain ⟨rfl, rfl⟩ := run_pure_eq_ok.1 hrun
      obtain ⟨hc, hrest⟩ := List.forall_mem_cons.1 hcs
      obtain ⟨more, hmore, hmem⟩ := hf h hc hd
      obtain ⟨more', hmore', hmem'⟩ := ih hmore (fun c' hc' => List.mem_append_right _ (hrest c' hc')) hds'
      rw [← List.append_assoc] at hmore' hmem'
      refine ⟨more' ++ more, hmore', List.forall_mem_cons.2 ⟨?_, hmem'⟩⟩
      rw [List.append_assoc]
      exact List.mem_append_right _ hmem

/-- Mapping the children of a node by a caller's own calls is such a step too. -/
theorem Stays.mapChildren {f : Expr → Build Expr} (hf : Stays f) : Stays fun e => e.mapChildren f := by
  intro s t held e d h he hrun
  obtain ⟨children, u, hchildren, hrun⟩ := run_bind_eq_ok.1 hrun
  obtain ⟨more, hmore, hmem⟩ := hf.mapM h (h.sound.children e he) hchildren
  exact ⟨d :: more, .node hmore (.update (List.mem_append_right _ he) hmem) hrun, List.mem_cons_self⟩

end Build

end Aggregation
