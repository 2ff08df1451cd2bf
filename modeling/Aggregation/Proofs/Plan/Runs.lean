import Aggregation.Proofs.Plan.Binding
import Aggregation.Proofs.Plan.Naming
import Aggregation.Proofs.Plan.Replacement
import Aggregation.Proofs.Plan.Scalars

/-!
Runs of binding. A run that succeeds replaces accumulators as planning says, whichever supply it starts from; and it
succeeds on every pipeline whose accumulators are tied to groups that come before them.
-/

namespace Aggregation.Binding

open Aggregation.Expr (isGroupOf isTiedTo)
open GroupPlan (Assigned Reads assigned_ofScope provides_of_sharedName? sharedName?)

variable {stem : String} {live : Scope → List Expr} {root e e' : Expr} {up : List Expr} {lo n : Nat} {b b' : State}
  {s t : Supply} {scope : Scope}

/-- What binding has made of a tree, if the serials of the tree are below `n`. -/
structure Turned (root : Expr) (n : Nat) (up : List Expr) (e e' : Expr) (s t : Supply) : Prop where
  replaced : Replaced root up e e'
  wellFormed : e'.WellFormed
  eq_or_new : e' = e ∨ n ≤ e'.serial
  supply_le : s.nextNode ≤ t.nextNode

/-- What has a serial of the tree still is what there was. -/
theorem Turned.eq_of_serial_eq (h : Turned root n up e e' s t) (hlt : e.serial < n) (hserial : e'.serial = e.serial) :
    e' = e :=
  h.eq_or_new.resolve_right (by omega)

/-- The state after the pipelines `up`: their groups are bound, and every accumulator that the tree ties to one of them
has the name of the first output of its structure. -/
structure Ready (root : Expr) (up : List Expr) (b : State) : Prop where
  bound : ∀ scope, scope ∈ b.bound ↔ up.any (isGroupOf scope) = true
  read : ∀ i scope inner, Expr.correlated i scope inner ∈ root.occurrences → scope ∈ b.bound →
    ∃ name, b.bindings.lookup i.serial = some name ∧
      ∃ g ∈ up, isGroupOf scope g = true ∧ sharedName? g.outputs inner = some name

theorem Ready.nothing : Ready root [] {} := ⟨fun _ => ⟨nofun, nofun⟩, fun _ _ _ _ h => absurd h List.not_mem_nil⟩

/-- A pipeline that is no group binds nothing. -/
theorem Ready.cons (h : Ready root up b) (hkind : e.kind ≠ .group) : Ready root (e :: up) b := by
  have hgroup : ∀ scope, isGroupOf scope e = false := fun scope =>
    Expr.isGroupOf_eq_false hkind _
  constructor
  · intro scope
    rw [List.any_cons, hgroup, Bool.false_or]
    exact h.bound scope
  · intro i scope inner hmem hbound
    obtain ⟨name, hname, g, hg, hfirst⟩ := h.read i scope inner hmem hbound
    exact ⟨name, hname, g, List.mem_cons_of_mem _ hg, hfirst⟩

section Updates

variable {children : List Expr}

/-- An update over children that are new wherever they have changed makes a new node wherever one has. -/
theorem update_sound (hw : e.WellFormed) (hlt : ∀ c ∈ e.children, c.serial < n) (hn : n ≤ s.nextNode)
    (hchildren : ∀ c ∈ children, c.WellFormed)
    (hnew : List.Forall₂ (fun c c' => c' = c ∨ n ≤ c'.serial) e.children children)
    (h : (e.update children).run s = .ok (e', t)) :
    ∃ m, e' = e.withChildren ⟨m, e.type⟩ children ∧ e'.WellFormed ∧ (e' = e ∨ n ≤ e'.serial) ∧
      s.nextNode ≤ t.nextNode := by
  obtain ⟨hlength, h⟩ := Expr.update_run_iff.1 h
  split at h
  · next hover =>
    obtain ⟨rfl, rfl⟩ := h
    have hsame : children = e'.children :=
      eq_of_serials hnew hlt fun p hp => beq_iff_eq.1 (List.all_eq_true.1 hover p hp)
    refine ⟨e'.serial, ?_, hw, .inl rfl, Nat.le_refl _⟩
    rw [hsame]
    exact e'.withChildren_children.symm
  · obtain ⟨rfl, hchecked, rfl⟩ := h
    refine ⟨s.nextNode, rfl, Expr.wellFormed_iff.2 ⟨hchecked, ?_⟩, .inr ?_, Nat.le_succ _⟩
    · rwa [Expr.children_withChildren hlength]
    · rwa [Expr.serial, Expr.info_withChildren hlength]

/-- An update over children that are alike to those that there are succeeds. -/
theorem update_complete (hchecked : e.Checked) (hlike : List.Forall₂ Expr.Alike e.children children) (s : Supply) :
    ∃ e' t, (e.update children).run s = .ok (e', t) := by
  have hlength : children.length = e.children.length := hlike.length_eq.symm
  by_cases hover : e.isOver children = true
  · exact ⟨e, s, Expr.update_run_iff.2 ⟨hlength, by rw [if_pos hover]; exact ⟨rfl, rfl⟩⟩⟩
  · refine ⟨e.withChildren ⟨s.nextNode, e.type⟩ children, s.next, Expr.update_run_iff.2 ⟨hlength, ?_⟩⟩
    rw [if_neg hover]
    exact ⟨rfl, hchecked.withChildren hlike s.nextNode, rfl⟩

end Updates

section Scalars

/-- Binding scalars in turn, if each of them leaves the state as it is. -/
theorem mapM_sound {cs cs' : List Expr} (hn : n ≤ s.nextNode)
    (ih : ∀ c ∈ cs, ∀ {s t : Supply} {c' : Expr} {b' : State}, n ≤ s.nextNode →
      ((bind stem live c).run b).run s = .ok ((c', b'), t) → b' = b ∧ Turned root n up c c' s t)
    (h : ((cs.mapM (bind stem live)).run b).run s = .ok ((cs', b'), t)) :
    b' = b ∧ s.nextNode ≤ t.nextNode ∧ (∀ c' ∈ cs', c'.WellFormed) ∧
      List.Forall₂ (fun c c' => c' = c ∨ n ≤ c'.serial) cs cs' ∧ List.Forall₂ (Replaced root up) cs cs' := by
  induction cs generalizing s cs' with
  | nil =>
      obtain ⟨rfl, rfl, rfl⟩ := run_mapM_nil_eq_ok.1 h
      exact ⟨rfl, Nat.le_refl _, nofun, .nil, .nil⟩
  | cons c rest ihrest =>
      obtain ⟨c', rest', b₁, u, hc, hrest, rfl⟩ := run_mapM_cons_eq_ok.1 h
      obtain ⟨rfl, hturned⟩ := ih c List.mem_cons_self hn hc
      obtain ⟨hb, hle, hwf, hnew, hreplaced⟩ := ihrest (Nat.le_trans hn hturned.supply_le)
        (fun d hd => ih d (List.mem_cons_of_mem _ hd)) hrest
      exact ⟨hb, Nat.le_trans hturned.supply_le hle, List.forall_mem_cons.2 ⟨hturned.wellFormed, hwf⟩,
        .cons hturned.eq_or_new hnew, .cons hturned.replaced hreplaced⟩

/-- Reading an output succeeds for an accumulator that is tied to a group that has been passed. -/
theorem readOutput_eq_ok {i : NodeInfo} {inner : Expr} : ((readOutput (.correlated i scope inner) scope).run b).run s
      = .ok ((e', b'), t) ↔
    scope ∈ b.bound ∧ b' = b ∧ ∃ name, b.bindings.lookup i.serial = some name ∧
      (Build.field name i.type).run s = .ok (e', t) := by
  constructor
  · intro h
    obtain ⟨_, _, _, hget, h⟩ := run_bind_eq_ok.1 h
    cases hget
    dsimp only at h
    split at h
    · exact absurd h nofun
    · next hbound =>
      split at h
      · exact absurd h nofun
      · next name hname =>
        obtain ⟨hfield, rfl⟩ := run_build_eq_ok.1 h
        exact ⟨by simpa using hbound, rfl, name, hname, hfield⟩
  · rintro ⟨hbound, rfl, name, hname, hfield⟩
    refine run_bind_eq_ok.2 ⟨b', b', s, rfl, ?_⟩
    dsimp only
    rw [if_neg (by simpa using hbound)]
    simp only [Expr.serial, Expr.info, hname]
    exact run_build_eq_ok.2 ⟨hfield, rfl⟩

/-- A scalar that is not tied to a scope is no node that binding treats in a way of its own. -/
theorem kind_notMem_of_scalar (hscalar : e.isPipeline = false) (hc : e.kind ≠ .correlated) :
    e.kind ∉ [.correlated, .filter, .group, .project] := by
  have hne : ∀ kind : NodeKind, kind.isPipeline = true → e.kind ≠ kind := by
    intro kind hkind heq
    rw [Expr.isPipeline, heq, hkind] at hscalar
    cases hscalar
  simp [hc, hne .filter rfl, hne .group rfl, hne .project rfl]

theorem scalar_sound (hroot : Fresh lo n root.occurrences) (hready : Ready root up b) (hw : e.WellFormed)
    (hnative : e.Native) (hscalar : e.isPipeline = false) (hsub : ∀ d ∈ e.occurrences, d ∈ root.occurrences)
    (hn : n ≤ s.nextNode) (h : ((bind stem live e).run b).run s = .ok ((e', b'), t)) :
    b' = b ∧ Turned root n up e e' s t := by
  induction e using Expr.induction_children generalizing s t e' b' with
  | step e ih =>
      by_cases hc : e.kind = .correlated
      · obtain ⟨i, scope, inner, rfl⟩ := Expr.exists_of_kind_eq_correlated hc
        rw [bind_correlated] at h
        obtain ⟨hbound, rfl, name, hname, hfield⟩ := readOutput_eq_ok.1 h
        obtain ⟨hpath, rfl, rfl⟩ := Build.field_run_iff.1 hfield
        obtain ⟨name', hname', g, hg, hgroup, hfirst⟩ :=
          hready.read i scope inner (hsub _ (Expr.mem_occurrences_self _)) hbound
        cases hname.symm.trans hname'
        obtain ⟨f, hf, hsame⟩ := provides_of_sharedName? hfirst
        refine ⟨rfl, .correlated i s.nextNode hg hgroup hf hsame, ?_, .inr hn, Nat.le_succ _⟩
        exact Expr.wellFormed_iff.2 ⟨hpath, nofun⟩
      · have hg : e.kind ≠ .group := by
          intro hg
          rw [Expr.isPipeline, hg] at hscalar
          cases hscalar
        rw [bind_kept _ _ hc hg] at h
        obtain ⟨children, c, u, hchildren, h⟩ := run_bind_eq_ok.1 h
        obtain ⟨hupdate, rfl⟩ := run_build_eq_ok.1 h
        have hsound : ∀ c ∈ e.children, ∀ {s t : Supply} {c' : Expr} {b' : State}, n ≤ s.nextNode →
            ((bind stem live c).run b).run s = .ok ((c', b'), t) → b' = b ∧ Turned root n up c c' s t :=
          fun c hc' {_ _ _ _} hns hrun => ih c hc' (hw.child hc') (hnative.child hc')
            (Expr.isPipeline_child_eq_false hw.checked (Expr.native_iff.1 hnative).1 hscalar hc')
            (fun d hd => hsub d (Expr.mem_occurrences_of_child hc' hd)) hns hrun
        obtain ⟨rfl, hle, hwf, hnew, hreplaced⟩ := mapM_sound hn hsound hchildren
        have hlt : ∀ c ∈ e.children, c.serial < n := fun c hc =>
          (hroot.bounds c (hsub c (Expr.mem_occurrences_of_child hc (Expr.mem_occurrences_self c)))).2
        obtain ⟨m, rfl, hwf', hnew', hle'⟩ := update_sound hw hlt (Nat.le_trans hn hle) hwf hnew hupdate
        exact ⟨rfl, .of_forall₂ (kind_notMem_of_scalar hscalar hc) m hreplaced, hwf', hnew', Nat.le_trans hle hle'⟩

/-- Scalars that each can be bound can be bound in turn. -/
theorem mapM_complete {cs : List Expr}
    (ih : ∀ c ∈ cs, ∀ s : Supply, n ≤ s.nextNode → ∃ c' t, ((bind stem live c).run b).run s = .ok ((c', b), t) ∧
      s.nextNode ≤ t.nextNode) (hn : n ≤ s.nextNode) :
    ∃ cs' t, ((cs.mapM (bind stem live)).run b).run s = .ok ((cs', b), t) := by
  induction cs generalizing s with
  | nil => exact ⟨[], s, rfl⟩
  | cons c rest ihrest =>
      obtain ⟨c', u, hc, hle⟩ := ih c List.mem_cons_self s hn
      obtain ⟨rest', t, hrest⟩ := ihrest (fun d hd => ih d (List.mem_cons_of_mem _ hd)) (Nat.le_trans hn hle)
      exact ⟨c' :: rest', t, run_mapM_cons_eq_ok.2 ⟨c', rest', b, u, hc, hrest, rfl⟩⟩

/-- Binding succeeds on a scalar if its accumulators are tied to groups that have been passed. -/
theorem scalar_complete (hroot : Fresh lo n root.occurrences) (hready : Ready root up b)
    (hnames : ∀ g ∈ up, ∀ f ∈ g.outputs, Build.isPath f.1 = true) (hw : e.WellFormed) (hnative : e.Native)
    (hscalar : e.isPipeline = false) (hsub : ∀ d ∈ e.occurrences, d ∈ root.occurrences)
    (hbound : ∀ i scope inner, Expr.correlated i scope inner ∈ e.occurrences → scope ∈ b.bound)
    (hn : n ≤ s.nextNode) : ∃ e' t, ((bind stem live e).run b).run s = .ok ((e', b), t) := by
  induction e using Expr.induction_children generalizing s with
  | step e ih =>
      by_cases hc : e.kind = .correlated
      · obtain ⟨i, scope, inner, rfl⟩ := Expr.exists_of_kind_eq_correlated hc
        have hin := hbound i scope inner (Expr.mem_occurrences_self _)
        obtain ⟨name, hname, g, hg, hgroup, hfirst⟩ :=
          hready.read i scope inner (hsub _ (Expr.mem_occurrences_self _)) hin
        obtain ⟨f, hf, -⟩ := provides_of_sharedName? hfirst
        have hpath : Build.isPath name = true := hnames g hg (name, f) hf
        refine ⟨.field ⟨s.nextNode, i.type⟩ name, s.next, ?_⟩
        rw [bind_correlated]
        exact readOutput_eq_ok.2 ⟨hin, rfl, name, hname, Build.field_run_iff.2 ⟨hpath, rfl, rfl⟩⟩
      · have hg : e.kind ≠ .group := by
          intro hg
          rw [Expr.isPipeline, hg] at hscalar
          cases hscalar
        have hchild : ∀ c ∈ e.children, c.isPipeline = false := fun c hc' =>
          Expr.isPipeline_child_eq_false hw.checked (Expr.native_iff.1 hnative).1 hscalar hc'
        have hbelow : ∀ c ∈ e.children, ∀ d ∈ c.occurrences, d ∈ e.occurrences := fun c hc' d hd =>
          Expr.mem_occurrences_of_child hc' hd
        have hsound : ∀ c ∈ e.children, ∀ {s t : Supply} {c' : Expr} {b' : State}, n ≤ s.nextNode →
            ((bind stem live c).run b).run s = .ok ((c', b'), t) → b' = b ∧ Turned root n up c c' s t :=
          fun c hc' {_ _ _ _} hns hrun => scalar_sound hroot hready (hw.child hc') (hnative.child hc') (hchild c hc')
            (fun d hd => hsub d (hbelow c hc' d hd)) hns hrun
        have hcomplete : ∀ c ∈ e.children, ∀ s : Supply, n ≤ s.nextNode →
            ∃ c' t, ((bind stem live c).run b).run s = .ok ((c', b), t) ∧ s.nextNode ≤ t.nextNode := by
          intro c hc' s hns
          obtain ⟨c', t, hrun⟩ := ih c hc' (hw.child hc') (hnative.child hc') (hchild c hc')
            (fun d hd => hsub d (hbelow c hc' d hd))
            (fun i scope inner hd => hbound i scope inner (hbelow c hc' _ hd)) hns
          exact ⟨c', t, hrun, (hsound c hc' hns hrun).2.supply_le⟩
        obtain ⟨children, u, hchildren⟩ := mapM_complete hcomplete hn
        obtain ⟨-, -, -, -, hreplaced⟩ := mapM_sound hn hsound hchildren
        have hlike : List.Forall₂ Expr.Alike e.children children := by
          obtain ⟨hlength, hzip⟩ := List.forall₂_iff_zip.1 hreplaced
          refine List.forall₂_iff_zip.2 ⟨hlength, fun {c c'} hmem => ?_⟩
          have hc' := (List.of_mem_zip hmem).1
          exact (hzip hmem).alike (hw.child hc') (hnative.child hc')
        obtain ⟨e', t, hupdate⟩ := update_complete hw.checked hlike u
        refine ⟨e', t, ?_⟩
        rw [bind_kept _ _ hc hg]
        exact run_bind_eq_ok.2 ⟨children, b, u, hchildren, run_build_eq_ok.2 ⟨hupdate, rfl⟩⟩

end Scalars

section Groups

variable {i : NodeInfo} {input input' key key' : Expr} {old : List (String × Expr)}

/-- A group keeps its node if neither its children nor its outputs have changed. -/
def isKept (input key input' key' : Expr) (old outputs : List (String × Expr)) : Bool :=
  input'.isNode input && key'.isNode key && outputs.length == old.length

theorem bindGroup_run_eq_ok {p : GroupPlan} {bindings : Bindings}
    (hplan : GroupPlan.ofScope stem scope old (live scope) b.bindings = (p, bindings)) :
    ((bindGroup stem live e input key scope old input' key').run b).run s = .ok ((e', b'), t) ↔
      b' = ⟨scope :: b.bound, bindings, b.groups ++ [p]⟩ ∧
        if isKept input key input' key' old p.outputs then e' = e ∧ t = s
        else (Build.group input' key' scope p.outputs).run s = .ok (e', t) := by
  unfold bindGroup
  constructor
  · intro h
    obtain ⟨_, _, _, hget, h⟩ := run_bind_eq_ok.1 h
    cases hget
    rw [hplan] at h
    dsimp only at h
    split at h
    · next hkept =>
      obtain ⟨_, _, _, hnode, h⟩ := run_bind_eq_ok.1 h
      obtain ⟨rfl, rfl, rfl⟩ := run_pure_eq_ok.1 hnode
      cases h
      exact ⟨rfl, by rw [isKept, if_pos hkept]; exact ⟨rfl, rfl⟩⟩
    · next hchanged =>
      obtain ⟨node, c, u, hnode, h⟩ := run_bind_eq_ok.1 h
      obtain ⟨hbuild, rfl⟩ := run_build_eq_ok.1 hnode
      cases h
      exact ⟨rfl, by rwa [isKept, if_neg hchanged]⟩
  · rintro ⟨rfl, h⟩
    refine run_bind_eq_ok.2 ⟨b, b, s, rfl, ?_⟩
    rw [hplan]
    dsimp only
    by_cases hkept : isKept input key input' key' old p.outputs = true
    · rw [if_pos hkept] at h
      obtain ⟨rfl, rfl⟩ := h
      rw [isKept] at hkept
      rw [if_pos hkept]
      rfl
    · rw [if_neg hkept] at h
      rw [isKept] at hkept
      rw [if_neg hkept]
      exact run_bind_eq_ok.2 ⟨e', b, t, run_build_eq_ok.2 ⟨h, rfl⟩, rfl⟩

/-- The accumulators of a scope are told apart by their serials. -/
theorem accumulators_sound (hroot : Fresh lo n root.occurrences) (scope : Scope) :
    (∀ e ∈ (CorrelationMap.collect root).accumulators scope, e.kind = .correlated) ∧
      ∀ d ∈ (CorrelationMap.collect root).accumulators scope,
        ∀ e ∈ (CorrelationMap.collect root).accumulators scope, d.serial = e.serial → d = e := by
  have hmem : ∀ e ∈ (CorrelationMap.collect root).accumulators scope,
      e ∈ root.occurrences ∧ isTiedTo scope e = true := by
    intro e he
    rw [CorrelationMap.accumulators_collect] at he
    obtain ⟨hvisible, htied⟩ := List.mem_filter.1 he
    exact ⟨Expr.mem_occurrences_of_visible root e hvisible, htied⟩
  refine ⟨fun e he => ?_, fun d hd e he => hroot.eq_of_serial d (hmem d hd).1 e (hmem e he).1⟩
  obtain ⟨i, inner, rfl⟩ := Expr.exists_of_isTiedTo (hmem e he).2
  rfl

/-- What naming adds to a group is what planning may add to it. -/
theorem added_of_adds {new : List (String × Expr)} (hold : (old.map Prod.fst).Nodup)
    (h : GroupPlan.Adds stem old new ((CorrelationMap.collect root).accumulators scope)) :
    Added root scope old new := by
  refine ⟨fun f hf => ?_, h.nodup hold, h.unlike⟩
  obtain ⟨i, sc, hlive⟩ := h.live f hf
  exact ⟨i, Expr.mem_occurrences_of_visible root _ (correlated_mem_visible hlive).2⟩

/-- After a group, also the accumulators that are tied to its scope have the names of outputs. -/
theorem Ready.group (hready : Ready root up b) (hroot : Fresh lo n root.occurrences) (hw : root.WellFormed)
    {naming : GroupPlan.Naming} {j : NodeInfo} {groups : List GroupPlan}
    (hreads : Reads naming.outputs ((CorrelationMap.collect root).accumulators scope) b.bindings naming.bindings) :
    Ready root (.group j input key scope naming.outputs :: up) ⟨scope :: b.bound, naming.bindings, groups⟩ := by
  constructor
  · intro sc
    rw [List.mem_cons, List.any_cons, Bool.or_eq_true, hready.bound]
    exact or_congr_left ⟨fun h => decide_eq_true h.symm, fun h => (of_decide_eq_true h).symm⟩
  · intro i sc inner hmem hbound
    have hvisible := Expr.mem_visible_of_kind_eq_correlated hw hmem rfl
    by_cases hsc : sc = scope
    · have hlive : Expr.correlated i sc inner ∈ (CorrelationMap.collect root).accumulators scope := by
        rw [CorrelationMap.accumulators_collect]
        exact List.mem_filter.2 ⟨hvisible, decide_eq_true hsc⟩
      obtain ⟨name, hname, hfirst⟩ := hreads.read i sc inner hlive
      exact ⟨name, hname, _, List.mem_cons_self, decide_eq_true hsc.symm, hfirst⟩
    · have hold : sc ∈ b.bound := (List.mem_cons.1 hbound).resolve_left hsc
      obtain ⟨name, hname, g, hg, hfirst⟩ := hready.read i sc inner hmem hold
      refine ⟨name, (hreads.other _ fun e he hserial => hsc ?_).trans hname, g, List.mem_cons_of_mem _ hg, hfirst⟩
      -- an accumulator of the scope that had the serial would be this one
      have hlive := (accumulators_sound hroot scope).1 e he
      obtain ⟨k, sc', d, rfl⟩ := Expr.exists_of_kind_eq_correlated hlive
      obtain ⟨rfl, hd⟩ := correlated_mem_visible he
      cases hroot.eq_of_serial _ (Expr.mem_occurrences_of_visible root _ hd) _ hmem hserial
      rfl

/-- Binding a group over children that have been bound. -/
theorem group_sound {c : State} {u v : Supply} (hroot : Fresh lo n root.occurrences) (hrootw : root.WellFormed)
    (hrootn : root.Native) (hw : (Expr.group i input key scope old).WellFormed)
    (hlt : input.serial < n ∧ key.serial < n) (hn : n ≤ s.nextNode) (hready : Ready root input'.chain c)
    (hinput : Turned root n [] input input' s u) (hkey : Turned root n input'.chain key key' u v)
    (h : ((bindGroup stem (CorrelationMap.collect root).accumulators (.group i input key scope old) input key scope old
      input' key').run c).run v = .ok ((e', b'), t)) :
    Turned root n [] (.group i input key scope old) e' s t ∧ Ready root e'.chain b' := by
  obtain ⟨hkind, hsame⟩ := accumulators_sound hroot scope
  obtain ⟨naming, hassigned, hplan⟩ : ∃ naming, Assigned stem old c.bindings _ naming ∧
      GroupPlan.ofScope stem scope old ((CorrelationMap.collect root).accumulators scope) c.bindings = _ :=
    assigned_ofScope scope c.bindings hkind hsame
  obtain ⟨⟨new, houtputs, hadds⟩, hreads⟩ := hassigned
  obtain ⟨rfl, hnode⟩ := (bindGroup_run_eq_ok hplan).1 h
  have hadded : Added root scope old new := added_of_adds hw.checked.2.2.2.2.1 hadds
  have hle : s.nextNode ≤ v.nextNode := Nat.le_trans hinput.supply_le hkey.supply_le
  have htype : i.type = .documents := hw.checked.2.2.2.2.2
  split at hnode
  · next hkept =>
    obtain ⟨rfl, rfl⟩ := hnode
    obtain ⟨⟨hserial, hserial'⟩, hlength⟩ :
        (input'.serial = input.serial ∧ key'.serial = key.serial) ∧ naming.outputs.length = old.length := by
      simpa only [isKept, Expr.isNode, Bool.and_eq_true, beq_iff_eq] using hkept
    have hinput' : input' = input := hinput.eq_of_serial_eq hlt.1 hserial
    have hkey' : key' = key := hkey.eq_of_serial_eq hlt.2 hserial'
    have hnew : new = [] := by
      rw [houtputs, List.length_append] at hlength
      exact List.eq_nil_of_length_eq_zero (by omega)
    subst hinput' hkey' hnew
    rw [List.append_nil] at houtputs
    refine ⟨⟨?_, hw, .inl rfl, hle⟩, ?_⟩
    · have hreplaced : Replaced root [] _ _ := .group i i.serial hinput.replaced hkey.replaced hadded
      rwa [List.append_nil] at hreplaced
    · rw [← houtputs]
      exact hready.group hroot hrootw hreads
  · obtain ⟨type, rfl, hchecked, rfl⟩ := (Build.group_makes input' key' scope naming.outputs v e' t).1 hnode
    have htype' : type = i.type := hchecked.2.2.2.2.2.trans htype.symm
    subst htype'
    refine ⟨⟨?_, Expr.wellFormed_iff.2 ⟨hchecked, ?_⟩, .inr ?_, Nat.le_succ_of_le hle⟩, ?_⟩
    · rw [houtputs]
      exact .group i v.nextNode hinput.replaced hkey.replaced hadded
    · refine List.forall_mem_cons.2 ⟨hinput.wellFormed, List.forall_mem_cons.2 ⟨hkey.wellFormed, fun d hd => ?_⟩⟩
      rw [houtputs] at hd
      obtain ⟨f, hf, rfl⟩ := List.mem_map.1 hd
      rcases List.mem_append.1 hf with hf | hf
      · exact hw.child (List.mem_cons_of_mem _ (List.mem_cons_of_mem _ (List.mem_map_of_mem hf)))
      · exact (Replaced.added_sound hrootw hrootn hadded f hf).1
    · exact Nat.le_trans hn hle
    · exact hready.group hroot hrootw hreads

end Groups

section Pipelines

variable {c d : Expr}

theorem run_bind_one (hc : e.kind ≠ .correlated) (hg : e.kind ≠ .group) (hchildren : e.children = [c]) :
    ((bind stem live e).run b).run s = .ok ((e', b'), t) ↔
      ∃ c' u, ((bind stem live c).run b).run s = .ok ((c', b'), u) ∧ (e.update [c']).run u = .ok (e', t) := by
  rw [bind_kept _ _ hc hg, hchildren, run_bind_eq_ok]
  constructor
  · rintro ⟨_, b₁, u, hmapM, h⟩
    obtain ⟨hupdate, rfl⟩ := run_build_eq_ok.1 h
    obtain ⟨c', _, _, _, hrun, hnil, rfl⟩ := run_mapM_cons_eq_ok.1 hmapM
    obtain ⟨rfl, rfl, rfl⟩ := run_mapM_nil_eq_ok.1 hnil
    exact ⟨c', _, hrun, hupdate⟩
  · rintro ⟨c', u, hrun, hupdate⟩
    exact ⟨[c'], b', u, run_mapM_cons_eq_ok.2 ⟨c', [], b', u, hrun, rfl, rfl⟩, run_build_eq_ok.2 ⟨hupdate, rfl⟩⟩

theorem run_bind_two (hc : e.kind ≠ .correlated) (hg : e.kind ≠ .group) (hchildren : e.children = [c, d]) :
    ((bind stem live e).run b).run s = .ok ((e', b'), t) ↔
      ∃ c' d' b₁ u v, ((bind stem live c).run b).run s = .ok ((c', b₁), u) ∧
        ((bind stem live d).run b₁).run u = .ok ((d', b'), v) ∧ (e.update [c', d']).run v = .ok (e', t) := by
  rw [bind_kept _ _ hc hg, hchildren, run_bind_eq_ok]
  constructor
  · rintro ⟨_, b₁, u, hmapM, h⟩
    obtain ⟨hupdate, rfl⟩ := run_build_eq_ok.1 h
    obtain ⟨c', _, _, _, hfirst, hrest, rfl⟩ := run_mapM_cons_eq_ok.1 hmapM
    obtain ⟨d', _, _, _, hsecond, hnil, rfl⟩ := run_mapM_cons_eq_ok.1 hrest
    obtain ⟨rfl, rfl, rfl⟩ := run_mapM_nil_eq_ok.1 hnil
    exact ⟨c', d', _, _, _, hfirst, hsecond, hupdate⟩
  · rintro ⟨c', d', b₁, u, v, hfirst, hsecond, hupdate⟩
    refine ⟨[c', d'], b', v, run_mapM_cons_eq_ok.2 ⟨c', [d'], b₁, u, hfirst, ?_, rfl⟩, run_build_eq_ok.2 ⟨hupdate, rfl⟩⟩
    exact run_mapM_cons_eq_ok.2 ⟨d', [], b', v, hsecond, rfl, rfl⟩

/-- A pipeline has been bound from the first state on. -/
structure Passed (root : Expr) (n : Nat) (e e' : Expr) (s t : Supply) (b : State) : Prop
    extends Turned root n [] e e' s t where
  ready : Ready root e'.chain b

variable (hroot : Fresh lo n root.occurrences) (hrootw : root.WellFormed) (hrootn : root.Native)

include hroot in
theorem serial_lt_of_child (hsub : ∀ d ∈ e.occurrences, d ∈ root.occurrences) : ∀ c ∈ e.children, c.serial < n :=
  fun c hc => (hroot.bounds c (hsub c (Expr.mem_occurrences_of_child hc (Expr.mem_occurrences_self c)))).2

include hroot in
/-- A pipeline that only reads from another one. -/
theorem passed_one (hw : e.WellFormed) (hsub : ∀ d ∈ e.occurrences, d ∈ root.occurrences)
    (hkind : e.kind ∉ [.correlated, .filter, .group, .project]) (hchildren : e.children = [c])
    (hchain : ∀ i c', (e.withChildren i [c']).chain = e.withChildren i [c'] :: c'.chain)
    (ih : ∀ {c' : Expr} {b' : State} {t : Supply}, ((bind stem live c).run {}).run s = .ok ((c', b'), t) →
      Passed root n c c' s t b') (hn : n ≤ s.nextNode)
    (h : ((bind stem live e).run {}).run s = .ok ((e', b'), t)) : Passed root n e e' s t b' := by
  simp only [List.mem_cons, List.not_mem_nil, or_false, not_or] at hkind
  obtain ⟨c', u, hrun, hupdate⟩ := (run_bind_one hkind.1 hkind.2.2.1 hchildren).1 h
  have hc := ih hrun
  obtain ⟨m, rfl, hwf, hnew, hle⟩ := update_sound hw (serial_lt_of_child hroot hsub)
    (Nat.le_trans hn hc.supply_le) (List.forall_mem_singleton.2 hc.wellFormed)
    (by rw [hchildren]; exact .cons hc.eq_or_new .nil) hupdate
  refine ⟨⟨.of_forall₂ (by simpa using hkind) m ?_, hwf, hnew, Nat.le_trans hc.supply_le hle⟩, ?_⟩
  · rw [hchildren]
    exact .cons hc.replaced .nil
  · rw [hchain]
    exact hc.ready.cons (by rw [Replaced.kind_withChildren]; exact hkind.2.2.1)

include hroot in
/-- A pipeline that reads scalars from the documents of another one. -/
theorem passed_two (hw : e.WellFormed) (hnative : e.Native) (hsub : ∀ d ∈ e.occurrences, d ∈ root.occurrences)
    (hc : e.kind ≠ .correlated) (hg : e.kind ≠ .group) (hchildren : e.children = [c, d])
    (hscalar : d.isPipeline = false)
    (ih : ∀ {c' : Expr} {b' : State} {t : Supply}, ((bind stem live c).run {}).run s = .ok ((c', b'), t) →
      Passed root n c c' s t b') (hn : n ≤ s.nextNode)
    (h : ((bind stem live e).run {}).run s = .ok ((e', b'), t)) :
    ∃ m c' d', e' = e.withChildren ⟨m, e.type⟩ [c', d'] ∧ Replaced root [] c c' ∧ Replaced root c'.chain d d' ∧
      e'.WellFormed ∧ (e' = e ∨ n ≤ e'.serial) ∧ s.nextNode ≤ t.nextNode ∧ Ready root c'.chain b' := by
  obtain ⟨c', d', b₁, u, v, hfirst, hsecond, hupdate⟩ := (run_bind_two hc hg hchildren).1 h
  have hmem : d ∈ e.children := by rw [hchildren]; exact List.mem_cons_of_mem _ List.mem_cons_self
  have hinput := ih hfirst
  obtain ⟨rfl, hd⟩ := scalar_sound hroot hinput.ready (hw.child hmem) (hnative.child hmem) hscalar
    (fun x hx => hsub x (Expr.mem_occurrences_of_child hmem hx)) (Nat.le_trans hn hinput.supply_le) hsecond
  have hle := Nat.le_trans hinput.supply_le hd.supply_le
  obtain ⟨m, rfl, hwf, hnew, hle'⟩ := update_sound hw (serial_lt_of_child hroot hsub) (Nat.le_trans hn hle)
    (List.forall_mem_cons.2 ⟨hinput.wellFormed, List.forall_mem_singleton.2 hd.wellFormed⟩)
    (by rw [hchildren]; exact .cons hinput.eq_or_new (.cons hd.eq_or_new .nil)) hupdate
  exact ⟨m, c', d', rfl, hinput.replaced, hd.replaced, hwf, hnew, Nat.le_trans hle hle', hinput.ready⟩

include hroot hrootw hrootn in
/-- What binding makes of a pipeline. -/
theorem pipeline_sound (hw : e.WellFormed) (hnative : e.Native) (hpipeline : e.isPipeline = true)
    (hsub : ∀ d ∈ e.occurrences, d ∈ root.occurrences) (hn : n ≤ s.nextNode)
    (h : ((bind stem (CorrelationMap.collect root).accumulators e).run {}).run s = .ok ((e', b'), t)) :
    Passed root n e e' s t b' := by
  induction e using Expr.induction_children generalizing s t e' b' with
  | step e ih =>
      have hinput {input : Expr} (hmem : input ∈ e.children) (hp : input.isPipeline = true) {s t : Supply}
          {input' : Expr} {b' : State} (hn : n ≤ s.nextNode)
          (hrun : ((bind stem (CorrelationMap.collect root).accumulators input).run {}).run s = .ok ((input', b'), t)) :
          Passed root n input input' s t b' :=
        ih input hmem (hw.child hmem) (hnative.child hmem) hp
          (fun d hd => hsub d (Expr.mem_occurrences_of_child hmem hd)) hn hrun
      have hchecked := hw.checked
      cases e with
      | constant | field | binary | unary | document | accumulator | correlated | extension => cases hpipeline
      | source i collection =>
          rw [bind_kept _ _ (by simp [Expr.kind]) (by simp [Expr.kind])] at h
          obtain ⟨children, c, u, hchildren, hnode⟩ := run_bind_eq_ok.1 h
          obtain ⟨rfl, rfl, rfl⟩ := run_pure_eq_ok.1 hchildren
          obtain ⟨hupdate, rfl⟩ := run_build_eq_ok.1 hnode
          have hnone : ∀ c ∈ ([] : List Expr), c.WellFormed := List.forall_mem_nil _
          obtain ⟨m, rfl, hwf, hnew, hle⟩ :=
            update_sound hw (serial_lt_of_child hroot hsub) hn hnone .nil hupdate
          exact ⟨⟨.of_forall₂ (by simp [Expr.kind]) m .nil, hwf, hnew, hle⟩, Ready.nothing.cons (by simp [Expr.kind])⟩
      | filter i input predicate =>
          obtain ⟨hp, hscalar, -⟩ := hchecked
          obtain ⟨m, input', predicate', rfl, hr, hr', hwf, hnew, hle, hready⟩ :=
            passed_two hroot hw hnative hsub (by simp [Expr.kind]) (by simp [Expr.kind]) rfl hscalar
              (hinput List.mem_cons_self hp hn) hn h
          exact ⟨⟨.filter i m hr hr', hwf, hnew, hle⟩, hready.cons (by simp [Expr.kind])⟩
      | project i input projection =>
          obtain ⟨hp, hscalar, -⟩ := hchecked
          obtain ⟨m, input', projection', rfl, hr, hr', hwf, hnew, hle, hready⟩ :=
            passed_two hroot hw hnative hsub (by simp [Expr.kind]) (by simp [Expr.kind]) rfl hscalar
              (hinput List.mem_cons_self hp hn) hn h
          exact ⟨⟨.project i m hr hr', hwf, hnew, hle⟩, hready.cons (by simp [Expr.kind])⟩
      | group i input key scope outputs =>
          obtain ⟨hp, hscalar, -⟩ := hchecked
          have hmem : key ∈ Expr.children (.group i input key scope outputs) :=
            List.mem_cons_of_mem _ List.mem_cons_self
          have hlt := serial_lt_of_child hroot hsub
          rw [bind_group] at h
          obtain ⟨input', c, u, hfirst, hrest⟩ := run_bind_eq_ok.1 h
          obtain ⟨key', d, v, hsecond, hgroup⟩ := run_bind_eq_ok.1 hrest
          have hpassed := hinput List.mem_cons_self hp hn hfirst
          obtain ⟨rfl, hkey⟩ := scalar_sound hroot hpassed.ready (hw.child hmem) (hnative.child hmem) hscalar
            (fun x hx => hsub x (Expr.mem_occurrences_of_child hmem hx)) (Nat.le_trans hn hpassed.supply_le) hsecond
          obtain ⟨hturned, hready⟩ := group_sound hroot hrootw hrootn hw
            ⟨hlt input List.mem_cons_self, hlt key hmem⟩ hn hpassed.ready hpassed.toTurned hkey hgroup
          exact ⟨hturned, hready⟩
      | sort i input | skip i input | limit i input =>
          exact passed_one hroot hw hsub (by simp [Expr.kind]) rfl (fun _ _ => rfl)
            (hinput List.mem_cons_self hchecked.1 hn) hn h

end Pipelines

end Aggregation.Binding
