import Aggregation.Plan.Binding
import Aggregation.Proofs.Expr.Fresh
import Aggregation.Proofs.Expr.Update
import Aggregation.Proofs.Plan.Outputs

/-!
Binding against a relation of trees. In the bound tree every correlated accumulator is the field of an output of the
plan of its scope whose structure it has, every group has the outputs of its plan, and all else is kept.
-/

namespace Aggregation

namespace Binding

open Aggregation.Expr (isTiedTo isGroupOf)
open GroupPlan (Named Naming Provides named_ofScope)

/-- Names that the outputs of a group may have together. -/
def AreOutputNames (outputs : List (String × Expr)) : Prop :=
  (∀ f ∈ outputs, Build.isOutputName f.1 = true) ∧ ("_id" :: outputs.map Prod.fst).Nodup

/-- The plan of a group: the outputs that the group had, and after them accumulators of the tree that are tied to it. -/
structure Fits (root : Expr) (scope : Scope) (existing : List (String × Expr)) (p : GroupPlan) : Prop where
  scope_eq : p.scope = scope
  outputs : ∃ new, p.outputs = existing ++ new ∧ ∀ f ∈ new, ∃ i, Expr.correlated i scope f.2 ∈ root.visible
  names : p.outputs = existing ∨ AreOutputNames p.outputs

/-- A tree and the tree that it becomes, by plans for its groups. -/
inductive Bound (root : Expr) (plans : List GroupPlan) : Expr → Expr → Prop
  | kept {e : Expr} (hc : e.kind ≠ .correlated) (hg : e.kind ≠ .group) (i : NodeInfo) {children : List Expr}
      (h : List.Forall₂ (Bound root plans) e.children children) : Bound root plans e (e.withChildren i children)
  | correlated (i j : NodeInfo) {scope : Scope} {inner : Expr} {name : String} {p : GroupPlan} (hp : p ∈ plans)
      (hscope : p.scope = scope) (h : Provides p.outputs name inner) :
      Bound root plans (.correlated i scope inner) (.field j name)
  | group (i j : NodeInfo) {input input' key key' : Expr} {scope : Scope} {outputs : List (String × Expr)}
      {p : GroupPlan} (hp : p ∈ plans) (hfits : Fits root scope outputs p) (hinput : Bound root plans input input')
      (hkey : Bound root plans key key') :
      Bound root plans (.group i input key scope outputs) (.group j input' key' scope p.outputs)

section Runs

variable {α β : Type} {b b' : State} {s t : Supply}

theorem run_bind_eq_ok {x : Bind α} {f : α → Bind β} {y : β} :
    ((x >>= f).run b).run s = .ok ((y, b'), t) ↔
      ∃ a c u, (x.run b).run s = .ok ((a, c), u) ∧ ((f a).run c).run u = .ok ((y, b'), t) := by
  rw [StateT.run_bind, Build.run_bind_eq_ok]
  exact ⟨fun ⟨p, u, hx, hf⟩ => ⟨p.1, p.2, u, hx, hf⟩, fun ⟨a, c, u, hx, hf⟩ => ⟨(a, c), u, hx, hf⟩⟩

theorem run_build_eq_ok {x : Build α} {y : α} :
    ((liftM x : Bind α).run b).run s = .ok ((y, b'), t) ↔ x.run s = .ok (y, t) ∧ b' = b := by
  show ((x >>= fun a => pure (a, b) : Build (α × State))).run s = _ ↔ _
  rw [Build.run_bind_eq_ok]
  constructor
  · rintro ⟨a, u, hx, hpure⟩
    obtain ⟨heq, rfl⟩ := Build.run_pure_eq_ok.1 hpure
    cases heq
    exact ⟨hx, rfl⟩
  · rintro ⟨hx, rfl⟩
    exact ⟨y, t, hx, rfl⟩

theorem run_pure_eq_ok {x y : α} :
    ((pure x : Bind α).run b).run s = .ok ((y, b'), t) ↔ y = x ∧ b' = b ∧ t = s :=
  ⟨fun h => by cases h; exact ⟨rfl, rfl, rfl⟩, fun ⟨hy, hb, ht⟩ => by rw [hy, hb, ht]; rfl⟩

theorem run_mapM_nil_eq_ok {f : α → Bind β} {ys : List β} :
    (([].mapM f).run b).run s = .ok ((ys, b'), t) ↔ ys = [] ∧ b' = b ∧ t = s := by
  rw [List.mapM_nil, run_pure_eq_ok]

theorem run_mapM_cons_eq_ok {f : α → Bind β} {x : α} {xs : List α} {ys : List β} :
    (((x :: xs).mapM f).run b).run s = .ok ((ys, b'), t) ↔
      ∃ y rest c u, ((f x).run b).run s = .ok ((y, c), u) ∧ ((xs.mapM f).run c).run u = .ok ((rest, b'), t) ∧
        ys = y :: rest := by
  rw [List.mapM_cons, run_bind_eq_ok]
  constructor
  · rintro ⟨y, c, u, hx, h⟩
    obtain ⟨rest, c', u', hrest, h⟩ := run_bind_eq_ok.1 h
    obtain ⟨rfl, rfl, rfl⟩ := run_pure_eq_ok.1 h
    exact ⟨y, rest, c, u, hx, hrest, rfl⟩
  · rintro ⟨y, rest, c, u, hx, hrest, rfl⟩
    exact ⟨y, c, u, hx, run_bind_eq_ok.2 ⟨rest, b', t, hrest, run_pure_eq_ok.2 ⟨rfl, rfl, rfl⟩⟩⟩

end Runs

section Equations

variable (stem : String) (live : Scope → List Expr)

theorem bind_correlated (i : NodeInfo) (scope : Scope) (inner : Expr) :
    bind stem live (.correlated i scope inner) = readOutput (.correlated i scope inner) scope := by
  rw [bind]

theorem bind_group (i : NodeInfo) (input key : Expr) (scope : Scope) (outputs : List (String × Expr)) :
    bind stem live (.group i input key scope outputs) = (do
      let input' ← bind stem live input
      let key' ← bind stem live key
      bindGroup stem live (.group i input key scope outputs) input key scope outputs input' key') := by
  rw [bind]

theorem bind_kept {e : Expr} (hc : e.kind ≠ .correlated) (hg : e.kind ≠ .group) :
    bind stem live e = (do
      let children ← e.children.mapM (bind stem live)
      e.update children) := by
  cases e with
  | correlated => exact absurd rfl hc
  | group => exact absurd rfl hg
  | constant | field | binary | unary | document | accumulator | source | filter | project | sort | skip | limit
  | extension => rw [bind, List.mapM_subtype (fun _ _ => rfl), List.unattach_attach] <;> simp

end Equations

/-- Every binding is of an accumulator of the tree to an output of the plan of its scope that has its structure. -/
def Sound (root : Expr) (b : State) : Prop :=
  ∀ x ∈ b.bindings, ∃ i scope inner, Expr.correlated i scope inner ∈ root.visible ∧ i.serial = x.1 ∧
    ∃ p ∈ b.groups, p.scope = scope ∧ Provides p.outputs x.2 inner

/-- How many plans there are for a scope. -/
def planCount (b : State) (scope : Scope) : Nat := (b.groups.map GroupPlan.scope).count scope

/-- What binding a tree has done. The serials of the tree are below `n`, those of new nodes are not. -/
structure Binds (root : Expr) (n : Nat) (e : Expr) (b : State) (s : Supply) (e' : Expr) (b' : State) (t : Supply) :
    Prop where
  bound : ∀ plans : List GroupPlan, (∀ p ∈ b'.groups, p ∈ plans) → Bound root plans e e'
  sound : Sound root b'
  grows : ∀ p ∈ b.groups, p ∈ b'.groups
  eq_or_new : e' = e ∨ n ≤ e'.serial
  supply_le : s.nextNode ≤ t.nextNode
  count_le : ∀ scope, planCount b' scope ≤ planCount b scope + e.visible.countP (isGroupOf scope)

/-- What binding trees in turn has done. -/
structure AllBind (root : Expr) (n : Nat) (es : List Expr) (b : State) (s : Supply) (es' : List Expr) (b' : State)
    (t : Supply) : Prop where
  bound : ∀ plans : List GroupPlan, (∀ p ∈ b'.groups, p ∈ plans) → List.Forall₂ (Bound root plans) es es'
  sound : Sound root b'
  grows : ∀ p ∈ b.groups, p ∈ b'.groups
  eq_or_new : List.Forall₂ (fun e e' => e' = e ∨ n ≤ e'.serial) es es'
  supply_le : s.nextNode ≤ t.nextNode
  count_le : ∀ scope, planCount b' scope
    ≤ planCount b scope + (es.flatMap Expr.visible).countP (isGroupOf scope)

section Binds

variable {stem : String} {live : Scope → List Expr} {root : Expr} {lo n : Nat} {b b' : State} {s t : Supply}

theorem mem_visible_self (e : Expr) : e ∈ e.visible := by
  rw [Expr.visible_eq]
  split
  · exact List.mem_cons_self
  · exact List.mem_cons_self

theorem visible_of_child {c e : Expr} (hk : e.kind ≠ .correlated) (hc : c ∈ e.children) :
    ∀ d ∈ c.visible, d ∈ e.visible := by
  intro d hd
  rw [Expr.visible_eq, if_neg hk]
  exact List.mem_cons_of_mem _ (List.mem_flatMap.2 ⟨c, hc, hd⟩)

theorem allBind_of_mapM {es es' : List Expr} (hn : n ≤ s.nextNode) (hsound : Sound root b)
    (ih : ∀ e ∈ es, ∀ {b b' : State} {s t : Supply} {e' : Expr}, n ≤ s.nextNode → Sound root b →
      ((bind stem live e).run b).run s = .ok ((e', b'), t) → Binds root n e b s e' b' t)
    (h : ((es.mapM (bind stem live)).run b).run s = .ok ((es', b'), t)) : AllBind root n es b s es' b' t := by
  induction es generalizing b s es' with
  | nil =>
      obtain ⟨rfl, rfl, rfl⟩ := run_mapM_nil_eq_ok.1 h
      exact ⟨fun _ _ => .nil, hsound, fun _ hp => hp, .nil, Nat.le_refl _, fun _ => Nat.le_refl _⟩
  | cons e rest ihrest =>
      obtain ⟨e', rest', c, u, he, hrest, rfl⟩ := run_mapM_cons_eq_ok.1 h
      have hfirst := ih e List.mem_cons_self hn hsound he
      have hothers := ihrest (Nat.le_trans hn hfirst.supply_le) hfirst.sound
        (fun d hd => ih d (List.mem_cons_of_mem _ hd)) hrest
      refine ⟨fun plans hplans => .cons (hfirst.bound plans fun p hp => hplans p (hothers.grows p hp))
        (hothers.bound plans hplans), hothers.sound, fun p hp => hothers.grows p (hfirst.grows p hp),
        .cons hfirst.eq_or_new hothers.eq_or_new, Nat.le_trans hfirst.supply_le hothers.supply_le, fun scope => ?_⟩
      have hcount := hfirst.count_le scope
      have hcounts := hothers.count_le scope
      rw [List.flatMap_cons, List.countP_append]
      omega

/-- Children that kept their serials are the children that there were. -/
theorem eq_of_serials {es es' : List Expr} (h : List.Forall₂ (fun e e' => e' = e ∨ n ≤ e'.serial) es es')
    (hlt : ∀ e ∈ es, e.serial < n) (hserials : ∀ p ∈ es.zip es', p.1.serial = p.2.serial) : es' = es := by
  induction h with
  | nil => rfl
  | @cons e e' es es' he _ ih =>
      rw [List.zip_cons_cons] at hserials
      obtain ⟨hserial, hserials⟩ := List.forall_mem_cons.1 hserials
      obtain ⟨helt, hlt⟩ := List.forall_mem_cons.1 hlt
      rw [ih hlt hserials]
      rcases he with rfl | hle
      · rfl
      · have heq : e.serial = e'.serial := hserial
        omega

theorem binds_kept {e e' : Expr} {es' : List Expr} {c : State} {u : Supply} (hc : e.kind ≠ .correlated)
    (hg : e.kind ≠ .group) (hlt : ∀ d ∈ e.children, d.serial < n) (hn : n ≤ s.nextNode)
    (hchildren : AllBind root n e.children b s es' c u) (h : (e.update es').run u = .ok (e', t)) :
    Binds root n e b s e' c t := by
  obtain ⟨hlength, hupdate⟩ := Expr.update_eq_ok h
  have hcount : ∀ scope, planCount c scope ≤ planCount b scope + e.visible.countP (isGroupOf scope) := by
    intro scope
    have hnode : ¬isGroupOf scope e = true := Bool.eq_false_iff.1 (Expr.isGroupOf_eq_false hg scope)
    rw [Expr.visible_eq, if_neg hc, List.countP_cons_of_neg hnode]
    exact hchildren.count_le scope
  rcases hupdate with ⟨hserials, rfl, rfl⟩ | ⟨i, rfl, hserial, rfl⟩
  · have hsame : es' = e'.children := eq_of_serials hchildren.eq_or_new hlt hserials
    refine ⟨fun plans hplans => ?_, hchildren.sound, hchildren.grows, .inl rfl, hchildren.supply_le, hcount⟩
    have hbound := hchildren.bound plans hplans
    rw [hsame] at hbound
    have hkept := Bound.kept hc hg e'.info hbound
    rwa [Expr.withChildren_children] at hkept
  · have hinfo : (e.withChildren i es').info = i := Expr.info_withChildren hlength
    refine ⟨fun plans hplans => .kept hc hg i (hchildren.bound plans hplans), hchildren.sound, hchildren.grows,
      .inr ?_, Nat.le_succ_of_le hchildren.supply_le, hcount⟩
    rw [Expr.serial, hinfo, hserial]
    exact Nat.le_trans hn hchildren.supply_le

theorem binds_correlated {e' inner : Expr} {i : NodeInfo} {scope : Scope} (hroot : Fresh lo n root.occurrences)
    (hmem : Expr.correlated i scope inner ∈ root.visible) (hn : n ≤ s.nextNode) (hsound : Sound root b)
    (h : ((readOutput (.correlated i scope inner) scope).run b).run s = .ok ((e', b'), t)) :
    Binds root n (.correlated i scope inner) b s e' b' t := by
  unfold readOutput at h
  obtain ⟨c, b₀, u, hget, h⟩ := run_bind_eq_ok.1 h
  cases hget
  dsimp only at h
  split at h
  · exact absurd h nofun
  · split at h
    · exact absurd h nofun
    · next name hname =>
        obtain ⟨hfield, rfl⟩ := run_build_eq_ok.1 h
        obtain ⟨hpath, j, rfl, hserial, rfl⟩ := Build.field_eq_ok hfield
        obtain ⟨x, hx, hserials, hxname⟩ : ∃ x ∈ b'.bindings, x.1 = i.serial ∧ x.2 = name := by
          obtain ⟨before, after, hsplit, -⟩ := List.lookup_eq_some_iff.1 hname
          exact ⟨(i.serial, name), hsplit ▸ List.mem_append_right _ List.mem_cons_self, rfl, rfl⟩
        obtain ⟨i', scope', inner', hmem', hserial', p, hp, hscope, hprovides⟩ := hsound x hx
        have hsame : Expr.correlated i' scope' inner' = .correlated i scope inner :=
          hroot.eq_of_serial _ (Expr.mem_occurrences_of_visible root _ hmem') _
            (Expr.mem_occurrences_of_visible root _ hmem) (hserial'.trans hserials)
        cases hsame
        -- the binding of the serial was made for this node, since no other one of the tree has it
        refine ⟨fun plans hplans => .correlated i j (hplans p hp) hscope (hxname ▸ hprovides), hsound,
          fun _ hp => hp, .inr ?_, Nat.le_succ _, fun _ => Nat.le_add_right _ _⟩
        show n ≤ j.serial
        omega

section Group

variable {scope : Scope} {outputs : List (String × Expr)} {naming : Naming}

/-- The accumulators that name outputs of a scope are the accumulators of the tree that are tied to it. -/
theorem correlated_mem_visible {i : NodeInfo} {s : Scope} {inner : Expr}
    (h : Expr.correlated i s inner ∈ (CorrelationMap.collect root).accumulators scope) :
    s = scope ∧ Expr.correlated i scope inner ∈ root.visible := by
  rw [CorrelationMap.accumulators_collect] at h
  obtain ⟨hmem, htied⟩ := List.mem_filter.1 h
  have hscope : s = scope := of_decide_eq_true htied
  exact ⟨hscope, hscope ▸ hmem⟩

theorem sound_of_named {p : GroupPlan} (hp : p.scope = scope ∧ p.outputs = naming.outputs) (hsound : Sound root b)
    (hnamed : Named outputs b.bindings ((CorrelationMap.collect root).accumulators scope) naming) :
    Sound root ⟨scope :: b.bound, naming.bindings, b.groups ++ [p]⟩ := by
  obtain ⟨new, hbindings, hnew⟩ := hnamed.bindings
  intro x hx
  have hx : x ∈ new ++ b.bindings := hbindings ▸ hx
  rcases List.mem_append.1 hx with hx | hx
  · obtain ⟨i, s, inner, hlive, hserial, hprovides⟩ := hnew x hx
    obtain ⟨rfl, hmem⟩ := correlated_mem_visible hlive
    exact ⟨i, s, inner, hmem, hserial, p, List.mem_append_right _ List.mem_cons_self, hp.1, hp.2 ▸ hprovides⟩
  · obtain ⟨i, s, inner, hmem, hserial, q, hq, hscope, hprovides⟩ := hsound x hx
    exact ⟨i, s, inner, hmem, hserial, q, List.mem_append_left _ hq, hscope, hprovides⟩

theorem planCount_append (p : GroupPlan) (sc : Scope) (bound : List Scope) (bindings : Bindings) :
    planCount ⟨bound, bindings, b.groups ++ [p]⟩ sc = planCount b sc + if p.scope = sc then 1 else 0 := by
  rw [planCount, List.map_append, List.count_append, List.map_singleton, List.count_singleton, planCount]
  simp only [beq_iff_eq]

/-- A group counts once for its scope, besides what its children count for. -/
theorem countP_group (f : Expr → List Expr) (i : NodeInfo) (input key : Expr) (scope : Scope)
    (outputs : List (String × Expr)) (sc : Scope) :
    (Expr.group i input key scope outputs :: (Expr.children (.group i input key scope outputs)).flatMap f).countP
        (isGroupOf sc) =
      (if scope = sc then 1 else 0) + (f input).countP (isGroupOf sc) + (f key).countP (isGroupOf sc) +
        ((outputs.map Prod.snd).flatMap f).countP (isGroupOf sc) := by
  have hself : (if isGroupOf sc (.group i input key scope outputs) = true then 1 else 0) = if scope = sc then 1 else 0 :=
    if_congr decide_eq_true_iff rfl rfl
  show List.countP _ (_ :: (f input ++ (f key ++ (outputs.map Prod.snd).flatMap f))) = _
  rw [List.countP_cons, hself, List.countP_append, List.countP_append]
  omega

/-- A group counts once for its scope, besides what its input and its key count for. -/
theorem countP_visible_group (i : NodeInfo) (input key : Expr) (scope : Scope) (outputs : List (String × Expr))
    (sc : Scope) :
    input.visible.countP (isGroupOf sc) + key.visible.countP (isGroupOf sc) + (if scope = sc then 1 else 0)
      ≤ (Expr.visible (.group i input key scope outputs)).countP (isGroupOf sc) := by
  have hvisible : Expr.visible (.group i input key scope outputs) =
      .group i input key scope outputs ::
        (Expr.children (.group i input key scope outputs)).flatMap Expr.visible :=
    Expr.visible_eq _
  rw [hvisible, countP_group]
  omega

/-- Binding a group plans its outputs, and keeps the node if neither its children nor its outputs have changed. -/
theorem bindGroup_eq_ok {live : Scope → List Expr} {e input input' key key' e' : Expr}
    (h : ((bindGroup stem live e input key scope outputs input' key').run b).run s = .ok ((e', b'), t)) :
    ∃ naming p, Named outputs b.bindings (live scope) naming ∧ (p.scope = scope ∧ p.outputs = naming.outputs) ∧
      b' = ⟨scope :: b.bound, naming.bindings, b.groups ++ [p]⟩ ∧
      (input'.serial = input.serial ∧ key'.serial = key.serial ∧ p.outputs.length = outputs.length ∧ e' = e ∧
        t = s ∨ (Build.group input' key' scope p.outputs).run s = .ok (e', t)) := by
  unfold bindGroup at h
  obtain ⟨_, _, _, hget, h⟩ := run_bind_eq_ok.1 h
  cases hget
  obtain ⟨naming, hnamed, hofScope⟩ : ∃ naming, Named outputs b.bindings (live scope) naming ∧
      GroupPlan.ofScope stem scope outputs (live scope) b.bindings
        = (⟨scope, naming.outputs, (live scope).length⟩, naming.bindings) := named_ofScope scope b.bindings
  rw [hofScope] at h
  dsimp only at h
  refine ⟨naming, ⟨scope, naming.outputs, (live scope).length⟩, hnamed, ⟨rfl, rfl⟩, ?_⟩
  split at h
  · next hunchanged =>
      simp only [Bool.and_eq_true, beq_iff_eq, Expr.isNode] at hunchanged
      obtain ⟨_, _, _, hnode, h⟩ := run_bind_eq_ok.1 h
      obtain ⟨rfl, rfl, rfl⟩ := run_pure_eq_ok.1 hnode
      cases h
      exact ⟨rfl, .inl ⟨hunchanged.1.1, hunchanged.1.2, hunchanged.2, rfl, rfl⟩⟩
  · obtain ⟨node, d, u, hnode, h⟩ := run_bind_eq_ok.1 h
    obtain ⟨hbuild, rfl⟩ := run_build_eq_ok.1 hnode
    cases h
    exact ⟨rfl, .inr hbuild⟩

theorem binds_group {i : NodeInfo} {input input' key key' e' : Expr} {c d : State} {u v : Supply}
    (hlt : input.serial < n ∧ key.serial < n) (hn : n ≤ s.nextNode) (hinput : Binds root n input b s input' c u)
    (hkey : Binds root n key c u key' d v)
    (h : ((bindGroup stem (CorrelationMap.collect root).accumulators (.group i input key scope outputs) input key scope
      outputs input' key').run d).run v = .ok ((e', b'), t)) :
    Binds root n (.group i input key scope outputs) b s e' b' t := by
  obtain ⟨naming, p, hnamed, ⟨hscope, houtputs⟩, rfl, hnode⟩ := bindGroup_eq_ok h
  obtain ⟨new, hnaming, hnew⟩ := hnamed.outputs
  have hp : p ∈ d.groups ++ [p] := List.mem_append_right _ List.mem_cons_self
  have hsound := sound_of_named ⟨hscope, houtputs⟩ hkey.sound hnamed
  have hgrows : ∀ q ∈ b.groups, q ∈ d.groups ++ [p] :=
    fun q hq => List.mem_append_left _ (hkey.grows q (hinput.grows q hq))
  have hle : s.nextNode ≤ v.nextNode := Nat.le_trans hinput.supply_le hkey.supply_le
  have hcount : ∀ sc, planCount ⟨scope :: d.bound, naming.bindings, d.groups ++ [p]⟩ sc
      ≤ planCount b sc + (Expr.visible (.group i input key scope outputs)).countP (isGroupOf sc) := by
    intro sc
    have hfirst := hinput.count_le sc
    have hsecond := hkey.count_le sc
    have hvisible := countP_visible_group i input key scope outputs sc
    rw [planCount_append, hscope]
    omega
  have hbound : ∀ j, (p.outputs = outputs ∨ AreOutputNames p.outputs) →
      ∀ plans : List GroupPlan, (∀ q ∈ d.groups ++ [p], q ∈ plans) →
        Bound root plans (.group i input key scope outputs) (.group j input' key' scope p.outputs) := by
    intro j hnames plans hplans
    have hfits : Fits root scope outputs p := by
      refine ⟨hscope, ⟨new, houtputs.trans hnaming, fun f hf => ?_⟩, hnames⟩
      obtain ⟨k, sc, hlive⟩ := hnew f hf
      exact ⟨k, (correlated_mem_visible hlive).2⟩
    have hlater : ∀ q ∈ d.groups, q ∈ plans := fun q hq => hplans q (List.mem_append_left _ hq)
    exact .group i j (hplans p hp) hfits (hinput.bound plans fun q hq => hlater q (hkey.grows q hq))
      (hkey.bound plans hlater)
  -- a node is kept if its children have their serials still, and then they are the children that it had
  rcases hnode with ⟨hsameInput, hsameKey, hlength, rfl, rfl⟩ | hnode
  · have hinput' : input' = input := by
      rcases hinput.eq_or_new with heq | hnew
      · exact heq
      · omega
    have hkey' : key' = key := by
      rcases hkey.eq_or_new with heq | hnew
      · exact heq
      · omega
    have hsame : p.outputs = outputs := by
      rw [houtputs, hnaming] at hlength ⊢
      rw [List.length_append] at hlength
      rw [List.eq_nil_of_length_eq_zero (l := new) (by omega), List.append_nil]
    refine ⟨fun plans hplans => ?_, hsound, hgrows, .inl rfl, hle, hcount⟩
    have hgroup := hbound i (.inl hsame) plans hplans
    rwa [hsame, hinput', hkey'] at hgroup
  · obtain ⟨hnames, hnodup, j, rfl, hserial, rfl⟩ := Build.group_eq_ok hnode
    refine ⟨hbound j (.inr ⟨hnames, hnodup⟩), hsound, hgrows, .inr ?_, Nat.le_succ_of_le hle, hcount⟩
    show n ≤ j.serial
    omega

end Group

/-- Binding a tree, or any part of it that is visible. -/
theorem binds (hroot : Fresh lo n root.occurrences) (e : Expr) : ∀ {b b' : State} {s t : Supply} {e' : Expr},
    (∀ d ∈ e.visible, d ∈ root.visible) → n ≤ s.nextNode → Sound root b →
      ((bind stem (CorrelationMap.collect root).accumulators e).run b).run s = .ok ((e', b'), t) →
        Binds root n e b s e' b' t := by
  induction e using Expr.induction_children with
  | step e ih =>
      intro b b' s t e' hvisible hn hsound h
      -- an accumulator is replaced, so its children are never reached
      by_cases hc : e.kind = .correlated
      · obtain ⟨i, scope, inner, rfl⟩ := Expr.exists_of_kind_eq_correlated hc
        rw [bind_correlated] at h
        exact binds_correlated hroot (hvisible _ (mem_visible_self _)) hn hsound h
      have hchild : ∀ c ∈ e.children, ∀ d ∈ c.visible, d ∈ root.visible :=
        fun c hmem d hd => hvisible d (visible_of_child hc hmem d hd)
      have hlt : ∀ c ∈ e.children, c.serial < n := by
        intro c hmem
        have hoccurs := Expr.mem_occurrences_of_visible root c (hchild c hmem c (mem_visible_self c))
        exact (hroot.bounds c hoccurs).2
      by_cases hg : e.kind = .group
      · obtain ⟨i, input, key, scope, outputs, rfl⟩ := Expr.exists_of_kind_eq_group hg
        rw [bind_group] at h
        obtain ⟨input', c, u, hinput, h⟩ := run_bind_eq_ok.1 h
        obtain ⟨key', d, v, hkey, h⟩ := run_bind_eq_ok.1 h
        have hfirst : input ∈ Expr.children (.group i input key scope outputs) := List.mem_cons_self
        have hsecond : key ∈ Expr.children (.group i input key scope outputs) :=
          List.mem_cons_of_mem _ List.mem_cons_self
        have hinput' := ih input hfirst (hchild input hfirst) hn hsound hinput
        have hkey' := ih key hsecond (hchild key hsecond) (Nat.le_trans hn hinput'.supply_le) hinput'.sound hkey
        exact binds_group ⟨hlt input hfirst, hlt key hsecond⟩ hn hinput' hkey' h
      · rw [bind_kept _ _ hc hg] at h
        obtain ⟨children, c, u, hchildren, h⟩ := run_bind_eq_ok.1 h
        obtain ⟨hupdate, rfl⟩ := run_build_eq_ok.1 h
        have hall := allBind_of_mapM hn hsound (fun d hd => ih d hd (hchild d hd)) hchildren
        exact binds_kept hc hg hlt hn hall hupdate

end Binds

end Binding

/-- A plan binds its tree, and has one plan for each scope at most. -/
theorem bound_of_plan {stem : String} {root : Expr} {planned : PlannedTree} {lo : Nat} {s t : Supply}
    (hroot : Fresh lo s.nextNode root.occurrences) (h : (plan stem root).run s = .ok (planned, t)) :
    Binding.Bound root planned.groups root planned.root ∧ (planned.groups.map GroupPlan.scope).Nodup := by
  rw [plan, CorrelationMap.gather_eq, Build.ok_bind] at h
  dsimp only at h
  split at h
  · exact absurd h Build.run_throw_bind_ne_ok
  split at h
  · exact absurd h Build.run_throw_bind_ne_ok
  next hshared =>
  obtain ⟨⟨bound, b⟩, u, hbind, h⟩ := Build.run_bind_eq_ok.1 h
  obtain ⟨rfl, rfl⟩ := Build.run_pure_eq_ok.1 h
  have hsound : Binding.Sound root {} := fun _ hx => absurd hx List.not_mem_nil
  have hbinds := Binding.binds hroot root (fun _ hd => hd) (Nat.le_refl _) hsound hbind
  refine ⟨hbinds.bound _ fun _ hp => hp, List.nodup_iff_count_le_one.2 fun scope => ?_⟩
  have hcount : Binding.planCount b scope ≤ 0 + _ := hbinds.count_le scope
  have hone := CorrelationMap.groupCount_le_one scope (Option.eq_none_iff_forall_ne_some.2 hshared)
  rw [CorrelationMap.groupCount_collect] at hone
  rw [Nat.zero_add] at hcount
  exact Nat.le_trans hcount hone

end Aggregation
