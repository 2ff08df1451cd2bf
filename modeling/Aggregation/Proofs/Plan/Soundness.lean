import Aggregation.Proofs.Plan.Runs
import Aggregation.Proofs.Query.Sessions

/-!
Planning replaces every accumulator that is tied to a scope by the field of an output, and changes nothing else but
that groups get the outputs which are read.
-/

namespace Aggregation

open Binding (Ready scalar_sound pipeline_sound)
open Aggregation.Expr (isGroupOf)

variable {stem : String} {root : Expr} {planned : PlannedTree} {held : List Expr} {lo : Nat} {s t : Supply}

/-- A plan is a run of binding on a tree of which no accumulator is without a group, and no scope has two groups. -/
theorem plan_eq_ok : (plan stem root).run s = .ok (planned, t) ↔
    (CorrelationMap.collect root).firstDangling? = none ∧
      (CorrelationMap.collect root).groupIds.find?
        (fun scope => 1 < (CorrelationMap.collect root).groupCount scope) = none ∧
      ∃ b, ((Binding.bind stem (CorrelationMap.collect root).accumulators root).run {}).run s
        = .ok ((planned.root, b), t) ∧ planned.groups = b.groups := by
  rw [plan, CorrelationMap.gather_eq, Build.ok_bind]
  dsimp only
  constructor
  · intro h
    split at h
    · exact absurd h Build.run_throw_bind_ne_ok
    next hdangling =>
    split at h
    · exact absurd h Build.run_throw_bind_ne_ok
    next hshared =>
    obtain ⟨⟨e, b⟩, u, hbind, h⟩ := Build.run_bind_eq_ok.1 h
    obtain ⟨rfl, rfl⟩ := Build.run_pure_eq_ok.1 h
    exact ⟨Option.eq_none_iff_forall_ne_some.2 hdangling, Option.eq_none_iff_forall_ne_some.2 hshared, b, hbind, rfl⟩
  · rintro ⟨hdangling, hshared, b, hbind, hgroups⟩
    obtain ⟨e, groups⟩ := planned
    cases hgroups
    simp only [hdangling, hshared]
    exact Build.run_bind_eq_ok.2 ⟨(e, b), t, hbind, rfl⟩

/-- What a plan makes of a tree without nodes of a host. -/
theorem turned_of_plan (hfresh : Fresh lo s.nextNode root.occurrences) (hw : root.WellFormed) (hnative : root.Native)
    (h : (plan stem root).run s = .ok (planned, t)) :
    Replaced root [] root planned.root ∧ planned.root.WellFormed := by
  obtain ⟨-, -, b, hbind, -⟩ := plan_eq_ok.1 h
  cases hpipeline : root.isPipeline with
  | true =>
      have hpassed := pipeline_sound hfresh hw hnative hw hnative hpipeline (fun _ hd => hd) (Nat.le_refl _) hbind
      exact ⟨hpassed.replaced, hpassed.wellFormed⟩
  | false =>
      obtain ⟨-, hturned⟩ :=
        scalar_sound hfresh Ready.nothing hw hnative hpipeline (fun _ hd => hd) (Nat.le_refl _) hbind
      exact ⟨hturned.replaced, hturned.wellFormed⟩

/-- No scope has two groups in a tree that is planned. -/
theorem countP_isGroupOf_le_one (hw : root.WellFormed) (hnative : root.Native)
    (h : (plan stem root).run s = .ok (planned, t)) (scope : Scope) :
    root.occurrences.countP (isGroupOf scope) ≤ 1 := by
  obtain ⟨-, hshared, -⟩ := plan_eq_ok.1 h
  have hle := CorrelationMap.groupCount_le_one scope hshared
  rwa [CorrelationMap.groupCount_collect, Expr.countP_visible_eq hw hnative] at hle

theorem eq_of_countP_le_one {α : Type} {p : α → Bool} {xs : List α} (h : xs.countP p ≤ 1) {x y : α} (hx : x ∈ xs)
    (hy : y ∈ xs) (hpx : p x = true) (hpy : p y = true) : x = y := by
  rw [List.countP_eq_length_filter] at h
  have hmem {z : α} (hz : z ∈ xs) (hpz : p z = true) : z ∈ xs.filter p := List.mem_filter.2 ⟨hz, hpz⟩
  match hfilter : xs.filter p with
  | [] => exact absurd (hfilter ▸ hmem hx hpx) List.not_mem_nil
  | [z] =>
    have hxz : x ∈ [z] := hfilter ▸ hmem hx hpx
    have hyz : y ∈ [z] := hfilter ▸ hmem hy hpy
    rw [List.mem_singleton.1 hxz, List.mem_singleton.1 hyz]
  | _ :: _ :: _ =>
    rw [hfilter] at h
    simp at h

/-- An output that a group gets is read where the accumulator stood that it is. -/
theorem exists_reader {scope : Scope} {old new : List (String × Expr)} {g' : Expr} (hw : root.WellFormed)
    (hnative : root.Native) (hreplaced : Replaced root [] root planned.root)
    (hone : planned.root.occurrences.countP (isGroupOf scope) ≤ 1) (hadded : Added root scope old new)
    (hg' : g' ∈ planned.root.occurrences) (hscope : isGroupOf scope g' = true) (houtputs : g'.outputs = old ++ new)
    {f : String × Expr} (hf : f ∈ new) :
    ∃ path i inner n, root.at? path = some (.correlated i scope inner) ∧
      planned.root.at? path = some (.field ⟨n, i.type⟩ f.1) := by
  obtain ⟨i, hmem⟩ := hadded.tied f hf
  obtain ⟨path, hat⟩ := Expr.exists_at?_of_mem_occurrences hmem
  obtain ⟨up, d, hat', hd, hup⟩ := hreplaced.exists_at? hw hnative hat (.inl rfl)
  cases hd with
  | kept hkind => exact absurd (by simp [Expr.kind]) hkind
  | @correlated _ _ n _ _ g h hg hgscope hh hsame =>
      have hgmem : g ∈ planned.root.occurrences := (hup g hg).resolve_left List.not_mem_nil
      cases eq_of_countP_le_one hone hgmem hg' hgscope hscope
      have hname : h.1 = f.1 := by
        by_contra hne
        rw [houtputs] at hh
        rw [hadded.unlike f hf h hh hne] at hsame
        cases hsame
      exact ⟨path, i, f.2, n, hat, hname ▸ hat'⟩

/-- Planning is sound. On a tree without nodes of a host that a caller has made, a plan leaves no accumulator that is
tied to a scope: each becomes a field of its type, the name of an output of the one group of its scope, which lies
upstream and has an output of this name that is of the structure of the accumulator. All other nodes keep their payload,
their type and the order of their children; groups keep their outputs, and get outputs of which each has a name of its
own, is of no structure that another one has, and is read. -/
theorem plan_sound (hheld : Build.Held s held) (hroot : root ∈ held) (hnative : root.Native)
    (h : (plan stem root).run s = .ok (planned, t)) :
    (∀ e ∈ planned.root.occurrences, e.kind ≠ .correlated) ∧ Replaced root [] root planned.root ∧
      (∀ scope, planned.root.occurrences.countP (isGroupOf scope) ≤ 1) ∧
      ∀ path i input key scope old, root.at? path = some (.group i input key scope old) →
        ∃ j input' key' new, planned.root.at? path = some (.group j input' key' scope (old ++ new)) ∧
          Added root scope old new ∧
          ∀ f ∈ new, ∃ path' i' inner n, root.at? path' = some (.correlated i' scope inner) ∧
            planned.root.at? path' = some (.field ⟨n, i'.type⟩ f.1) := by
  have hw := hheld.wellFormed hroot
  obtain ⟨hreplaced, hwf⟩ := turned_of_plan (hheld.fresh hroot) hw hnative h
  have hone : ∀ scope, planned.root.occurrences.countP (isGroupOf scope) ≤ 1 := by
    intro scope
    rw [hreplaced.countP_isGroupOf hw hnative hw hnative]
    exact countP_isGroupOf_le_one hw hnative h scope
  refine ⟨hreplaced.kind_ne_correlated hwf, hreplaced, hone, fun path i input key scope old hat => ?_⟩
  obtain ⟨up, d, hat', hd, -⟩ := hreplaced.exists_at? hw hnative hat (.inr rfl)
  cases hd with
  | kept hkind => exact absurd (by simp [Expr.kind]) hkind
  | @group _ _ n _ input' _ key' _ _ new hinput hkey hadded =>
      refine ⟨_, input', key', new, hat', hadded, fun f hf => ?_⟩
      exact exists_reader hw hnative hreplaced (hone scope) hadded (Expr.mem_occurrences_of_at? hat')
        (decide_eq_true rfl) rfl hf

section Counts

/-- Steps that build a tree which can be planned, to something that passes a check. -/
theorem exists_plan_of_run {x : Build Expr} {p : Expr → PlannedTree → Bool}
    (h : ((x.run {}).toOption.bind fun built =>
      ((plan defaultStem built.1).run built.2).toOption.map fun r => p built.1 r.1) = some true) :
    ∃ root s planned t, x.run {} = .ok (root, s) ∧ (plan defaultStem root).run s = .ok (planned, t) ∧
      p root planned = true := by
  cases hbuild : x.run {} with
  | error e =>
      rw [hbuild] at h
      cases h
  | ok built =>
      rw [hbuild] at h
      replace h : (((plan defaultStem built.1).run built.2).toOption.map fun r => p built.1 r.1) = some true := h
      cases hplan : (plan defaultStem built.1).run built.2 with
      | error e =>
          rw [hplan] at h
          cases h
      | ok r =>
          rw [hplan] at h
          exact ⟨built.1, built.2, r.1, r.2, rfl, hplan, Option.some.inj h⟩

/-- A query that builds a tree which can be planned, to something that passes a check. -/
theorem exists_plan {q : Query} {p : Expr → PlannedTree → Bool}
    (h : ((q.build.run {}).toOption.bind fun built =>
      ((plan defaultStem built.1).run built.2).toOption.map fun r => p built.1 r.1) = some true) :
    ∃ root s planned t, q.build.run {} = .ok (root, s) ∧ (plan defaultStem root).run s = .ok (planned, t) ∧
      p root planned = true :=
  exists_plan_of_run h

/-- The regions with more than one order, and how many orders they have; the count is asked for twice. -/
def repeatedCounts : Query :=
  ⟨"orders",
    [.group (.ofMembers [("field", .string "region")])
      (some (.ofMembers [("gt", .array [.ofMembers [("count", .ofMembers [])], .int 1])]))
      ⟨[("orders", .ofMembers [("count", .ofMembers [])]),
        ("largest", .ofMembers [("max", .ofMembers [("field", .string "qty")])])]⟩]⟩

/-- Three accumulators become the fields of two outputs. -/
theorem plan_sound_repeatedCounts : ∃ s held root planned t, Build.Held s held ∧ root ∈ held ∧ root.Native ∧
    (plan defaultStem root).run s = .ok (planned, t) ∧
    root.occurrences.countP (fun e => e.kind = .correlated) = 3 ∧
    planned.groups.map GroupPlan.names = [["__agg0", "__agg1"]] ∧
    (∀ e ∈ planned.root.occurrences, e.kind ≠ .correlated) ∧ Replaced root [] root planned.root := by
  obtain ⟨root, s, planned, t, hbuild, hplan, hcheck⟩ := exists_plan (q := repeatedCounts)
    (p := fun root planned => root.occurrences.all (fun e => !e.isExtension) &&
      decide (root.occurrences.countP (fun e => e.kind = .correlated) = 3 ∧
        planned.groups.map GroupPlan.names = [["__agg0", "__agg1"]])) (by decide +kernel)
  obtain ⟨hnative, hcounts⟩ := (Bool.and_eq_true _ _).mp hcheck
  obtain ⟨hthree, hnames⟩ := of_decide_eq_true hcounts
  obtain ⟨held, hheld, hroot⟩ := Query.exists_held_of_build hbuild
  have hnative : root.Native := fun e he => by simpa using List.all_eq_true.1 hnative e he
  obtain ⟨hnone, hreplaced, -⟩ := plan_sound hheld hroot hnative hplan
  exact ⟨s, held, root, planned, t, hheld, hroot, hnative, hplan, hthree, hnames, hnone, hreplaced⟩

end Counts

end Aggregation
