import Aggregation.Proofs.Compile.Preservation
import Aggregation.Proofs.Pipeline.Acceptance
import Aggregation.Proofs.Plan.Completeness

/-!
Which trees are compiled. Each step of a compilation asks something of the tree, and together these are conditions on
where nodes stand in it.
-/

namespace Aggregation

open Aggregation.Expr (isGroupOf)

variable {config : Config} {id : String} {root : Expr} {held : List Expr} {lo : Nat} {s : Supply}

/-- With a configuration that has no flaw, the names that planning numbers are good ones for outputs. -/
theorem Config.numbersOutputs (h : config.flaw? = none) : Binding.NumbersOutputs config.stem := by
  have hstem : config.stem.toList ≠ [] ∧ '.' ∉ config.stem.toList ∧ config.stem.toList.head? ≠ some '$' ∧
      '\x00' ∉ config.stem.toList := by
    unfold Config.flaw? at h
    split at h
    · cases h
    · next hempty =>
      split at h
      · cases h
      · next hstem =>
        simpa [Build.startsWithDollar, not_or] using And.intro hempty hstem
  obtain ⟨hne, hdot, hdollar, hnul⟩ := hstem
  intro k
  have htext := GroupPlan.toList_numbered config.stem k
  have hdigit : ∀ c ∈ Nat.toDigits 10 k, c.isDigit = true := fun c hc =>
    Nat.isDigit_of_mem_toDigits (by decide) (by decide) hc
  have hnot {c : Char} (hstem : c ∉ config.stem.toList) (hc : c.isDigit = false) :
      c ∉ (GroupPlan.numbered config.stem k).toList := by
    rw [htext, List.mem_append, not_or]
    refine ⟨hstem, fun hmem => ?_⟩
    rw [hdigit c hmem] at hc
    cases hc
  constructor
  · have hempty : (GroupPlan.numbered config.stem k).isEmpty = false := by
      rw [Bool.eq_false_iff, ne_eq, String.isEmpty_iff, ← String.toList_eq_nil_iff, htext]
      exact List.append_ne_nil_of_left_ne_nil hne _
    have hhead : Build.startsWithDollar (GroupPlan.numbered config.stem k) = false := by
      obtain ⟨c, rest, hcons⟩ := List.exists_cons_of_ne_nil hne
      rw [hcons] at hdollar
      rw [Build.startsWithDollar, htext, hcons]
      simpa using hdollar
    simp [Build.isOutputName, hempty, hhead, hnot hdot (by decide), hnot hnul (by decide)]
  · -- the last character of a numbered name is a digit
    intro hid
    have hlast : (Nat.toDigits 10 k).getLast? = some 'd' := by
      rw [hid] at htext
      rw [← List.getLast?_append_of_ne_nil config.stem.toList Nat.toDigits_ne_nil, ← htext]
      rfl
    exact absurd (hdigit 'd' (List.mem_of_getLast? hlast)) (by decide)

theorem isOk_checkCapabilities : (checkCapabilities root).isOk = true ↔ root.Native := by
  unfold checkCapabilities
  split
  · next e hfind =>
    refine iff_of_false nofun fun hnative => ?_
    have hext := List.find?_some hfind
    rw [hnative e (List.mem_of_find?_eq_some hfind)] at hext
    cases hext
  · next hnone =>
    exact iff_of_true rfl fun e he => Bool.eq_false_iff.2 (List.find?_eq_none.1 hnone e he)

/-- A compilation succeeds if each of its steps does. -/
theorem exists_compile_iff_steps : (∃ c, (compile config id root s).result = .ok c) ↔
    root.Native ∧ ∃ planned t, (plan config.stem root).run s = .ok (planned, t) ∧
      (Lowering.lower planned.root).isOk = true := by
  rw [← isOk_checkCapabilities]
  show (∃ c, (Compilation.steps config root s).result = .ok c) ↔ _
  unfold Compilation.steps
  cases checkCapabilities root with
  | error e => exact ⟨fun ⟨_, h⟩ => (nomatch h), fun h => (nomatch h.1)⟩
  | ok u =>
      cases (plan config.stem root).run s with
      | error e => exact ⟨fun ⟨_, h⟩ => (nomatch h), fun ⟨_, _, _, h, _⟩ => (nomatch h)⟩
      | ok p =>
          obtain ⟨planned, t⟩ := p
          have hemit := isOk_emit config.eliminates planned.root
          cases hresult : emit config.eliminates planned.root with
          | error e =>
              rw [hresult] at hemit
              refine ⟨fun ⟨_, h⟩ => (by simp [hresult] at h), fun ⟨_, _, _, h, hlower⟩ => ?_⟩
              cases h
              rw [← hemit] at hlower
              cases hlower
          | ok emission =>
              rw [hresult] at hemit
              refine iff_of_true ⟨_, by simp [hresult]; rfl⟩ ⟨rfl, planned, t, rfl, hemit.symm⟩

/-- A tree that obeys its rules is compiled exactly if no node of it belongs to a host, it is a pipeline, its
accumulators stand where they may, no scope has two groups, and every accumulator that is tied to a scope sits in the
predicate or the projection of a pipeline that reads from the group of the scope. -/
theorem exists_compile_iff_of_wellFormed (hfresh : Fresh lo s.nextNode root.occurrences) (hw : root.WellFormed)
    (hflaw : config.flaw? = none) : (∃ c, (compile config id root s).result = .ok c) ↔
      root.Native ∧ root.isPipeline = true ∧ root.Placed ∧ (∀ scope, root.occurrences.countP (isGroupOf scope) ≤ 1) ∧
        root.Anchored := by
  rw [exists_compile_iff_steps]
  refine and_congr_right fun hnative => ?_
  have hstem := Config.numbersOutputs hflaw
  constructor
  · rintro ⟨planned, t, hplan, hlower⟩
    obtain ⟨hreplaced, -⟩ := turned_of_plan hfresh hw hnative hplan
    have hpipeline : root.isPipeline = true := by
      rw [← hreplaced.isPipeline_eq]
      exact Lowering.isPipeline_of_isOk_lower hlower
    exact ⟨hpipeline, (Lowering.isOk_lower_iff_placed hw hnative hw hnative hpipeline hreplaced).1 hlower,
      (exists_plan_iff hfresh hw hnative hpipeline hstem).1 ⟨planned, t, hplan⟩⟩
  · rintro ⟨hpipeline, hplaced, hplannable⟩
    obtain ⟨planned, t, hplan⟩ := (exists_plan_iff hfresh hw hnative hpipeline hstem).2 hplannable
    obtain ⟨hreplaced, -⟩ := turned_of_plan hfresh hw hnative hplan
    exact ⟨planned, t, hplan, (Lowering.isOk_lower_iff_placed hw hnative hw hnative hpipeline hreplaced).2 hplaced⟩

/-- Of the trees that a caller can make, these are compiled: no node belongs to a host, the root is a pipeline, every
accumulator is tied to a scope or an output of a group, no scope has two groups, and every accumulator that is tied to a
scope sits in the predicate or the projection of a pipeline that reads from the group of the scope. -/
theorem exists_compile_iff (hheld : Build.Held s held) (hroot : root ∈ held) (hflaw : config.flaw? = none) :
    (∃ c, (compile config id root s).result = .ok c) ↔
      root.Native ∧ root.isPipeline = true ∧ root.Placed ∧ (∀ scope, root.occurrences.countP (isGroupOf scope) ≤ 1) ∧
        root.Anchored :=
  exists_compile_iff_of_wellFormed (hheld.fresh hroot) (hheld.wellFormed hroot) hflaw

section Counts

/-- All orders, but of each a count. -/
def bareCount : Build Expr := do
  let orders ← Build.source "orders"
  let count ← Build.accumulator .count none
  Build.project orders count

theorem held_bareCount {e orders count : Expr} {t u : Supply}
    (horders : (Build.source "orders").run {} = .ok (orders, t))
    (hcount : (Build.accumulator .count none).run t = .ok (count, u))
    (h : (Build.project orders count).run u = .ok (e, s)) : Build.Held s [e, count, orders] := by
  have hstart := Build.Held.node (.nothing {}) (.source "orders") horders
  have hnext := Build.Held.node hstart (.accumulator .count (by simp)) hcount
  exact .node hnext (.project (by simp) (by simp)) h

/-- Counts that are tied to the scope of a group are compiled, a count that is tied to no scope is not. -/
theorem exists_compile_iff_counts :
    (∃ s held root c, Build.Held s held ∧ root ∈ held ∧ ({} : Config).flaw? = none ∧
      (compile {} "" root s).result = .ok c ∧ c.groups.map GroupPlan.names = [["__agg0", "__agg1"]] ∧ root.Native ∧
      root.isPipeline = true ∧ root.Placed ∧ (∀ scope, root.occurrences.countP (isGroupOf scope) ≤ 1) ∧
      root.Anchored) ∧
    ∃ s held root, bareCount.run {} = .ok (root, s) ∧ Build.Held s held ∧ root ∈ held ∧
      ¬∃ c, (compile {} "" root s).result = .ok c := by
  have hflaw : ({} : Config).flaw? = none := by decide +kernel
  constructor
  · obtain ⟨root, s, c, hbuild, hcompile, hnames⟩ := exists_compiled (x := repeatedCounts.build)
      (p := fun _ c => c.groups.map GroupPlan.names == [["__agg0", "__agg1"]]) (by decide +kernel)
    obtain ⟨held, hheld, hroot⟩ := Query.exists_held_of_build hbuild
    exact ⟨s, held, root, c, hheld, hroot, hflaw, hcompile, beq_iff_eq.1 hnames,
      (exists_compile_iff hheld hroot hflaw).1 ⟨c, hcompile⟩⟩
  · obtain ⟨e, s, hrun⟩ : ∃ e s, bareCount.run {} = .ok (e, s) := ⟨_, _, rfl⟩
    obtain ⟨orders, t, horders, hrest⟩ := Build.run_bind_eq_ok.1 hrun
    obtain ⟨count, u, hcount, h⟩ := Build.run_bind_eq_ok.1 hrest
    have hheld := held_bareCount horders hcount h
    refine ⟨s, _, e, hrun, hheld, List.mem_cons_self, fun hcompile => ?_⟩
    obtain ⟨-, -, hplaced, -⟩ := (exists_compile_iff hheld List.mem_cons_self hflaw).1 hcompile
    obtain ⟨type, rfl, -⟩ := (Build.project_makes orders count u e s).1 h
    obtain ⟨type', rfl, -⟩ := (Build.accumulator_makes .count none t count u).1 hcount
    have hchildren := (Expr.placed_iff (e := .project _ orders _) (by simp [Expr.kind])).1 hplaced
    exact (hchildren _ (List.mem_cons_of_mem _ List.mem_cons_self)).1 rfl

end Counts

end Aggregation
