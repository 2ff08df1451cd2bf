import Aggregation.Plan.Basic
import Aggregation.Proofs.Correlation.Map
import Aggregation.Proofs.Expr.Equality

/-!
The outputs of a group. What a group had comes first; every new output is an accumulator that is tied to the scope of
the group, and every accumulator that is bound reads an output of its structure.
-/

namespace Aggregation.GroupPlan

variable {stem : String} {existing : List (String × Expr)} {live : List Expr}

/-- A name is that of an output of the structure of an accumulator. -/
def Provides (outputs : List (String × Expr)) (name : String) (inner : Expr) : Prop :=
  ∃ e, (name, e) ∈ outputs ∧ e.sameStructure inner = true

/-- What naming has done for some accumulators since it began with outputs and bindings. -/
structure Named (existing : List (String × Expr)) (bindings : Bindings) (live : List Expr) (s : Naming) : Prop where
  outputs : ∃ new, s.outputs = existing ++ new ∧
    ∀ f ∈ new, ∃ i scope, Expr.correlated i scope f.2 ∈ live
  bindings : ∃ new, s.bindings = new ++ bindings ∧
    ∀ b ∈ new, ∃ i scope inner, Expr.correlated i scope inner ∈ live ∧ i.serial = b.1 ∧
      Provides s.outputs b.2 inner

theorem Provides.append {outputs more : List (String × Expr)} {name : String} {inner : Expr}
    (h : Provides outputs name inner) : Provides (outputs ++ more) name inner := by
  obtain ⟨e, he, hsame⟩ := h
  exact ⟨e, List.mem_append_left _ he, hsame⟩

theorem provides_of_sharedName? {outputs : List (String × Expr)} {inner : Expr} {name : String}
    (h : sharedName? outputs inner = some name) : Provides outputs name inner := by
  obtain ⟨f, hf, rfl⟩ := Option.map_eq_some_iff.1 h
  have hsame : f.2.sameStructure inner = true :=
    List.find?_some (p := fun g : String × Expr => g.2.sameStructure inner) hf
  exact ⟨f.2, List.mem_of_find?_eq_some hf, hsame⟩

theorem assign_of_sharedName? {s : Naming} {inner : Expr} {name : String} (h : sharedName? s.outputs inner = some name)
    (i : NodeInfo) (scope : Scope) :
    s.assign stem (.correlated i scope inner) = { s with bindings := (i.serial, name) :: s.bindings } := by
  rw [Naming.assign, h]

theorem exists_assign_of_sharedName?_eq_none {s : Naming} {inner : Expr} (h : sharedName? s.outputs inner = none)
    (i : NodeInfo) (scope : Scope) : ∃ name number, s.assign stem (.correlated i scope inner)
      = { outputs := s.outputs ++ [(name, inner)]
          nextNumber := number
          bindings := (i.serial, name) :: s.bindings } := by
  rw [Naming.assign, h]
  exact ⟨_, _, rfl⟩

/-- Naming one more accumulator. -/
theorem Named.assign {bindings : Bindings} {s : Naming} (h : Named existing bindings live s) (e : Expr) :
    Named existing bindings (live ++ [e]) (s.assign stem e) := by
  obtain ⟨⟨new, houtputs, hnew⟩, ⟨bound, hbindings, hbound⟩⟩ := h
  have hnew' : ∀ f ∈ new, ∃ i scope, Expr.correlated i scope f.2 ∈ live ++ [e] := by
    intro f hf
    obtain ⟨i, scope, hmem⟩ := hnew f hf
    exact ⟨i, scope, List.mem_append_left _ hmem⟩
  have hbound' (more : List (String × Expr)) : ∀ b ∈ bound, ∃ i scope inner,
      Expr.correlated i scope inner ∈ live ++ [e] ∧ i.serial = b.1 ∧ Provides (s.outputs ++ more) b.2 inner := by
    intro b hb
    obtain ⟨i, scope, inner, hmem, hserial, hprovides⟩ := hbound b hb
    exact ⟨i, scope, inner, List.mem_append_left _ hmem, hserial, hprovides.append⟩
  have hlast : e ∈ live ++ [e] := List.mem_append_right _ List.mem_cons_self
  have hself : (∃ new, s.outputs = existing ++ new ∧ ∀ f ∈ new, ∃ i scope, Expr.correlated i scope f.2 ∈ live ++ [e]) ∧
      ∃ new, s.bindings = new ++ bindings ∧ ∀ b ∈ new, ∃ i scope inner, Expr.correlated i scope inner ∈ live ++ [e] ∧
        i.serial = b.1 ∧ Provides s.outputs b.2 inner := by
    refine ⟨⟨new, houtputs, hnew'⟩, bound, hbindings, ?_⟩
    simpa only [List.append_nil] using hbound' []
  cases e with
  | correlated i scope inner =>
      cases hname : sharedName? s.outputs inner with
      | some name =>
          rw [assign_of_sharedName? hname]
          refine ⟨hself.1, (i.serial, name) :: bound, congrArg _ hbindings, ?_⟩
          refine List.forall_mem_cons.2 ⟨⟨i, scope, inner, hlast, rfl, provides_of_sharedName? hname⟩, ?_⟩
          simpa only [List.append_nil] using hbound' []
      | none =>
          obtain ⟨name, number, hassign⟩ := exists_assign_of_sharedName?_eq_none hname i scope
          rw [hassign]
          refine ⟨⟨new ++ [(name, inner)], ?_, ?_⟩, (i.serial, name) :: bound, congrArg _ hbindings, ?_⟩
          · rw [houtputs, List.append_assoc]
          · refine List.forall_mem_append.2 ⟨hnew', fun f hf => ⟨i, scope, ?_⟩⟩
            rwa [List.mem_singleton.1 hf]
          · refine List.forall_mem_cons.2 ⟨⟨i, scope, inner, hlast, rfl, inner, ?_, inner.sameStructure_self⟩, ?_⟩
            · exact List.mem_append_right _ List.mem_cons_self
            · exact hbound' _
  | constant | field | binary | unary | document | accumulator | source | filter | group | project | sort | skip
  | limit | extension => exact ⟨hself.1, hself.2⟩

/-- The plan of a scope: its outputs begin with those that the group had, the others are of live accumulators, and
every binding that is new is of a live accumulator to an output of its structure. -/
theorem named_ofScope (scope : Scope) (bindings : Bindings) :
    ∃ s : Naming, Named existing bindings live s ∧
      ofScope stem scope existing live bindings = (⟨scope, s.outputs, live.length⟩, s.bindings) := by
  have hfold : ∀ (rest done : List Expr) (s : Naming), Named existing bindings done s →
      Named existing bindings (done ++ rest) (rest.foldl (Naming.assign stem) s) := by
    intro rest
    induction rest with
    | nil =>
        intro done s h
        rwa [List.append_nil]
    | cons e rest ih =>
        intro done s h
        have hstep := ih (done ++ [e]) (s.assign stem e) (h.assign e)
        rwa [List.append_assoc, List.singleton_append] at hstep
  have hstart : Named existing bindings [] { outputs := existing, bindings } :=
    ⟨⟨[], (List.append_nil _).symm, nofun⟩, ⟨[], rfl, nofun⟩⟩
  exact ⟨_, hfold live [] _ hstart, rfl⟩

end Aggregation.GroupPlan
