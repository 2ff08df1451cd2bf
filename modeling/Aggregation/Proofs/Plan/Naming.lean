import Aggregation.Proofs.Expr.Fresh
import Aggregation.Proofs.Plan.Outputs
import Mathlib.Data.List.Perm.Subperm
import Mathlib.Data.List.Nodup

/-!
What naming the outputs of a group guarantees. A new output has a numbered name that no other output has and is of no
structure that another output has, and every accumulator of the scope comes to read an output of its structure.
-/

namespace Aggregation.GroupPlan

variable {stem : String} {existing new : List (String × Expr)} {live : List Expr}

theorem toList_numbered (stem : String) (k : Nat) :
    (numbered stem k).toList = stem.toList ++ Nat.toDigits 10 k := by
  rw [numbered, String.toList_append, Nat.toString_eq_repr, Nat.toList_repr]

theorem numbered_injective (stem : String) : Function.Injective (numbered stem) := by
  intro m n h
  have hdigits : Nat.toDigits 10 m = Nat.toDigits 10 n := by
    have htext := congrArg String.toList h
    rw [toList_numbered, toList_numbered] at htext
    exact List.append_cancel_left htext
  calc m = Nat.ofDigitChars 10 (Nat.toDigits 10 m) 0 := (Nat.ofDigitChars_toDigits (by decide) (by decide)).symm
    _ = Nat.ofDigitChars 10 (Nat.toDigits 10 n) 0 := by rw [hdigits]
    _ = n := Nat.ofDigitChars_toDigits (by decide) (by decide)

/-- If the name of a number that naming comes to is taken, so are all those before it. -/
theorem taken_of_freeNumber_taken {taken : List String} {fuel number : Nat}
    (h : numbered stem (freeNumber stem taken fuel number) ∈ taken) :
    ∀ k, number ≤ k → k ≤ number + fuel → numbered stem k ∈ taken := by
  induction fuel generalizing number with
  | zero =>
      intro k hle hge
      rwa [Nat.le_antisymm hge hle]
  | succ fuel ih =>
      unfold freeNumber at h
      split at h
      · next htaken =>
        intro k hle hge
        rcases Nat.eq_or_lt_of_le hle with rfl | hlt
        · simpa using htaken
        · exact ih h k hlt (by omega)
      · next hfree => exact absurd h (by simpa using hfree)

/-- With as much fuel as there are taken names, naming comes to a free one. -/
theorem freeNumber_notMem (stem : String) (taken : List String) (number : Nat) :
    numbered stem (freeNumber stem taken taken.length number) ∉ taken := by
  intro h
  have hall := taken_of_freeNumber_taken h
  have hnodup : ((List.range' number (taken.length + 1)).map (numbered stem)).Nodup :=
    (List.nodup_range' ..).map (numbered_injective stem)
  have hsubset : (List.range' number (taken.length + 1)).map (numbered stem) ⊆ taken := by
    intro name hname
    obtain ⟨k, hk, rfl⟩ := List.mem_map.1 hname
    rw [List.mem_range'_1] at hk
    exact hall k hk.1 (by omega)
  have hlength := (List.subperm_of_subset hnodup hsubset).length_le
  rw [List.length_map, List.length_range'] at hlength
  omega

/-- Outputs that naming adds for accumulators. -/
structure Adds (stem : String) (existing new : List (String × Expr)) (live : List Expr) : Prop where
  live : ∀ f ∈ new, ∃ i scope, Expr.correlated i scope f.2 ∈ live
  numbered : ∀ f ∈ new, ∃ k, f.1 = numbered stem k
  nodup : (existing.map Prod.fst).Nodup → ((existing ++ new).map Prod.fst).Nodup
  unlike : ∀ f ∈ new, ∀ g ∈ existing ++ new, g.1 ≠ f.1 → g.2.sameStructure f.2 = false

/-- Bindings after naming: accumulators read the first outputs of their structure, and what else was bound is bound
still. -/
structure Reads (outputs : List (String × Expr)) (live : List Expr) (before after : Bindings) : Prop where
  read : ∀ i scope inner, Expr.correlated i scope inner ∈ live →
    ∃ name, after.lookup i.serial = some name ∧ sharedName? outputs inner = some name
  other : ∀ serial, (∀ e ∈ live, e.serial ≠ serial) → after.lookup serial = before.lookup serial

theorem Adds.more {more : List Expr} (h : Adds stem existing new live) : Adds stem existing new (live ++ more) := by
  refine ⟨fun f hf => ?_, h.numbered, h.nodup, h.unlike⟩
  obtain ⟨i, scope, hmem⟩ := h.live f hf
  exact ⟨i, scope, List.mem_append_left _ hmem⟩

theorem sameStructure_eq_false_of_sharedName?_eq_none {outputs : List (String × Expr)} {inner : Expr}
    (h : sharedName? outputs inner = none) : ∀ g ∈ outputs, g.2.sameStructure inner = false := by
  intro g hg
  have hnone := List.find?_eq_none.1 (Option.map_eq_none_iff.1 h) g hg
  exact Bool.eq_false_iff.2 hnone

theorem Adds.snoc {i : NodeInfo} {scope : Scope} {inner : Expr} {k : Nat} (h : Adds stem existing new live)
    (hfree : GroupPlan.numbered stem k ∉ (existing ++ new).map Prod.fst)
    (hnone : sharedName? (existing ++ new) inner = none) :
    Adds stem existing (new ++ [(GroupPlan.numbered stem k, inner)]) (live ++ [.correlated i scope inner]) := by
  have hdiffers := sameStructure_eq_false_of_sharedName?_eq_none hnone
  refine ⟨List.forall_mem_append.2 ⟨h.more.live, ?_⟩, List.forall_mem_append.2 ⟨h.numbered, ?_⟩, fun hnodup => ?_, ?_⟩
  · exact List.forall_mem_singleton.2 ⟨i, scope, List.mem_append_right _ List.mem_cons_self⟩
  · exact List.forall_mem_singleton.2 ⟨k, rfl⟩
  · rw [← List.append_assoc, List.map_append, List.map_singleton]
    exact List.nodup_append.2 ⟨h.nodup hnodup, List.nodup_singleton _, fun a ha b hb hab => hfree (by
      rw [hab, List.mem_singleton.1 hb] at ha
      exact ha)⟩
  · rw [← List.append_assoc]
    refine List.forall_mem_append.2 ⟨fun f hf => List.forall_mem_append.2 ⟨h.unlike f hf, ?_⟩, ?_⟩
    · refine List.forall_mem_singleton.2 fun _ => ?_
      have hold := hdiffers f (List.mem_append_right _ hf)
      exact Bool.eq_false_iff.2 fun hsame => Bool.eq_false_iff.1 hold (Expr.sameStructure_symm hsame)
    · refine List.forall_mem_singleton.2 (List.forall_mem_append.2 ⟨fun g hg _ => hdiffers g hg, ?_⟩)
      exact List.forall_mem_singleton.2 fun hne => absurd rfl hne

/-- The first output of a structure stays the first one. -/
theorem sharedName?_append {outputs : List (String × Expr)} {inner : Expr} {name : String}
    (h : sharedName? outputs inner = some name) (more : List (String × Expr)) :
    sharedName? (outputs ++ more) inner = some name := by
  obtain ⟨f, hf, rfl⟩ := Option.map_eq_some_iff.1 h
  rw [sharedName?, List.find?_append, hf]
  rfl

theorem sharedName?_append_of_eq_none {outputs : List (String × Expr)} {inner : Expr}
    (h : sharedName? outputs inner = none) (name : String) :
    sharedName? (outputs ++ [(name, inner)]) inner = some name := by
  rw [sharedName?, List.find?_append, Option.map_eq_none_iff.1 h, Option.none_or, List.find?_singleton,
    inner.sameStructure_self]
  rfl

/-- Binding one more accumulator, to the first output that has its structure. -/
theorem Reads.snoc {outputs more : List (String × Expr)} {before after : Bindings} {i : NodeInfo} {scope : Scope}
    {inner : Expr} {name : String} (h : Reads outputs live before after)
    (hsame : ∀ d ∈ live, d.serial = i.serial → d = .correlated i scope inner)
    (hname : sharedName? (outputs ++ more) inner = some name) :
    Reads (outputs ++ more) (live ++ [.correlated i scope inner]) before ((i.serial, name) :: after) := by
  constructor
  · intro j sc d hd
    rw [List.lookup_cons]
    by_cases hserial : j.serial = i.serial
    · have heq : Expr.correlated j sc d = .correlated i scope inner := by
        rcases List.mem_append.1 hd with hd | hd
        · exact hsame _ hd hserial
        · exact List.mem_singleton.1 hd
      cases heq
      exact ⟨name, by rw [beq_self_eq_true], hname⟩
    · have hold : Expr.correlated j sc d ∈ live := by
        rcases List.mem_append.1 hd with hd | hd
        · exact hd
        · cases List.mem_singleton.1 hd
          exact absurd rfl hserial
      obtain ⟨name', hlookup, hname'⟩ := h.read j sc d hold
      exact ⟨name', by rw [beq_false_of_ne hserial]; exact hlookup, sharedName?_append hname' more⟩
  · intro serial hserial
    obtain ⟨hold, hlast⟩ := List.forall_mem_append.1 hserial
    have hne : serial ≠ i.serial := (List.forall_mem_singleton.1 hlast).symm
    rw [List.lookup_cons, beq_false_of_ne hne]
    exact h.other serial hold

/-- What naming has come to after some accumulators. -/
structure Assigned (stem : String) (existing : List (String × Expr)) (before : Bindings) (live : List Expr)
    (s : Naming) : Prop where
  outputs : ∃ new, s.outputs = existing ++ new ∧ Adds stem existing new live
  reads : Reads s.outputs live before s.bindings

theorem Assigned.assign {before : Bindings} {s : Naming} (h : Assigned stem existing before live s) (i : NodeInfo)
    (scope : Scope) (inner : Expr) (hsame : ∀ d ∈ live, d.serial = i.serial → d = .correlated i scope inner) :
    Assigned stem existing before (live ++ [.correlated i scope inner])
      (s.assign stem (.correlated i scope inner)) := by
  obtain ⟨⟨new, houtputs, hadds⟩, hreads⟩ := h
  cases hname : sharedName? s.outputs inner with
  | some name =>
      rw [assign_of_sharedName? hname]
      refine ⟨⟨new, houtputs, hadds.more⟩, ?_⟩
      have hread := hreads.snoc hsame (sharedName?_append hname [])
      rwa [List.append_nil] at hread
  | none =>
      have hfree := freeNumber_notMem stem (s.outputs.map Prod.fst) s.nextNumber
      rw [List.length_map] at hfree
      rw [Naming.assign, hname]
      dsimp only
      refine ⟨⟨new ++ [(_, inner)], ?_, hadds.snoc (houtputs ▸ hfree) (houtputs ▸ hname)⟩, hreads.snoc hsame ?_⟩
      · rw [houtputs, List.append_assoc]
      · exact sharedName?_append_of_eq_none hname _

/-- The plan of a scope adds outputs for its accumulators, if these are told apart by their serials. -/
theorem assigned_ofScope (scope : Scope) (bindings : Bindings) (hkind : ∀ e ∈ live, e.kind = .correlated)
    (hsame : ∀ d ∈ live, ∀ e ∈ live, d.serial = e.serial → d = e) :
    ∃ s : Naming, Assigned stem existing bindings live s ∧
      ofScope stem scope existing live bindings = (⟨scope, s.outputs, live.length⟩, s.bindings) := by
  have hfold : ∀ (rest done : List Expr) (s : Naming), done ++ rest = live → Assigned stem existing bindings done s →
      Assigned stem existing bindings (done ++ rest) (rest.foldl (Naming.assign stem) s) := by
    intro rest
    induction rest with
    | nil =>
        intro done s _ h
        rwa [List.append_nil]
    | cons e rest ih =>
        intro done s hlive h
        have hmem : e ∈ live := hlive ▸ List.mem_append_right _ List.mem_cons_self
        obtain ⟨i, sc, inner, rfl⟩ := Expr.exists_of_kind_eq_correlated (hkind e hmem)
        have hassign := h.assign i sc inner fun d hd => hsame d (hlive ▸ List.mem_append_left _ hd) _ hmem
        have hstep := ih (done ++ [.correlated i sc inner]) _ (by rw [← hlive]; simp) hassign
        rwa [List.append_assoc, List.singleton_append] at hstep
  have hstart : Assigned stem existing bindings [] { outputs := existing, bindings } :=
    ⟨⟨[], (List.append_nil _).symm, nofun, nofun, fun h => by rwa [List.append_nil], nofun⟩, ⟨nofun, fun _ _ => rfl⟩⟩
  exact ⟨_, hfold live [] _ rfl hstart, rfl⟩

section Matching

variable {f : Expr → Expr} (hf : ∀ d e, (f d).sameStructure (f e) = d.sameStructure e)

/-- Naming that has gone the same way, a map having been applied to every accumulator. -/
def Naming.Matches (f : Expr → Expr) (s s' : Naming) : Prop :=
  s'.outputs = s.outputs.map (Prod.map id f) ∧ s'.nextNumber = s.nextNumber

include hf in
theorem sharedName?_map (outputs : List (String × Expr)) (inner : Expr) :
    sharedName? (outputs.map (Prod.map id f)) (f inner) = sharedName? outputs inner := by
  have hsame : ((fun output : String × Expr => output.2.sameStructure (f inner)) ∘ Prod.map id f)
      = fun output => output.2.sameStructure inner := funext fun output => hf output.2 inner
  rw [sharedName?, List.find?_map, hsame, Option.map_map]
  rfl

include hf in
theorem Naming.Matches.assign {s s' : Naming} (h : Naming.Matches f s s') (i j : NodeInfo) (scope scope' : Scope)
    (inner : Expr) :
    Naming.Matches f (s.assign stem (.correlated i scope inner)) (s'.assign stem (.correlated j scope' (f inner))) := by
  obtain ⟨houtputs, hnumber⟩ := h
  have hshared : sharedName? s'.outputs (f inner) = sharedName? s.outputs inner := by
    rw [houtputs, sharedName?_map hf]
  have hnames : s'.outputs.map Prod.fst = s.outputs.map Prod.fst := by
    rw [houtputs, List.map_map]
    rfl
  have hlength : s'.outputs.length = s.outputs.length := by rw [houtputs, List.length_map]
  unfold Naming.assign
  dsimp only
  rw [hshared]
  cases sharedName? s.outputs inner with
  | some name => exact ⟨houtputs, hnumber⟩
  | none =>
      dsimp only
      rw [hnames, hlength, hnumber]
      refine ⟨?_, rfl⟩
      rw [houtputs, List.map_append]
      rfl

include hf in
/-- The outputs of a scope go by the structure of those that there were and of the accumulators, and by nothing else. -/
theorem outputs_ofScope_map {scope scope' : Scope} {live live' : List Expr} {bindings bindings' : Bindings}
    (hlive : List.Forall₂ (fun e e' =>
      ∃ i j sc sc' inner, e = .correlated i sc inner ∧ e' = .correlated j sc' (f inner)) live live') :
    (ofScope stem scope' (existing.map (Prod.map id f)) live' bindings').1.outputs
      = (ofScope stem scope existing live bindings).1.outputs.map (Prod.map id f) := by
  have hfold {s s' : Naming} (hs : Naming.Matches f s s') :
      Naming.Matches f (live.foldl (Naming.assign stem) s) (live'.foldl (Naming.assign stem) s') := by
    induction hlive generalizing s s' with
    | nil => exact hs
    | cons he _ ih =>
        obtain ⟨i, j, sc, sc', inner, rfl, rfl⟩ := he
        exact ih (hs.assign hf i j sc sc' inner)
  have hstart : Naming.Matches f { outputs := existing, bindings }
      { outputs := existing.map (Prod.map id f), bindings := bindings' } := ⟨rfl, rfl⟩
  exact (hfold hstart).1

/-- What is bound already does not matter to the outputs of a scope. -/
theorem outputs_ofScope_eq (scope : Scope) (hkind : ∀ e ∈ live, e.kind = .correlated) (bindings bindings' : Bindings) :
    (ofScope stem scope existing live bindings).1.outputs = (ofScope stem scope existing live bindings').1.outputs := by
  have hlive : List.Forall₂ (fun e e' => ∃ i j sc sc' inner, e = Expr.correlated i sc inner ∧
      e' = Expr.correlated j sc' (id inner)) live live := by
    refine List.forall₂_same.2 fun e he => ?_
    obtain ⟨i, sc, inner, rfl⟩ := Expr.exists_of_kind_eq_correlated (hkind e he)
    exact ⟨i, i, sc, sc, inner, rfl, rfl⟩
  have hsame : (ofScope stem scope (existing.map (Prod.map id id)) live bindings).1.outputs
      = (ofScope stem scope existing live bindings').1.outputs.map (Prod.map id id) :=
    outputs_ofScope_map (fun _ _ => rfl) hlive
  rwa [Prod.map_id, List.map_id, List.map_id] at hsame

end Matching

end Aggregation.GroupPlan
