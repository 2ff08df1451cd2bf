import Aggregation.Proofs.Compile.Acceptance

/-!
The numbers in the names of new outputs. The search for a free name looks at one candidate after the other and has no
bound of its own; it ends because the candidates are distinct and only so many names are taken. Over all accumulators
of a scope the numbers ascend and leave out just those whose names the group had before.
-/

namespace Aggregation

namespace GroupPlan

/-- The search for a free name from a number on: how many names it looks at, and the number at which it ends. -/
inductive Searches (stem : String) (taken : List String) : Nat → Nat → Nat → Prop
  | free {number : Nat} (h : numbered stem number ∉ taken) : Searches stem taken number 1 number
  | next {number tried found : Nat} (h : numbered stem number ∈ taken)
      (hrest : Searches stem taken (number + 1) tried found) : Searches stem taken number (tried + 1) found

variable {stem : String} {taken : List String} {existing : List (String × Expr)} {live : List Expr}
  {number tried found : Nat} {numbers : List Nat} {s : Naming}

theorem Searches.le (h : Searches stem taken number tried found) : number ≤ found := by
  induction h with
  | free => exact Nat.le_refl _
  | next _ _ ih => exact Nat.le_of_succ_le ih

theorem Searches.notMem (h : Searches stem taken number tried found) : numbered stem found ∉ taken := by
  induction h with
  | free hfree => exact hfree
  | next _ _ ih => exact ih

/-- The search passes taken names only. -/
theorem Searches.mem (h : Searches stem taken number tried found) {k : Nat} (hle : number ≤ k) (hlt : k < found) :
    numbered stem k ∈ taken := by
  induction h with
  | free => omega
  | next htaken _ ih =>
      rcases Nat.eq_or_lt_of_le hle with rfl | hlt'
      · exact htaken
      · exact ih hlt' hlt

theorem searches_of_notMem {fuel : Nat} (h : numbered stem (freeNumber stem taken fuel number) ∉ taken) :
    ∃ tried ≤ fuel + 1, Searches stem taken number tried (freeNumber stem taken fuel number) := by
  induction fuel generalizing number with
  | zero => exact ⟨1, Nat.le_refl _, .free h⟩
  | succ fuel ih =>
      rw [freeNumber] at h ⊢
      split at h
      · next htaken =>
          obtain ⟨tried, hle, hrest⟩ := ih h
          rw [if_pos htaken]
          exact ⟨tried + 1, Nat.succ_le_succ hle, .next (List.contains_iff_mem.1 htaken) hrest⟩
      · next hfree =>
          rw [if_neg hfree]
          exact ⟨1, Nat.succ_le_succ (Nat.zero_le _), .free h⟩

/-- The search ends after one name more than are taken, at the latest. -/
theorem exists_searches (stem : String) (taken : List String) (number : Nat) :
    ∃ tried ≤ taken.length + 1, Searches stem taken number tried (freeNumber stem taken taken.length number) :=
  searches_of_notMem (freeNumber_notMem stem taken number)

/-- A new output gets the name at which the search ends, and the next search begins behind it. -/
theorem exists_assign_searches (stem : String) {inner : Expr} (h : sharedName? s.outputs inner = none) (i : NodeInfo)
    (scope : Scope) :
    ∃ tried found, Searches stem (s.outputs.map Prod.fst) s.nextNumber tried found ∧ tried ≤ s.outputs.length + 1 ∧
      s.assign stem (.correlated i scope inner) =
        { outputs := s.outputs ++ [(numbered stem found, inner)]
          nextNumber := found + 1
          bindings := (i.serial, numbered stem found) :: s.bindings } := by
  obtain ⟨tried, hle, hsearch⟩ := exists_searches stem (s.outputs.map Prod.fst) s.nextNumber
  rw [List.length_map] at hle hsearch
  refine ⟨tried, _, hsearch, hle, ?_⟩
  rw [Naming.assign, h]

/-- The new outputs of naming: ascending numbers, all those that were free before. -/
structure Numbered (stem : String) (existing : List (String × Expr)) (s : Naming) (numbers : List Nat) : Prop where
  names : s.outputs.map Prod.fst = existing.map Prod.fst ++ numbers.map (numbered stem)
  ascending : numbers.Pairwise (· < ·)
  passed : ∀ k ∈ numbers, k < s.nextNumber
  free : ∀ k < s.nextNumber, k ∈ numbers ↔ numbered stem k ∉ existing.map Prod.fst

theorem mem_map_numbered {k : Nat} : numbered stem k ∈ numbers.map (numbered stem) ↔ k ∈ numbers :=
  List.mem_map_of_injective (numbered_injective stem)

/-- One more output: the numbers that the search passes had been taken before all naming, since those that naming has
given are behind. -/
theorem Numbered.snoc (h : Numbered stem existing s numbers) {tried found : Nat}
    (hsearch : Searches stem (s.outputs.map Prod.fst) s.nextNumber tried found) (inner : Expr) (bindings : Bindings) :
    Numbered stem existing ⟨s.outputs ++ [(numbered stem found, inner)], found + 1, bindings⟩ (numbers ++ [found]) := by
  have hle := hsearch.le
  constructor
  · rw [List.map_append, h.names, List.append_assoc, List.map_append]
    rfl
  · refine List.pairwise_append.2 ⟨h.ascending, List.pairwise_singleton _ _, fun k hk => ?_⟩
    exact List.forall_mem_singleton.2 (Nat.lt_of_lt_of_le (h.passed k hk) hle)
  · refine List.forall_mem_append.2 ⟨fun k hk => ?_, List.forall_mem_singleton.2 (Nat.lt_succ_self _)⟩
    exact Nat.lt_succ_of_lt (Nat.lt_of_lt_of_le (h.passed k hk) hle)
  · intro k hk
    rw [List.mem_append, List.mem_singleton]
    rcases Nat.lt_or_ge k s.nextNumber with hlt | hge
    · rw [← h.free k hlt]
      exact or_iff_left (Nat.ne_of_lt (Nat.lt_of_lt_of_le hlt hle))
    · have hnew : k ∉ numbers := fun hmem => Nat.not_lt.2 hge (h.passed k hmem)
      rw [or_iff_right hnew]
      rcases Nat.lt_or_eq_of_le (Nat.le_of_lt_succ hk) with hlt | rfl
      · have htaken := hsearch.mem hge hlt
        rw [h.names, List.mem_append, mem_map_numbered, or_iff_left hnew] at htaken
        exact iff_of_false (Nat.ne_of_lt hlt) (not_not.2 htaken)
      · have hfree := hsearch.notMem
        rw [h.names, List.mem_append, not_or] at hfree
        exact iff_of_true rfl hfree.1

theorem Numbered.assign (h : Numbered stem existing s numbers) (e : Expr) :
    ∃ more, Numbered stem existing (s.assign stem e) (numbers ++ more) := by
  have hself : ∃ more, Numbered stem existing s (numbers ++ more) := ⟨[], by rwa [List.append_nil]⟩
  cases e with
  | correlated i scope inner =>
      cases hshared : sharedName? s.outputs inner with
      | some name =>
          obtain ⟨more, hmore⟩ := hself
          rw [assign_of_sharedName? hshared]
          exact ⟨more, hmore.names, hmore.ascending, hmore.passed, hmore.free⟩
      | none =>
          obtain ⟨tried, found, hsearch, -, hassign⟩ := exists_assign_searches stem hshared i scope
          rw [hassign]
          exact ⟨[found], h.snoc hsearch inner _⟩
  | constant | field | binary | unary | document | accumulator | source | filter | group | project | sort | skip
  | limit | extension => exact hself

theorem Numbered.foldl (h : Numbered stem existing s numbers) (live : List Expr) :
    ∃ more, Numbered stem existing (live.foldl (Naming.assign stem) s) (numbers ++ more) := by
  induction live generalizing s numbers with
  | nil => exact ⟨[], by rwa [List.append_nil]⟩
  | cons e rest ih =>
      obtain ⟨first, hfirst⟩ := h.assign e
      obtain ⟨more, hmore⟩ := ih hfirst
      exact ⟨first ++ more, by rwa [← List.append_assoc]⟩

theorem exists_numbered (stem : String) (existing : List (String × Expr)) (live : List Expr) (bindings : Bindings) :
    ∃ numbers, Numbered stem existing (live.foldl (Naming.assign stem) { outputs := existing, bindings }) numbers := by
  have hstart : Numbered stem existing { outputs := existing, bindings } [] :=
    ⟨(List.append_nil _).symm, List.Pairwise.nil, fun _ h => absurd h List.not_mem_nil,
      fun _ h => absurd h (Nat.not_lt_zero _)⟩
  obtain ⟨numbers, hnumbers⟩ := hstart.foldl live
  exact ⟨numbers, hnumbers⟩

/-- Names stay distinct. -/
theorem Numbered.nodup (h : Numbered stem existing s numbers) (hdistinct : (existing.map Prod.fst).Nodup) :
    (s.outputs.map Prod.fst).Nodup := by
  have hnumbers : numbers.Nodup := h.ascending.imp Nat.ne_of_lt
  rw [h.names]
  refine List.nodup_append.2 ⟨hdistinct, hnumbers.map (numbered_injective stem), ?_⟩
  intro name hname name' hname' heq
  obtain ⟨k, hk, rfl⟩ := List.mem_map.1 hname'
  exact (h.free k (h.passed k hk)).1 hk (heq ▸ hname)

/-- The new outputs of a scope are live accumulators under numbered names. -/
theorem exists_new_outputs (stem : String) (existing : List (String × Expr)) (live : List Expr) (scope : Scope)
    (bindings : Bindings) : ∃ new, (ofScope stem scope existing live bindings).1.outputs = existing ++ new ∧
      ∀ f ∈ new, (∃ k, f.1 = numbered stem k) ∧ ∃ i tied, Expr.correlated i tied f.2 ∈ live := by
  obtain ⟨naming, ⟨⟨new, houtputs, hlive⟩, -⟩, hplan⟩ : ∃ naming, Named existing bindings live naming ∧
      ofScope stem scope existing live bindings = _ := named_ofScope scope bindings
  have hnew : (ofScope stem scope existing live bindings).1.outputs = existing ++ new := by rw [hplan, ← houtputs]
  obtain ⟨numbers, hnumbered⟩ := exists_numbered stem existing live bindings
  have hnames : (ofScope stem scope existing live bindings).1.outputs.map Prod.fst = _ := hnumbered.names
  rw [hnew, List.map_append] at hnames
  refine ⟨new, hnew, fun f hf => ⟨?_, hlive f hf⟩⟩
  have hmem : f.1 ∈ numbers.map (numbered stem) := List.append_cancel_left hnames ▸ List.mem_map_of_mem hf
  obtain ⟨k, -, hk⟩ := List.mem_map.1 hmem
  exact ⟨k, hk.symm⟩

section Groups

variable {input key : Expr} {scope : Scope} {outputs : List (String × Expr)} {t : Supply}

/-- Which outputs a group may have, whatever else stands in its way. -/
theorem isOk_group_iff : ((Build.group input key scope outputs).run t).isOk = true ↔
    (input.isPipeline = true ∧ key.isPipeline = false ∧ key.containsAccumulator = false) ∧
      (∀ f ∈ outputs, Build.isOutputName f.1 = true ∧ f.1 ≠ "_id" ∧ f.2.kind = .accumulator) ∧
      (outputs.map Prod.fst).Nodup := by
  constructor
  · intro h
    obtain ⟨⟨g, u⟩, hrun⟩ := exists_of_isOk h
    obtain ⟨type, rfl, ⟨hinput, hkey, hnone, houtputs, hnodup, -⟩, -⟩ := (Build.group_makes _ _ _ _ t g u).1 hrun
    exact ⟨⟨hinput, hkey, hnone⟩, houtputs, hnodup⟩
  · rintro ⟨⟨hinput, hkey, hnone⟩, houtputs, hnodup⟩
    have hchecked : (Expr.group ⟨t.nextNode, .documents⟩ input key scope outputs).Checked :=
      ⟨hinput, hkey, hnone, houtputs, hnodup, rfl⟩
    rw [(Build.group_makes input key scope outputs t _ _).2 ⟨_, rfl, hchecked, rfl⟩]
    rfl

/-- A group takes more outputs, if these are accumulators with good names and no name comes twice. -/
theorem isOk_group_append (h : ((Build.group input key scope outputs).run t).isOk = true) {more : List (String × Expr)}
    (hmore : ∀ f ∈ more, Build.isOutputName f.1 = true ∧ f.1 ≠ "_id" ∧ f.2.kind = .accumulator)
    (hnodup : ((outputs ++ more).map Prod.fst).Nodup) :
    ((Build.group input key scope (outputs ++ more)).run t).isOk = true := by
  obtain ⟨hrest, houtputs, -⟩ := isOk_group_iff.1 h
  exact isOk_group_iff.2 ⟨hrest, List.forall_mem_append.2 ⟨houtputs, hmore⟩, hnodup⟩

end Groups

/-- The names that the plan of a scope gives to new outputs. They are the stem with ascending numbers, all those whose
name was not taken, so no name comes twice; the search for each ends after one name more than there are outputs, at the
latest; and with a stem that a configuration may have they are names of fields and of outputs of groups. -/
theorem fresh_names (stem : String) {existing : List (String × Expr)} (hdistinct : (existing.map Prod.fst).Nodup)
    (live : List Expr) (scope : Scope) (bindings : Bindings) :
    (∃ numbers : List Nat,
      (ofScope stem scope existing live bindings).1.names = existing.map Prod.fst ++ numbers.map (numbered stem) ∧
        numbers.Pairwise (· < ·) ∧
        ∀ k ∈ numbers, ∀ n ≤ k, n ∈ numbers ↔ numbered stem n ∉ existing.map Prod.fst) ∧
      (ofScope stem scope existing live bindings).1.names.Nodup ∧
      (∀ (s : Naming) (i : NodeInfo) (tied : Scope) (inner : Expr), sharedName? s.outputs inner = none →
        ∃ tried found, Searches stem (s.outputs.map Prod.fst) s.nextNumber tried found ∧ tried ≤ s.outputs.length + 1 ∧
          s.assign stem (.correlated i tied inner) =
            { outputs := s.outputs ++ [(numbered stem found, inner)]
              nextNumber := found + 1
              bindings := (i.serial, numbered stem found) :: s.bindings }) ∧
      ∀ config : Config, config.flaw? = none → config.stem = stem →
        (∀ k, numbered stem k ≠ "_id" ∧
          (∀ type s, (Build.field (numbered stem k) type).run s =
            .ok (.field ⟨s.nextNode, type⟩ (numbered stem k), s.next)) ∧
          ∀ input key scope outputs e s, ((Build.group input key scope outputs).run s).isOk = true →
            numbered stem k ∉ outputs.map Prod.fst → e.kind = .accumulator →
            ((Build.group input key scope (outputs ++ [(numbered stem k, e)])).run s).isOk = true) ∧
        ((∀ i tied inner, Expr.correlated i tied inner ∈ live → inner.kind = .accumulator) →
          ∀ input key s, ((Build.group input key scope existing).run s).isOk = true →
            ((Build.group input key scope (ofScope stem scope existing live bindings).1.outputs).run s).isOk = true) := by
  obtain ⟨numbers, hnumbered⟩ := exists_numbered stem existing live bindings
  have hnodup : (ofScope stem scope existing live bindings).1.names.Nodup := hnumbered.nodup hdistinct
  refine ⟨⟨numbers, hnumbered.names, hnumbered.ascending, fun k hk n hle => ?_⟩, hnodup,
    fun s i tied inner h => exists_assign_searches stem h i tied, ?_⟩
  · exact hnumbered.free n (Nat.lt_of_le_of_lt hle (hnumbered.passed k hk))
  rintro config hflaw rfl
  have hgood := Config.numbersOutputs hflaw
  refine ⟨fun k => ⟨(hgood k).2, fun type s => ?_, fun input key scope outputs e s hok hnew he => ?_⟩,
    fun hinner input key s hok => ?_⟩
  · exact Build.field_run_iff.2 ⟨Binding.isPath_of_isOutputName (hgood k).1, rfl, rfl⟩
  · refine isOk_group_append hok (List.forall_mem_singleton.2 ⟨(hgood k).1, (hgood k).2, he⟩) ?_
    rw [List.map_append]
    have hold := (isOk_group_iff.1 hok).2.2
    exact List.Nodup.append hold (List.nodup_singleton _) (List.disjoint_singleton.2 hnew)
  · obtain ⟨new, houtputs, hnew⟩ := exists_new_outputs config.stem existing live scope bindings
    rw [GroupPlan.names, houtputs] at hnodup
    rw [houtputs]
    refine isOk_group_append hok (fun f hf => ?_) hnodup
    obtain ⟨⟨k, hk⟩, i, tied, hmem⟩ := hnew f hf
    exact ⟨hk ▸ (hgood k).1, hk ▸ (hgood k).2, hinner i tied f.2 hmem⟩

/-- A group that has the names of the numbers 0 and 2 already, and four accumulators of which two are new: they get the
numbers 1 and 3. -/
theorem fresh_names_gaps :
    let quantity : Expr := .field ⟨0, .int32⟩ "qty"
    let count : Expr := .accumulator ⟨1, .int64⟩ .count none
    let of (op : AccumulatorOp) : Expr := .accumulator ⟨2, .int32⟩ op (some quantity)
    let existing : List (String × Expr) := [("g0", count), ("g2", of .first)]
    let live : List Expr := [of .max, count, of .max, of .min].map (.correlated ⟨3, .int32⟩ ⟨1⟩)
    (existing.map Prod.fst).Nodup ∧
      (ofScope "g" ⟨1⟩ existing live []).1.names = ["g0", "g2", "g1", "g3"] ∧
      (ofScope "g" ⟨1⟩ existing live []).1.names.Nodup ∧ numbered "g" 3 ≠ "_id" ∧
      (∃ tried found, Searches "g" ["g0", "g2"] 0 tried found ∧ tried ≤ 3) ∧
      ((Build.group (.source ⟨4, .documents⟩ "orders") quantity ⟨1⟩
        (ofScope "g" ⟨1⟩ existing live []).1.outputs).run {}).isOk = true := by
  intro quantity count of existing live
  have hdistinct : (existing.map Prod.fst).Nodup := by decide
  obtain ⟨-, hnodup, hsearch, hnames⟩ := fresh_names "g" hdistinct live ⟨1⟩ []
  obtain ⟨hname, hgroup⟩ := hnames { stem := "g" } (by decide) rfl
  have hsearch := hsearch ⟨existing, 0, []⟩ ⟨3, .int32⟩ ⟨1⟩ (of .max) (by decide)
  obtain ⟨tried, found, hends, hle, -⟩ := hsearch
  refine ⟨hdistinct, by decide, hnodup, (hname 3).1, ⟨tried, found, hends, hle⟩, ?_⟩
  refine hgroup (fun i tied inner hmem => ?_) _ _ _ ?_
  · simp only [live, List.map_cons, List.map_nil, List.mem_cons, List.not_mem_nil, or_false, Expr.correlated.injEq]
      at hmem
    rcases hmem with ⟨-, -, rfl⟩ | ⟨-, -, rfl⟩ | ⟨-, -, rfl⟩ | ⟨-, -, rfl⟩ <;> rfl
  · exact isOk_group_iff.2 ⟨⟨rfl, rfl, by decide +kernel⟩, by decide, hdistinct⟩

end GroupPlan

end Aggregation
