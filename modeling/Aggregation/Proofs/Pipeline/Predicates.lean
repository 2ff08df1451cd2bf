import Aggregation.Pipeline.Predicate
import Aggregation.Proofs.Meaning.Comparisons
import Aggregation.Proofs.Pipeline.Scalars

/-!
Predicates and their queries. A predicate has a query exactly if it is built from comparisons of a field with a
constant, and then the query says what the predicate says, whatever comparisons are true. A predicate that has none is
read as an expression. Under a connective the clauses of a predicate are joined by it.
-/

namespace Aggregation.Predicate

open Aggregation.Expr (Scalar)
open Reading (accepts)

variable {e left right operand : Expr} {outer : Option BinaryOp} {queries : List Document} {query : Document}
  {op : BinaryOp} {path : String} {v : Value} {i j k : NodeInfo}

/-! ## Which predicates have a query -/

theorem clauses?_fieldFirst (hop : op.isComparison = true) :
    clauses? outer (.binary i op (.field j path) (.constant k v)) = some [comparison path op v] := by
  unfold clauses?
  exact if_pos hop

theorem clauses?_constantFirst (hop : op.isComparison = true) :
    clauses? outer (.binary i op (.constant j v) (.field k path)) = some [comparison path op.swapped v] := by
  unfold clauses?
  exact if_pos hop

theorem clauses?_connective (hop : op.isConnective = true) :
    clauses? outer (.binary i op left right) = do
      let clauses := (← clauses? (some op) left) ++ (← clauses? (some op) right)
      if outer = some op then return clauses
      else return [clause op.stageKey (.array (clauses.map Value.document))] := by
  have hcomparison : op.isComparison ≠ true := by
    cases op with
    | and | or => exact Bool.false_ne_true
    | eq | ne | gt | gte | lt | lte | add | subtract | multiply | divide | mod | concat => cases hop
  exact (if_neg hcomparison).trans (if_pos hop)

theorem clauses?_not :
    clauses? outer (.unary i .not operand) =
      (query? operand).map fun query => [clause "$nor" (.array [.document query])] := by
  rw [clauses?, query?]
  split <;> rfl

/-- Outside of connectives a predicate has one clause. -/
theorem eq_singleton_of_clauses? (h : clauses? none e = some queries) : ∃ query, queries = [query] := by
  cases e with
  | binary i op left right =>
      unfold clauses? at h
      split at h
      · split at h
        · cases h
          exact ⟨_, rfl⟩
        · cases h
          exact ⟨_, rfl⟩
        · cases h
      · split at h
        · obtain ⟨ls, -, h⟩ := Option.bind_eq_some_iff.1 h
          obtain ⟨rs, -, h⟩ := Option.bind_eq_some_iff.1 h
          cases h
          exact ⟨_, rfl⟩
        · cases h
  | unary i op operand =>
      cases op with
      | negate => cases h
      | not =>
          rw [clauses?_not] at h
          obtain ⟨query, -, rfl⟩ := Option.map_eq_some_iff.1 h
          exact ⟨_, rfl⟩
  | constant | field | document | accumulator | correlated | source | filter | group | project | sort | skip
  | limit | extension => cases h

theorem query?_eq_some_iff : query? e = some query ↔ clauses? none e = some [query] := by
  rw [query?]
  constructor
  · intro h
    split at h
    · next hclauses =>
        cases h
        exact hclauses
    · cases h
  · intro h
    rw [h]

/-- What has clauses is built from comparisons. -/
theorem isComparisons_of_clauses? (h : clauses? outer e = some queries) : IsComparisons e := by
  induction e using Expr.induction_children generalizing outer queries with
  | step e ih =>
      cases e with
      | binary i op left right =>
          unfold clauses? at h
          split at h
          · next hop =>
              split at h
              · exact .fieldFirst i _ _ _ _ hop
              · exact .constantFirst i _ _ _ _ hop
              · cases h
          · split at h
            · next hop =>
                obtain ⟨ls, hls, h⟩ := Option.bind_eq_some_iff.1 h
                obtain ⟨rs, hrs, -⟩ := Option.bind_eq_some_iff.1 h
                have hleft := ih left (by simp [Expr.children]) hls
                have hright := ih right (by simp [Expr.children]) hrs
                cases op with
                | and => exact .and i hleft hright
                | or => exact .or i hleft hright
                | eq | ne | gt | gte | lt | lte | add | subtract | multiply | divide | mod | concat => cases hop
            · cases h
      | unary i op operand =>
          cases op with
          | negate => cases h
          | not =>
              rw [clauses?_not] at h
              obtain ⟨query, hquery, -⟩ := Option.map_eq_some_iff.1 h
              exact .not i (ih operand (by simp [Expr.children]) (query?_eq_some_iff.1 hquery))
      | constant | field | document | accumulator | correlated | source | filter | group | project | sort | skip
      | limit | extension => cases h

/-- What is built from comparisons has clauses under every connective. -/
theorem exists_clauses? (h : IsComparisons e) (outer : Option BinaryOp) : ∃ queries, clauses? outer e = some queries := by
  have hconnective {outer : Option BinaryOp} {i : NodeInfo} {op : BinaryOp} {left right : Expr}
      (hop : op.isConnective = true)
      (hleft : ∃ queries, clauses? (some op) left = some queries)
      (hright : ∃ queries, clauses? (some op) right = some queries) :
      ∃ queries, clauses? outer (.binary i op left right) = some queries := by
    obtain ⟨ls, hls⟩ := hleft
    obtain ⟨rs, hrs⟩ := hright
    rw [clauses?_connective hop, hls, hrs]
    by_cases houter : outer = some op
    · exact ⟨_, if_pos houter⟩
    · exact ⟨_, if_neg houter⟩
  induction h generalizing outer with
  | fieldFirst i j k path v hop => exact ⟨_, clauses?_fieldFirst hop⟩
  | constantFirst i j k path v hop => exact ⟨_, clauses?_constantFirst hop⟩
  | and i _ _ ihleft ihright => exact hconnective rfl (ihleft _) (ihright _)
  | or i _ _ ihleft ihright => exact hconnective rfl (ihleft _) (ihright _)
  | not i _ ih =>
      obtain ⟨queries, hqueries⟩ := ih none
      obtain ⟨query, rfl⟩ := eq_singleton_of_clauses? hqueries
      rw [clauses?_not, query?_eq_some_iff.2 hqueries]
      exact ⟨_, rfl⟩

/-- The predicates that have a query are those that are built from comparisons. -/
theorem isSome_query?_iff : (query? e).isSome = true ↔ IsComparisons e := by
  rw [Option.isSome_iff_exists]
  constructor
  · rintro ⟨query, hquery⟩
    exact isComparisons_of_clauses? (query?_eq_some_iff.1 hquery)
  · intro h
    obtain ⟨queries, hqueries⟩ := exists_clauses? h none
    obtain ⟨query, rfl⟩ := eq_singleton_of_clauses? hqueries
    exact ⟨query, query?_eq_some_iff.2 hqueries⟩

/-! ## What a query says -/

section Verdicts

variable (T : Assignment) {bs cs : List Bool}

/-- What clauses under a connective say together; without a connective there is one clause. -/
def joined (outer : Option BinaryOp) (verdicts : List Bool) : Bool :=
  if outer = some .or then verdicts.any id else verdicts.all id

theorem joined_singleton (outer : Option BinaryOp) (b : Bool) : joined outer [b] = b := by
  unfold joined
  split
  · rw [List.any_cons, List.any_nil, Bool.or_false, id]
  · rw [List.all_cons, List.all_nil, Bool.and_true, id]

theorem verdicts?_append {qs rs : List Value} (hq : T.verdicts? qs = some bs) (hr : T.verdicts? rs = some cs) :
    T.verdicts? (qs ++ rs) = some (bs ++ cs) := by
  induction qs generalizing bs with
  | nil =>
      cases hq
      exact hr
  | cons q qs ih =>
      rw [Assignment.verdicts?] at hq
      obtain ⟨b, hb, hq⟩ := Option.bind_eq_some_iff.1 hq
      obtain ⟨bs', hbs, hq⟩ := Option.bind_eq_some_iff.1 hq
      cases hq
      rw [List.cons_append, Assignment.verdicts?, hb, ih hbs]
      rfl

theorem verdicts?_singleton {q : Value} {b : Bool} (h : T.verdict? q = some b) : T.verdicts? [q] = some [b] := by
  rw [Assignment.verdicts?, h]
  rfl

/-- The query of a comparison is that comparison and can be nothing else. -/
theorem verdict?_comparison (hop : op.isComparison = true) (hpath : Build.isPath path = true) :
    T.verdict? (.document (comparison path op v)) = some (T path op v) := by
  have hname : ¬Reading.isOperator path = true := by
    simp only [Build.isPath, Bool.and_eq_true, Bool.not_eq_true'] at hpath
    exact Bool.eq_false_iff.1 hpath.1
  unfold comparison
  split
  · next heq =>
      obtain ⟨rfl, hplain⟩ := heq
      show T.clauseVerdict? path v = _
      cases v with
      | document | regularExpression => cases hplain
      | array items =>
          have hne {key : String} (hkey : Reading.isOperator key = true) : path ≠ key := fun heq => hname (heq ▸ hkey)
          rw [Assignment.clauseVerdict?, if_neg (hne rfl), if_neg (hne rfl), if_neg (hne rfl), if_neg hname]
      | double | string | binary | undefined | objectId | boolean | dateTime | null | dbPointer | javaScript | symbol
      | scopedCode | int32 | timestamp | int64 | decimal128 | minKey | maxKey => exact if_neg hname
  · show T.clauseVerdict? path (.document ⟨[(op.stageKey, v)]⟩) = _
    rw [Assignment.clauseVerdict?, if_neg hname, Lowering.binaryOp?_stageKey]
    exact if_pos hop

theorem verdict?_connective (hop : op.isConnective = true)
    (h : T.verdicts? (queries.map Value.document) = some bs) :
    T.verdict? (.document (clause op.stageKey (.array (queries.map Value.document)))) = some (joined (some op) bs) := by
  cases op with
  | and =>
      show T.clauseVerdict? "$and" _ = _
      rw [Assignment.clauseVerdict?, if_pos rfl, h]
      rfl
  | or =>
      show T.clauseVerdict? "$or" _ = _
      rw [Assignment.clauseVerdict?, if_neg (by decide), if_pos rfl, h]
      rfl
  | eq | ne | gt | gte | lt | lte | add | subtract | multiply | divide | mod | concat => cases hop

theorem verdict?_nor {b : Bool} (h : T.verdict? (.document query) = some b) :
    T.verdict? (.document (clause "$nor" (.array [.document query]))) = some (!b) := by
  show T.clauseVerdict? "$nor" _ = _
  rw [Assignment.clauseVerdict?, if_neg (by decide), if_neg (by decide), if_pos rfl, verdicts?_singleton T h]
  show some (!(b || false)) = some (!b)
  rw [Bool.or_false]

theorem joined_and_append (bs cs : List Bool) :
    joined (some .and) (bs ++ cs) = (joined (some .and) bs && joined (some .and) cs) := List.all_append

theorem joined_or_append (bs cs : List Bool) :
    joined (some .or) (bs ++ cs) = (joined (some .or) bs || joined (some .or) cs) := List.any_append

/-- The clauses of a connective say together what those of its operands say under it. -/
theorem verdicts?_connective {ls rs : List Document} (hop : op.isConnective = true)
    (hls : clauses? (some op) left = some ls) (hrs : clauses? (some op) right = some rs)
    (hqueries : clauses? outer (.binary i op left right) = some queries)
    (hbs : T.verdicts? (ls.map Value.document) = some bs) (hcs : T.verdicts? (rs.map Value.document) = some cs) :
    ∃ ds, T.verdicts? (queries.map Value.document) = some ds ∧ joined outer ds = joined (some op) (bs ++ cs) := by
  rw [clauses?_connective hop, hls, hrs] at hqueries
  have happend := verdicts?_append T hbs hcs
  rw [← List.map_append] at happend
  by_cases houter : outer = some op
  · cases (if_pos houter).symm.trans hqueries
    exact ⟨bs ++ cs, happend, by rw [houter]⟩
  · cases (if_neg houter).symm.trans hqueries
    exact ⟨_, verdicts?_singleton T (verdict?_connective T hop happend), joined_singleton outer _⟩

/-- The clauses of a predicate can each be read in one way only, and together they say what the predicate says. -/
theorem truth?_of_clauses? (hn : e.WellNamed) (h : IsComparisons e) (hqueries : clauses? outer e = some queries) :
    ∃ bs, T.verdicts? (queries.map Value.document) = some bs ∧ T.truth? e = some (joined outer bs) := by
  induction h generalizing outer queries with
  | fieldFirst i j k path v hop =>
      rw [clauses?_fieldFirst hop] at hqueries
      cases hqueries
      have hpath : Build.isPath path = true := (hn.child List.mem_cons_self).named
      exact ⟨_, verdicts?_singleton T (verdict?_comparison T hop hpath), by
        rw [T.truth?_fieldFirst hop, joined_singleton]⟩
  | @constantFirst i j k op path v hop =>
      rw [clauses?_constantFirst hop] at hqueries
      cases hqueries
      have hpath : Build.isPath path = true := (hn.child (List.mem_cons_of_mem _ List.mem_cons_self)).named
      have hswapped : op.swapped.isComparison = true := by cases op <;> first | rfl | cases hop
      exact ⟨_, verdicts?_singleton T (verdict?_comparison T hswapped hpath), by
        rw [T.truth?_constantFirst hop, joined_singleton, T.facing_eq_swapped]⟩
  | @and i left right hleft hright ihleft ihright =>
      obtain ⟨ls, hls⟩ := exists_clauses? hleft (some .and)
      obtain ⟨rs, hrs⟩ := exists_clauses? hright (some .and)
      obtain ⟨bs, hbs, htruth⟩ := ihleft (hn.child List.mem_cons_self) hls
      obtain ⟨cs, hcs, htruth'⟩ := ihright (hn.child (List.mem_cons_of_mem _ List.mem_cons_self)) hrs
      obtain ⟨ds, hds, hjoined⟩ := verdicts?_connective T rfl hls hrs hqueries hbs hcs
      refine ⟨ds, hds, ?_⟩
      rw [hjoined, joined_and_append, Assignment.truth?, htruth, htruth']
      rfl
  | @or i left right hleft hright ihleft ihright =>
      obtain ⟨ls, hls⟩ := exists_clauses? hleft (some .or)
      obtain ⟨rs, hrs⟩ := exists_clauses? hright (some .or)
      obtain ⟨bs, hbs, htruth⟩ := ihleft (hn.child List.mem_cons_self) hls
      obtain ⟨cs, hcs, htruth'⟩ := ihright (hn.child (List.mem_cons_of_mem _ List.mem_cons_self)) hrs
      obtain ⟨ds, hds, hjoined⟩ := verdicts?_connective T rfl hls hrs hqueries hbs hcs
      refine ⟨ds, hds, ?_⟩
      rw [hjoined, joined_or_append, Assignment.truth?, htruth, htruth']
      rfl
  | @not i operand hoperand ih =>
      rw [clauses?_not] at hqueries
      obtain ⟨query, hquery, rfl⟩ := Option.map_eq_some_iff.1 hqueries
      obtain ⟨bs, hbs, htruth⟩ := ih (hn.child List.mem_cons_self) (query?_eq_some_iff.1 hquery)
      obtain ⟨b, hb, hbs⟩ := Option.bind_eq_some_iff.1 hbs
      cases hbs
      refine ⟨_, verdicts?_singleton T (verdict?_nor T hb), ?_⟩
      rw [joined_singleton, Assignment.truth?, htruth, joined_singleton]
      rfl

/-- A query can be read in one way only, and then it says what its predicate says. -/
theorem truth?_eq_verdict?_of_query? (hn : e.WellNamed) (h : query? e = some query) :
    ∃ b, T.truth? e = some b ∧ T.verdict? (.document query) = some b := by
  have hclauses := query?_eq_some_iff.1 h
  obtain ⟨bs, hbs, htruth⟩ := truth?_of_clauses? T hn (isComparisons_of_clauses? hclauses) hclauses
  obtain ⟨b, hb, hbs⟩ := Option.bind_eq_some_iff.1 hbs
  cases hbs
  rw [joined_singleton] at htruth
  exact ⟨b, htruth, hb⟩

end Verdicts

/-! ## What a stage keeps -/

section Stages

variable {I : Interpretation} {row : Document} {tied : Scope → Prop} {ok : String → Prop}

/-- The query of a predicate accepts the rows of which the predicate holds. -/
theorem accepts_lowerQuery (members : List Document) (hs : Scalar tied ok e) (h : Lowering.lowerQuery e = .ok query) :
    accepts I row (.document query) = I.truth (e.value I members row) := by
  unfold Lowering.lowerQuery at h
  split at h
  · next q hq =>
      cases h
      obtain ⟨b, htruth, hverdict⟩ := truth?_eq_verdict?_of_query? (I.assignment row) hs.wellNamed hq
      have hassigned : (I.assignment row).truth? e = some (I.truth (e.value I members row)) :=
        I.truth?_assignment (isComparisons_of_clauses? (query?_eq_some_iff.1 hq))
      rw [I.accepts_of_verdict? hverdict]
      exact Option.some.inj (htruth.symm.trans hassigned)
  · obtain ⟨v, hv, h⟩ := bind_eq_ok.1 h
    cases h
    rw [← Lowering.expression_lowerScalar hs hv]
    cases v <;> exact Bool.and_true _

/-- The stage of a predicate keeps the rows of which the predicate holds. -/
theorem runStage_lowerPredicate (members : List Document) {stage : Stage} (hs : Scalar tied ok e)
    (h : Lowering.lowerPredicate e = .ok stage) (rows : List Document) :
    Reading.runStage I stage.document rows
      = some (rows.filter fun row => I.truth (e.value I members row)) := by
  unfold Lowering.lowerPredicate at h
  split at h
  · cases h
    simp only [Expr.value, I.truth_boolean]
    rfl
  · obtain ⟨query, hquery, h⟩ := bind_eq_ok.1 h
    cases h
    have haccepts : (fun row => accepts I row (.document query)) = fun row => I.truth (e.value I members row) :=
      funext fun row => accepts_lowerQuery members hs hquery
    show some (rows.filter fun row => accepts I row (.document query)) = _
    rw [haccepts]

end Stages

end Aggregation.Predicate
