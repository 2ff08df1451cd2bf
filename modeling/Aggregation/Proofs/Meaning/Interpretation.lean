import Aggregation.Expr.Operator
import Aggregation.Value.Equality

/-!
Interpretations: what queries and stages leave to a database. An interpretation says where a path leads to below
the value of its first name, what arithmetic, comparisons and accumulators compute, when two keys are one, in which
order groups come out and how a sort orders. Queries and stages are given their meaning over the same interpretation.
-/

namespace Aggregation

/-- The names of a path. -/
def segments (path : String) : List String := (path.toList.splitOn '.').map String.ofList

/-- The document on which a grouping evaluates what it keeps and selects. -/
def keyRow (key : Value) : Document := .single "_id" key

structure Interpretation where
  /-- What the later names of a path lead to from the value of the first name, if there is one. -/
  descend : List String → Option Value → Value
  arithmetic : BinaryOp → Value → Value → Value
  compare : BinaryOp → Value → Value → Bool
  /-- Whether a value matches a regular expression of a pattern and options. -/
  isMatch : String → String → Value → Bool
  truth : Value → Bool
  accumulate : AccumulatorOp → List Value → Value
  isSameKey : Value → Value → Bool
  arrange : List (Value × List Document) → List (Value × List Document)
  order : List SortKey → List Document → List Document
  descend_nil : ∀ v, descend [] (some v) = v
  truth_boolean : ∀ b, truth (.boolean b) = b
  compare_eq_comm : ∀ v w, compare .eq v w = compare .eq w v
  compare_ne_comm : ∀ v w, compare .ne v w = compare .ne w v
  compare_gt : ∀ v w, compare .gt v w = compare .lt w v
  compare_gte : ∀ v w, compare .gte v w = compare .lte w v
  arrange_perm : ∀ groups, (arrange groups).Perm groups
  order_perm : ∀ keys rows, (order keys rows).Perm rows

namespace Interpretation

variable (I : Interpretation)

/-- The value of a path in a document. -/
def lookup (row : Document) (path : String) : Value :=
  match segments path with
  | [] => .null
  | first :: rest => I.descend rest (row.get? first)

def binary (op : BinaryOp) (v w : Value) : Value :=
  if op = .and then .boolean (I.truth v && I.truth w)
  else if op = .or then .boolean (I.truth v || I.truth w)
  else if op.isComparison then .boolean (I.compare op v w)
  else I.arithmetic op v w

/-- The negation of a number is what subtracting it from zero gives. -/
def unary (op : UnaryOp) (v : Value) : Value :=
  match op with
  | .not => .boolean (!I.truth v)
  | .negate => I.arithmetic .subtract (.int32 0) v

/-- The number of some rows: the sum of a one for each. -/
def count (members : List Document) : Value := I.accumulate .sum (members.map fun _ => .int32 1)

/-- Puts a row into the group of its key, which comes last if it is new. -/
def enter (key : Value) (row : Document) : List (Value × List Document) → List (Value × List Document)
  | [] => [(key, [row])]
  | (k, members) :: rest =>
    if I.isSameKey k key then (k, members ++ [row]) :: rest else (k, members) :: enter key row rest

/-- The groups of rows by a key. -/
def groups (key : Document → Value) (rows : List Document) : List (Value × List Document) :=
  I.arrange (rows.foldl (fun groups row => I.enter (key row) row groups) [])

theorem segments_name {name : String} (h : '.' ∉ name.toList) : segments name = [name] := by
  have hsplit : name.toList.splitOn '.' = [name.toList] := by
    apply List.splitOnP_eq_singleton
    intro c hc
    exact beq_false_of_ne fun heq => h (heq ▸ hc)
  rw [segments, hsplit, List.map_singleton, String.ofList_toList]

/-- The first name of a path decides which field of a document the path reads. -/
theorem lookup_congr {row row' : Document} {path : String}
    (h : ∀ first ∈ (segments path).head?, row'.get? first = row.get? first) :
    I.lookup row' path = I.lookup row path := by
  unfold lookup
  cases hs : segments path with
  | nil => rfl
  | cons first rest =>
      have hget : row'.get? first = row.get? first := h first (by rw [hs]; rfl)
      show I.descend rest (row'.get? first) = I.descend rest (row.get? first)
      rw [hget]

theorem lookup_name {row : Document} {name : String} {v : Value} (hname : '.' ∉ name.toList)
    (h : row.get? name = some v) : I.lookup row name = v := by
  rw [lookup, segments_name hname]
  show I.descend [] (row.get? name) = v
  rw [h, I.descend_nil]

@[simp] theorem truth_and (v w : Value) : I.truth (I.binary .and v w) = (I.truth v && I.truth w) :=
  I.truth_boolean _

@[simp] theorem truth_or (v w : Value) : I.truth (I.binary .or v w) = (I.truth v || I.truth w) :=
  I.truth_boolean _

@[simp] theorem truth_not (v : Value) : I.truth (I.unary .not v) = !I.truth v := I.truth_boolean _

theorem truth_comparison {op : BinaryOp} (h : op.isComparison = true) (v w : Value) :
    I.truth (I.binary op v w) = I.compare op v w := by
  have hand : op ≠ .and := fun heq => by rw [heq] at h; cases h
  have hor : op ≠ .or := fun heq => by rw [heq] at h; cases h
  rw [binary, if_neg hand, if_neg hor, if_pos h, I.truth_boolean]

/-- A comparison says the same of swapped operands as its mirror image. -/
theorem compare_swapped {op : BinaryOp} (h : op.isComparison = true) (v w : Value) :
    I.compare op.swapped w v = I.compare op v w := by
  cases op with
  | eq => exact I.compare_eq_comm w v
  | ne => exact I.compare_ne_comm w v
  | gt => exact (I.compare_gt v w).symm
  | gte => exact (I.compare_gte v w).symm
  | lt => exact I.compare_gt w v
  | lte => exact I.compare_gte w v
  | and | or | add | subtract | multiply | divide | mod | concat => cases h

theorem length_enter_le (key : Value) (row : Document) (groups : List (Value × List Document)) :
    (I.enter key row groups).length ≤ groups.length + 1 := by
  induction groups with
  | nil => exact Nat.le_refl 1
  | cons group rest ih =>
      obtain ⟨k, members⟩ := group
      by_cases h : I.isSameKey k key = true
      · rw [enter, if_pos h]
        exact Nat.le_succ _
      · rw [enter, if_neg h]
        exact Nat.succ_le_succ ih

theorem length_groups_le (key : Document → Value) (rows : List Document) :
    (I.groups key rows).length ≤ rows.length := by
  have hfold : ∀ groups : List (Value × List Document),
      (rows.foldl (fun groups row => I.enter (key row) row groups) groups).length
        ≤ groups.length + rows.length := by
    induction rows with
    | nil => exact fun groups => Nat.le_refl _
    | cons row rows ih =>
        intro groups
        have hrest := ih (I.enter (key row) row groups)
        have hfirst := I.length_enter_le (key row) row groups
        rw [List.foldl_cons, List.length_cons]
        omega
  rw [groups, (I.arrange_perm _).length_eq]
  have hnil := hfold []
  rwa [List.length_nil, Nat.zero_add] at hnil

section Plain

/-- The greater of two numbers or of two texts. -/
def greater : Value → Value → Value
  | .int32 m, .int32 n => .int32 (max m n)
  | .string s, .string t => .string (if s < t then t else s)
  | v, _ => v

/-- The sum of the numbers among some values. -/
def total (vs : List Value) : Value :=
  .int32 (vs.foldl (fun sum v => match v with
    | .int32 n => sum + n
    | _ => sum) 0)

/-- An interpretation over numbers and texts, under which groups come out as they came in and nothing is reordered. -/
def plain : Interpretation where
  descend
    | [], some v => v
    | _, _ => .null
  arithmetic _ _ _ := .null
  compare
    | .eq, v, w => v.same w
    | .ne, v, w => !v.same w
    | .lt, .int32 m, .int32 n => m < n
    | .lte, .int32 m, .int32 n => m ≤ n
    | .gt, .int32 m, .int32 n => n < m
    | .gte, .int32 m, .int32 n => n ≤ m
    | _, _, _ => false
  isMatch _ _ _ := false
  truth v := v.same (.boolean true)
  accumulate
    | .sum, vs => total vs
    | .max, v :: vs => vs.foldl greater v
    | .first, v :: _ => v
    | .push, vs => .array vs
    | _, _ => .null
  isSameKey := Value.same
  arrange groups := groups
  order _ rows := rows
  descend_nil _ := rfl
  truth_boolean b := by cases b <;> rfl
  compare_eq_comm v w := by
    show v.same w = w.same v
    rw [Bool.eq_iff_iff, Value.same_iff_eq, Value.same_iff_eq, eq_comm]
  compare_ne_comm v w := by
    show (!v.same w) = !w.same v
    rw [Bool.not_inj_iff, Bool.eq_iff_iff, Value.same_iff_eq, Value.same_iff_eq, eq_comm]
  compare_gt v w := by cases v <;> cases w <;> rfl
  compare_gte v w := by cases v <;> cases w <;> rfl
  arrange_perm _ := .refl _
  order_perm _ _ := .refl _

end Plain

end Interpretation

end Aggregation
