import Aggregation.Proofs.Meaning.Expressions
import Aggregation.Proofs.Meaning.Stages

/-!
Predicates and queries over comparisons of which the truth is left open. An assignment tells which comparisons of a
field with a value are true. Under it a predicate that is built from such comparisons holds or does not, and so does
a query that can be read in one way only.
-/

namespace Aggregation

namespace Predicate

/-- Predicates that are built from comparisons of one field with one constant, in either order. -/
inductive IsComparisons : Expr → Prop
  | fieldFirst (i j k : NodeInfo) {op : BinaryOp} (path : String) (v : Value) (hop : op.isComparison = true) :
      IsComparisons (.binary i op (.field j path) (.constant k v))
  | constantFirst (i j k : NodeInfo) {op : BinaryOp} (path : String) (v : Value) (hop : op.isComparison = true) :
      IsComparisons (.binary i op (.constant j v) (.field k path))
  | and (i : NodeInfo) {left right : Expr} (hleft : IsComparisons left) (hright : IsComparisons right) :
      IsComparisons (.binary i .and left right)
  | or (i : NodeInfo) {left right : Expr} (hleft : IsComparisons left) (hright : IsComparisons right) :
      IsComparisons (.binary i .or left right)
  | not (i : NodeInfo) {operand : Expr} (h : IsComparisons operand) : IsComparisons (.unary i .not operand)

end Predicate

/-- Which comparisons of the field of a path with a value are true. -/
abbrev Assignment : Type := String → BinaryOp → Value → Bool

namespace Assignment

open Reading (binaryOp? isOperator)

variable (T : Assignment)

/-- Whether a value stands in a comparison to the field of a path: a value is less than a field if the field is
greater. -/
def facing (path : String) : BinaryOp → Value → Bool
  | .gt, v => T path .lt v
  | .gte, v => T path .lte v
  | .lt, v => T path .gt v
  | .lte, v => T path .gte v
  | op, v => T path op v

theorem facing_eq_swapped (path : String) (op : BinaryOp) (v : Value) : T.facing path op v = T path op.swapped v := by
  cases op <;> rfl

/-- Whether a predicate holds, if it is built from comparisons. -/
def truth? : Expr → Option Bool
  | .binary _ .and left right => return (← truth? left) && (← truth? right)
  | .binary _ .or left right => return (← truth? left) || (← truth? right)
  | .binary _ op (.field _ path) (.constant _ v) => if op.isComparison then some (T path op v) else none
  | .binary _ op (.constant _ v) (.field _ path) => if op.isComparison then some (T.facing path op v) else none
  | .unary _ .not operand => return !(← truth? operand)
  | _ => none

mutual

/-- Whether a query of one clause accepts, if it can be read in one way only. A document or a regular expression is not
read as what a field equals, since either may say something else of the field. -/
def verdict? : Value → Option Bool
  | .document ⟨[(key, v)]⟩ => clauseVerdict? key v
  | _ => none

def clauseVerdict? (key : String) : Value → Option Bool
  | .array items =>
    if key = "$and" then return (← verdicts? items).all id
    else if key = "$or" then return (← verdicts? items).any id
    else if key = "$nor" then return !(← verdicts? items).any id
    else if isOperator key then none
    else some (T key .eq (.array items))
  | .document ⟨[(name, v)]⟩ =>
    if isOperator key then none
    else do
      let op ← binaryOp? name
      if op.isComparison then some (T key op v) else none
  | .document _ | .regularExpression _ _ => none
  | v => if isOperator key then none else some (T key .eq v)

def verdicts? : List Value → Option (List Bool)
  | [] => some []
  | query :: rest => do
    let verdict ← verdict? query
    return verdict :: (← verdicts? rest)

end

theorem truth?_fieldFirst {op : BinaryOp} (hop : op.isComparison = true) (i j k : NodeInfo) (path : String) (v : Value) :
    T.truth? (.binary i op (.field j path) (.constant k v)) = some (T path op v) := by
  cases op with
  | eq | ne | gt | gte | lt | lte => rfl
  | and | or | add | subtract | multiply | divide | mod | concat => cases hop

theorem truth?_constantFirst {op : BinaryOp} (hop : op.isComparison = true) (i j k : NodeInfo) (path : String)
    (v : Value) : T.truth? (.binary i op (.constant j v) (.field k path)) = some (T.facing path op v) := by
  cases op with
  | eq | ne | gt | gte | lt | lte => rfl
  | and | or | add | subtract | multiply | divide | mod | concat => cases hop

end Assignment

namespace Reading

theorem isOperator_of_binaryOp? {name : String} {op : BinaryOp} (h : binaryOp? name = some op) :
    isOperator name = true := by
  unfold binaryOp? at h
  split at h
  all_goals first | rfl | cases h

end Reading

namespace Interpretation

open Reading (accepts acceptsFields fieldAccepts verdicts)

variable (I : Interpretation) {row : Document} {members : List Document}

/-- The comparisons that are true of a row. -/
def assignment (row : Document) : Assignment := fun path op v => I.compare op (I.lookup row path) v

theorem facing_assignment {op : BinaryOp} (hop : op.isComparison = true) (path : String) (v : Value) :
    (I.assignment row).facing path op v = I.compare op v (I.lookup row path) := by
  rw [Assignment.facing_eq_swapped, assignment, I.compare_swapped hop]

/-- A predicate over comparisons holds of a row if it does under the comparisons that are true of the row. -/
theorem truth?_assignment {e : Expr} (h : Predicate.IsComparisons e) :
    (I.assignment row).truth? e = some (I.truth (e.value I members row)) := by
  induction h with
  | fieldFirst i j k path v hop => rw [Assignment.truth?_fieldFirst _ hop, Expr.value, I.truth_comparison hop]; rfl
  | constantFirst i j k path v hop =>
      rw [Assignment.truth?_constantFirst _ hop, I.facing_assignment hop, Expr.value, I.truth_comparison hop]
      rfl
  | and i _ _ ihleft ihright =>
      rw [Assignment.truth?, ihleft, ihright, Expr.value, I.truth_and]
      rfl
  | or i _ _ ihleft ihright =>
      rw [Assignment.truth?, ihleft, ihright, Expr.value, I.truth_or]
      rfl
  | not i _ ih =>
      rw [Assignment.truth?, ih, Expr.value, I.truth_not]
      rfl

/-- A clause of a field says of a row what it says of the field. -/
theorem acceptsFields_of_isOperator_eq_false {key : String} (h : Reading.isOperator key = false) (v : Value) :
    acceptsFields I row [(key, v)] = fieldAccepts I row key v := by
  have hne {name : String} (hname : Reading.isOperator name = true) : key ≠ name := fun heq => by
    rw [heq, hname] at h
    cases h
  unfold acceptsFields
  rw [acceptsFields, Bool.and_true]
  cases v with
  | array items =>
      show (if key = "$and" then _ else _) = _
      rw [if_neg (hne rfl), if_neg (hne rfl), if_neg (hne rfl), if_neg (hne rfl)]
  | double | string | document | binary | undefined | objectId | boolean | dateTime | null | regularExpression
  | dbPointer | javaScript | symbol | scopedCode | int32 | timestamp | int64 | decimal128 | minKey | maxKey =>
      exact if_neg (hne rfl)

mutual

/-- A query that has one reading accepts a row accordingly. -/
theorem accepts_of_verdict? :
    ∀ {query : Value} {b : Bool}, (I.assignment row).verdict? query = some b → accepts I row query = b
  | .document ⟨[(_, _)]⟩, b, h => acceptsFields_of_clauseVerdict? h
  | .document ⟨[]⟩, b, h | .document ⟨_ :: _ :: _⟩, b, h | .double _, b, h | .string _, b, h | .array _, b, h
  | .binary _ _, b, h | .undefined, b, h | .objectId _, b, h | .boolean _, b, h | .dateTime _, b, h | .null, b, h
  | .regularExpression _ _, b, h | .dbPointer _ _, b, h | .javaScript _, b, h | .symbol _, b, h
  | .scopedCode _ _, b, h | .int32 _, b, h | .timestamp _ _, b, h | .int64 _, b, h | .decimal128 _, b, h
  | .minKey, b, h | .maxKey, b, h => by cases h

theorem acceptsFields_of_clauseVerdict? {key : String} :
    ∀ {v : Value} {b : Bool}, (I.assignment row).clauseVerdict? key v = some b → acceptsFields I row [(key, v)] = b
  | .array items, b, h => by
      have hconnective {f : List Bool → Bool}
          (h : (do return f (← (I.assignment row).verdicts? items) : Option Bool) = some b) :
          f (verdicts I row items) = b := by
        obtain ⟨bs, hbs, h⟩ := Option.bind_eq_some_iff.1 h
        rw [verdicts_of_verdicts? hbs]
        exact Option.some.inj h
      rw [Assignment.clauseVerdict?] at h
      split at h
      · next hkey =>
          rw [hkey]
          exact (Bool.and_true _).trans (hconnective h)
      · split at h
        · next hkey =>
            rw [hkey]
            exact (Bool.and_true _).trans (hconnective h)
        · split at h
          · next hkey =>
              rw [hkey]
              exact (Bool.and_true _).trans (hconnective h)
          · split at h
            · cases h
            · next hoperator =>
                rw [I.acceptsFields_of_isOperator_eq_false (Bool.eq_false_iff.2 hoperator)]
                exact Option.some.inj h
  | .document ⟨[(name, v)]⟩, b, h => by
      rw [Assignment.clauseVerdict?] at h
      split at h
      · cases h
      · next hoperator =>
          obtain ⟨op, hop, h⟩ := Option.bind_eq_some_iff.1 h
          split at h
          · next hcomparison =>
              rw [I.acceptsFields_of_isOperator_eq_false (Bool.eq_false_iff.2 hoperator)]
              show (if Reading.isOperator name then Reading.meets I (I.lookup row key) [(name, v)] else _) = _
              rw [if_pos (Reading.isOperator_of_binaryOp? hop)]
              simp only [Reading.meets, List.all_cons, List.all_nil, hop, hcomparison, Bool.true_and, Bool.and_true]
              exact Option.some.inj h
          · cases h
  | .document ⟨[]⟩, b, h | .document ⟨_ :: _ :: _⟩, b, h | .regularExpression _ _, b, h => by cases h
  | .double _, b, h | .string _, b, h | .binary _ _, b, h | .undefined, b, h | .objectId _, b, h | .boolean _, b, h
  | .dateTime _, b, h | .null, b, h | .dbPointer _ _, b, h | .javaScript _, b, h | .symbol _, b, h
  | .scopedCode _ _, b, h | .int32 _, b, h | .timestamp _ _, b, h | .int64 _, b, h | .decimal128 _, b, h
  | .minKey, b, h | .maxKey, b, h => by
      obtain ⟨hoperator, h⟩ := Option.ite_none_left_eq_some.1 h
      rw [I.acceptsFields_of_isOperator_eq_false (Bool.eq_false_iff.2 hoperator)]
      exact Option.some.inj h

theorem verdicts_of_verdicts? :
    ∀ {queries : List Value} {bs : List Bool}, (I.assignment row).verdicts? queries = some bs →
      verdicts I row queries = bs
  | [], bs, h => Option.some.inj h
  | query :: rest, bs, h => by
      rw [Assignment.verdicts?] at h
      obtain ⟨b, hb, h⟩ := Option.bind_eq_some_iff.1 h
      obtain ⟨bs, hbs, h⟩ := Option.bind_eq_some_iff.1 h
      rw [verdicts, accepts_of_verdict? hb, verdicts_of_verdicts? hbs]
      exact Option.some.inj h

end

end Interpretation

end Aggregation
