import Aggregation.Proofs.Meaning.Expressions
import Aggregation.Proofs.Meaning.Stages

/-!
Expressions under any interpretation of their operators. Results need not be values: they may be failures, or fields
that are absent, or whatever else a database computes with. A scalar has a result on a row, and so has a value that is
read as an expression.
-/

namespace Aggregation

universe u v

/-- An interpretation of operators: the results of constants, of paths in rows, and of parts whose results are known. -/
structure Operators (ρ : Type u) (α : Type v) where
  constant : Value → α
  field : ρ → String → α
  binary : BinaryOp → α → α → α
  not : α → α
  document : List (String × α) → α
  array : List α → α
  /-- What an operator gives for operands that expressions never give it. -/
  other : String → List α → α
  /-- An array of constants is a constant. -/
  array_constant : ∀ items, array (items.map constant) = constant (.array items)

namespace Operators

open Reading (binaryOp? isOperator)

variable {ρ : Type u} {α : Type v} (O : Operators ρ α) (row : ρ)

mutual

/-- The result of a scalar; the negation of a number is what subtracting it from zero gives. Accumulators, pipelines
and nodes of a host have no result on a row. -/
def result? : Expr → Option α
  | .constant _ v => some (O.constant v)
  | .field _ path => some (O.field row path)
  | .binary _ op left right => return O.binary op (← result? left) (← result? right)
  | .unary _ .not operand => return O.not (← result? operand)
  | .unary _ .negate operand => return O.binary .subtract (O.constant (.int32 0)) (← result? operand)
  | .document _ fields => return O.document (← fieldResults? fields)
  | .accumulator .. | .correlated .. | .source .. | .filter .. | .group .. | .project .. | .sort .. | .skip ..
  | .limit .. | .extension .. => none

def fieldResults? : List (String × Expr) → Option (List (String × α))
  | [] => some []
  | (name, e) :: rest => do
    let result ← result? e
    return (name, result) :: (← fieldResults? rest)

end

/-- What the operator of a key gives for its operands. -/
def apply (key : String) (operands : List α) : α :=
  match binaryOp? key, operands with
  | some op, [a, b] => O.binary op a b
  | none, [a] => if key = "$not" then O.not a else O.other key [a]
  | _, operands => O.other key operands

mutual

/-- The result of a value that is read as an expression. -/
def read : Value → α
  | .string s =>
    match s.toList with
    | '$' :: path => O.field row (String.ofList path)
    | _ => O.constant (.string s)
  | .document ⟨fields⟩ => readDocument fields
  | .array items => O.array (readItems items)
  | v => O.constant v

/-- The result of a document: of its operator if it has one, else that of its fields. -/
def readDocument : List (String × Value) → α
  | [] => O.document []
  | (key, argument) :: rest =>
    if rest.isEmpty ∧ key = "$literal" then O.constant argument
    else if rest.isEmpty ∧ isOperator key then
      match argument with
      | .array items => O.apply key (readItems items)
      | argument => O.apply key [read argument]
    else O.document ((key, read argument) :: readFields rest)

def readItems : List Value → List α
  | [] => []
  | v :: rest => read v :: readItems rest

def readFields : List (String × Value) → List (String × α)
  | [] => []
  | (name, v) :: rest => (name, read v) :: readFields rest

end

end Operators

namespace Interpretation

variable (I : Interpretation) {row : Document} {members : List Document}

/-- The operators of an interpretation, the results of which are values. -/
def operators : Operators Document Value where
  constant v := v
  field := I.lookup
  binary := I.binary
  not := I.unary .not
  document fields := .document ⟨fields⟩
  array := .array
  other _ _ := .null
  array_constant items := congrArg Value.array items.map_id'

theorem apply_operators (key : String) (operands : List Value) :
    I.operators.apply key operands = Reading.operate I key operands := by
  unfold Operators.apply Reading.operate
  cases Reading.binaryOp? key with
  | none => rcases operands with _ | ⟨_, _ | _⟩ <;> rfl
  | some op => rcases operands with _ | ⟨_, _ | ⟨_, _ | _⟩⟩ <;> rfl

mutual

/-- An interpretation reads values as its operators do. -/
theorem read_operators : ∀ v : Value, I.operators.read row v = Reading.expression I row v
  | .string s => by
      rw [Operators.read, Reading.expression]
      rfl
  | .document ⟨fields⟩ => readDocument_operators fields
  | .array items => congrArg Value.array (readItems_operators items)
  | .double _ | .binary _ _ | .undefined | .objectId _ | .boolean _ | .dateTime _ | .null | .regularExpression _ _
  | .dbPointer _ _ | .javaScript _ | .symbol _ | .scopedCode _ _ | .int32 _ | .timestamp _ _ | .int64 _
  | .decimal128 _ | .minKey | .maxKey => by
      rw [Operators.read, Reading.expression] <;> first | rfl | simp

theorem readDocument_operators :
    ∀ fields : List (String × Value), I.operators.readDocument row fields = Reading.computed I row fields
  | [] => rfl
  | (key, argument) :: rest => by
      have hargument := read_operators argument
      have hrest := readFields_operators rest
      unfold Operators.readDocument Reading.computed
      split
      · rfl
      · split
        · cases argument with
          | array items =>
              have hitems : I.operators.readItems row items = Reading.expressions I row items :=
                Value.array.inj hargument
              show I.operators.apply key _ = _
              rw [apply_operators, hitems]
          | double | string | document | binary | undefined | objectId | boolean | dateTime | null
          | regularExpression | dbPointer | javaScript | symbol | scopedCode | int32 | timestamp | int64 | decimal128
          | minKey | maxKey =>
              show I.operators.apply key [_] = _
              rw [apply_operators, hargument]
        · rw [hargument, hrest]
          rfl

theorem readItems_operators :
    ∀ items : List Value, I.operators.readItems row items = Reading.expressions I row items
  | [] => rfl
  | v :: rest => by
      rw [Operators.readItems, Reading.expressions, read_operators v, readItems_operators rest]

theorem readFields_operators :
    ∀ fields : List (String × Value), I.operators.readFields row fields = Reading.entries I row fields
  | [] => rfl
  | (name, v) :: rest => by
      rw [Operators.readFields, Reading.entries, read_operators v, readFields_operators rest]

end

mutual

/-- A result under the operators of an interpretation is the value of the scalar. -/
theorem value_eq_of_result? :
    ∀ {e : Expr} {v : Value}, I.operators.result? row e = some v → e.value I members row = v
  | .constant _ c, v, h => Option.some.inj h
  | .field _ path, v, h => Option.some.inj h
  | .binary _ op left right, v, h => by
      rw [Operators.result?] at h
      obtain ⟨a, ha, h⟩ := Option.bind_eq_some_iff.1 h
      obtain ⟨b, hb, h⟩ := Option.bind_eq_some_iff.1 h
      rw [Expr.value, value_eq_of_result? ha, value_eq_of_result? hb]
      exact Option.some.inj h
  | .unary _ .not operand, v, h | .unary _ .negate operand, v, h => by
      rw [Operators.result?] at h
      obtain ⟨a, ha, h⟩ := Option.bind_eq_some_iff.1 h
      rw [Expr.value, value_eq_of_result? ha]
      exact Option.some.inj h
  | .document _ fields, v, h => by
      rw [Operators.result?] at h
      obtain ⟨results, hresults, h⟩ := Option.bind_eq_some_iff.1 h
      rw [Expr.value, fieldValues_eq_of_fieldResults? hresults]
      exact Option.some.inj h
  | .accumulator .., v, h | .correlated .., v, h | .source .., v, h | .filter .., v, h | .group .., v, h
  | .project .., v, h | .sort .., v, h | .skip .., v, h | .limit .., v, h | .extension .., v, h => by cases h

theorem fieldValues_eq_of_fieldResults? :
    ∀ {fields : List (String × Expr)} {results : List (String × Value)},
      I.operators.fieldResults? row fields = some results → Expr.fieldValues I members row fields = results
  | [], results, h => Option.some.inj h
  | (name, e) :: rest, results, h => by
      rw [Operators.fieldResults?] at h
      obtain ⟨v, hv, h⟩ := Option.bind_eq_some_iff.1 h
      obtain ⟨vs, hvs, h⟩ := Option.bind_eq_some_iff.1 h
      rw [Expr.fieldValues, value_eq_of_result? hv, fieldValues_eq_of_fieldResults? hvs]
      exact Option.some.inj h

end

end Interpretation

end Aggregation
