import Aggregation.ExtendedJson.Basic
import Aggregation.Proofs.Meaning.Interpretation
import Aggregation.Query.Basic

/-!
What a query does, step by step, to the documents of its collection. An expression is first read as a term; the
value of a term depends on the row in hand, on the rows of the group around it, and on what the key of that group is
taken to be. A grouping evaluates what it keeps and selects on a document that has the key under `_id`.
-/

namespace Aggregation.Query

/-- An expression of a query. -/
inductive Term where
  | literal (value : Value)
  | field (path : String)
  | key
  | document (fields : List (String × Term))
  | unary (op : UnaryOp) (operand : Term)
  | binary (op : BinaryOp) (operands : List Term)
  | count
  | accumulator (op : AccumulatorOp) (operand : Term)
  /-- What a database does not know, over what it is applied to. -/
  | foreign (operands : List Term)

mutual

/-- The term that JSON spells. -/
def term : Json → Term
  | .object ⟨members⟩ =>
    match members.lookup "field" with
    | some (.string path) => .field path
    | some _ => .foreign []
    | none => operationTerm members
  | j =>
    match ExtendedJson.toValue j with
    | .ok value => .literal value
    | .error _ => .foreign []

def operationTerm : List (String × Json) → Term
  | [(name, arg)] =>
    if name = "literal" then
      match ExtendedJson.toValue arg with
      | .ok value => .literal value
      | .error _ => .foreign []
    else if name = "key" then .key
    else if name = "document" then
      match arg with
      | .object ⟨members⟩ => .document (fieldTerms members)
      | _ => .foreign []
    else
      match UnaryOp.ofName? name with
      | some op =>
        .unary op (match arg with
          | .array [item] => term item
          | arg => term arg)
      | none =>
        match BinaryOp.ofName? name with
        | some op =>
          .binary op (match arg with
            | .array items => terms items
            | arg => [term arg])
        | none =>
          match AccumulatorOp.ofName? name with
          | some .count => .count
          | some op => .accumulator op (term arg)
          | none =>
            .foreign (match arg with
              | .array items => terms items
              | arg => [term arg])
  | _ => .foreign []

def terms : List Json → List Term
  | [] => []
  | j :: rest => term j :: terms rest

def fieldTerms : List (String × Json) → List (String × Term)
  | [] => []
  | (name, j) :: rest => (name, term j) :: fieldTerms rest

end

namespace Term

variable (I : Interpretation)

mutual

/-- The value of a term on a row. `key` tells what the key of the group is while a row is in hand. -/
def value (key : Document → Value) (members : List Document) (row : Document) : Term → Value
  | .literal v => v
  | .field path => I.lookup row path
  | .key => key row
  | .document fields => .document ⟨fieldValues key members row fields⟩
  | .unary op operand => I.unary op (value key members row operand)
  | .binary op operands =>
    match values key members row operands with
    | first :: rest => rest.foldl (I.binary op) first
    | [] => .null
  | .count => I.count members
  | .accumulator op operand => I.accumulate op (members.map fun r => value key members r operand)
  | .foreign _ => .null

def values (key : Document → Value) (members : List Document) (row : Document) : List Term → List Value
  | [] => []
  | t :: rest => value key members row t :: values key members row rest

def fieldValues (key : Document → Value) (members : List Document) (row : Document) :
    List (String × Term) → List (String × Value)
  | [] => []
  | (name, t) :: rest => (name, value key members row t) :: fieldValues key members row rest

end

mutual

/-- The paths of the fields of a term. -/
def paths : Term → List String
  | .field path => [path]
  | .document fields => fieldPaths fields
  | .unary _ operand | .accumulator _ operand => operand.paths
  | .binary _ operands | .foreign operands => operandPaths operands
  | .literal _ | .key | .count => []

def operandPaths : List Term → List String
  | [] => []
  | t :: rest => t.paths ++ operandPaths rest

def fieldPaths : List (String × Term) → List String
  | [] => []
  | (_, t) :: rest => t.paths ++ fieldPaths rest

end

theorem fieldPaths_eq_flatMap (fields : List (String × Term)) :
    fieldPaths fields = (fields.map Prod.snd).flatMap paths := by
  induction fields with
  | nil => rfl
  | cons f rest ih =>
      obtain ⟨name, t⟩ := f
      rw [fieldPaths, ih]
      rfl

mutual

/-- Whether the key of the group occurs in a term, at all or only below an accumulator. -/
def mentionsKey (below : Bool) : Term → Bool
  | .key => !below
  | .document fields => anyFieldMentionsKey below fields
  | .unary _ operand => operand.mentionsKey below
  | .binary _ operands => anyMentionsKey below operands
  | .accumulator _ operand => operand.mentionsKey false
  | .literal _ | .field _ | .count | .foreign _ => false

def anyMentionsKey (below : Bool) : List Term → Bool
  | [] => false
  | t :: rest => t.mentionsKey below || anyMentionsKey below rest

def anyFieldMentionsKey (below : Bool) : List (String × Term) → Bool
  | [] => false
  | (_, t) :: rest => t.mentionsKey below || anyFieldMentionsKey below rest

end

mutual

/-- The value depends on what the key is only as far as the term mentions the key: nowhere if it does not, and only
while the row itself is in hand if no accumulator has the key below it. -/
theorem value_congr_key {key key' : Document → Value} (members : List Document) :
    ∀ (below : Bool) (t : Term) (row : Document), t.mentionsKey below = false →
      (below = true → key row = key' row) → value I key members row t = value I key' members row t
  | below, .key, row, h, hrow => by
      rw [value, value]
      exact hrow (by simpa [mentionsKey] using h)
  | below, .document fields, row, h, hrow => by
      rw [value, value, fieldValues_congr_key members below fields row h hrow]
  | below, .unary op operand, row, h, hrow => by
      rw [value, value, value_congr_key members below operand row h hrow]
  | below, .binary op operands, row, h, hrow => by
      rw [value, value, values_congr_key members below operands row h hrow]
  | below, .accumulator op operand, row, h, hrow => by
      rw [value, value]
      congr 2
      funext r
      exact value_congr_key members false operand r h (fun hbelow => by cases hbelow)
  | _, .literal _, _, _, _ | _, .field _, _, _, _ | _, .count, _, _, _ | _, .foreign _, _, _, _ => rfl

theorem values_congr_key {key key' : Document → Value} (members : List Document) :
    ∀ (below : Bool) (ts : List Term) (row : Document), anyMentionsKey below ts = false →
      (below = true → key row = key' row) → values I key members row ts = values I key' members row ts
  | _, [], _, _, _ => rfl
  | below, t :: rest, row, h, hrow => by
      obtain ⟨ht, hrest⟩ := Bool.or_eq_false_iff.1 h
      rw [values, values, value_congr_key members below t row ht hrow,
        values_congr_key members below rest row hrest hrow]

theorem fieldValues_congr_key {key key' : Document → Value} (members : List Document) :
    ∀ (below : Bool) (fields : List (String × Term)) (row : Document),
      anyFieldMentionsKey below fields = false → (below = true → key row = key' row) →
        fieldValues I key members row fields = fieldValues I key' members row fields
  | _, [], _, _, _ => rfl
  | below, (name, t) :: rest, row, h, hrow => by
      obtain ⟨ht, hrest⟩ := Bool.or_eq_false_iff.1 h
      rw [fieldValues, fieldValues, value_congr_key members below t row ht hrow,
        fieldValues_congr_key members below rest row hrest hrow]

end

end Term

end Aggregation.Query

namespace Aggregation

namespace Step

open Query (term fieldTerms)

/-- The terms of a step. -/
def terms : Step → List Query.Term
  | .filter predicate => [term predicate]
  | .group key having select => term key :: having.toList.map term ++ (fieldTerms select.entries).map Prod.snd
  | .project fields => (fieldTerms fields.entries).map Prod.snd
  | .sort _ | .skip _ | .limit _ => []

variable (I : Interpretation) (reading : Value → Document → Value)

/-- The documents after a step. `reading` tells what the key of a group is taken to be while a row is in hand; a step
that is no grouping has no key. -/
def run : Step → List Document → List Document
  | .filter predicate, rows => rows.filter fun row => I.truth ((term predicate).value I (fun _ => .null) [] row)
  | .group key having select, rows =>
    let groups := I.groups (fun row => (term key).value I (fun _ => .null) [] row) rows
    let kept := groups.filter fun (key, members) =>
      having.all fun predicate => I.truth ((term predicate).value I (reading key) members (keyRow key))
    kept.map fun (key, members) =>
      ⟨Query.Term.fieldValues I (reading key) members (keyRow key) (fieldTerms select.entries)⟩
  | .project fields, rows =>
    rows.map fun row => ⟨Query.Term.fieldValues I (fun _ => .null) [] row (fieldTerms fields.entries)⟩
  | .sort keys, rows => I.order keys rows
  | .skip count, rows => rows.drop count
  | .limit count, rows => rows.take count

/-- No accumulator of the step has the key of the group in its operand. -/
def KeyOutsideOperands (s : Step) : Prop := ∀ t ∈ s.terms, t.mentionsKey true = false

/-- The names that a projection or a sort gives to fields are fit for a document: a projection has some, and no path
orders twice. -/
def NamesFields : Step → Prop
  | .project fields => fields.entries ≠ []
  | .sort keys => (keys.map SortKey.path).Nodup
  | _ => True

end Step

namespace Query

/-- The documents after the steps of a query. -/
def run (I : Interpretation) (reading : Value → Document → Value) (q : Query) (rows : List Document) :
    List Document :=
  q.steps.foldl (fun rows s => s.run I reading rows) rows

/-- The paths of the fields in the expressions of a query. -/
def paths (q : Query) : List String := q.steps.flatMap fun s => s.terms.flatMap Term.paths

/-- The key of a group is what `_id` is in the row in hand: the key itself in what a grouping keeps and selects, but
the field of a row of the group below an accumulator. -/
def rowKey (I : Interpretation) (_ : Value) (row : Document) : Value := I.lookup row "_id"

/-- The key of a group is the same value wherever it is mentioned. -/
def groupKeyValue (key : Value) (_ : Document) : Value := key

end Query

end Aggregation
