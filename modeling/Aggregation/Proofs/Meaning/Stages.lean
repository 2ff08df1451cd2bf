import Aggregation.Number.Decimal128
import Aggregation.Proofs.Meaning.Interpretation

/-!
How a database reads the documents of stages, and what it does to the documents of a collection. A value is read as
an expression: text after a dollar sign is a path, a document with one field whose name begins with a dollar sign is
an operator, any other document and every array is computed part by part, and all else is itself. Queries, projections,
groups and sorts have syntaxes of their own. A document that is no stage has no result.
-/

namespace Aggregation.Reading

/-- Whether a name is that of an operator. -/
def isOperator (name : String) : Bool := name.toList.head? == some '$'

/-- The operator of two operands under a key. -/
def binaryOp? : String → Option BinaryOp
  | "$eq" => some .eq
  | "$ne" => some .ne
  | "$gt" => some .gt
  | "$gte" => some .gte
  | "$lt" => some .lt
  | "$lte" => some .lte
  | "$and" => some .and
  | "$or" => some .or
  | "$add" => some .add
  | "$subtract" => some .subtract
  | "$multiply" => some .multiply
  | "$divide" => some .divide
  | "$mod" => some .mod
  | "$concat" => some .concat
  | _ => none

/-- The accumulator under a key. -/
def accumulatorOp? : String → Option AccumulatorOp
  | "$sum" => some .sum
  | "$avg" => some .avg
  | "$min" => some .min
  | "$max" => some .max
  | "$first" => some .first
  | "$last" => some .last
  | "$push" => some .push
  | "$addToSet" => some .addToSet
  | _ => none

variable (I : Interpretation)

/-- What an operator gives for its operands. -/
def operate (key : String) (operands : List Value) : Value :=
  match binaryOp? key, operands with
  | some op, [v, w] => I.binary op v w
  | none, [v] => if key = "$not" then .boolean (!I.truth v) else .null
  | _, _ => .null

section Expressions

variable (row : Document)

mutual

/-- The value of an expression. -/
def expression : Value → Value
  | .string s =>
    match s.toList with
    | '$' :: path => I.lookup row (String.ofList path)
    | _ => .string s
  | .document ⟨fields⟩ => computed fields
  | .array items => .array (expressions items)
  | v => v

/-- The value of a document: of its operator if it has one, else that of its fields. -/
def computed : List (String × Value) → Value
  | [] => .document .empty
  | (key, argument) :: rest =>
    if rest.isEmpty ∧ key = "$literal" then argument
    else if rest.isEmpty ∧ isOperator key then
      match argument with
      | .array items => operate I key (expressions items)
      | argument => operate I key [expression argument]
    else .document ⟨(key, expression argument) :: entries rest⟩

def expressions : List Value → List Value
  | [] => []
  | v :: rest => expression v :: expressions rest

def entries : List (String × Value) → List (String × Value)
  | [] => []
  | (name, v) :: rest => (name, expression v) :: entries rest

end

end Expressions

/-- Whether a value says to keep a field or to leave it out, where it is not an expression. -/
def flag? : Value → Option Bool
  | .boolean b => some b
  | .int32 n => some (n != 0)
  | .int64 n => some (n != 0)
  | .double x => some (!x.isZero)
  | .decimal128 d => some (d.coefficient != 0)
  | _ => none

mutual

/-- The value that a projection gives to the field of a path. -/
def projected (row : Document) (path : String) : Value → Value
  | .document ⟨fields⟩ =>
    match fields with
    | [(key, argument)] =>
      if isOperator key then expression I row (.document ⟨[(key, argument)]⟩)
      else .document ⟨projectedFields row path fields⟩
    | _ => .document ⟨projectedFields row path fields⟩
  | v =>
    match flag? v with
    | some _ => I.lookup row path
    | none => expression I row v

/-- The fields of a projected document, without those that are left out. -/
def projectedFields (row : Document) (path : String) : List (String × Value) → List (String × Value)
  | [] => []
  | (name, v) :: rest =>
    if flag? v = some false then projectedFields row path rest
    else (name, projected row (path ++ "." ++ name) v) :: projectedFields row path rest

end

/-- The document that a projection makes of a row. A projection that only leaves fields out keeps the others. Any other
projection gives its own fields, after the key of the row if it does not mention that. -/
def project (spec : List (String × Value)) (row : Document) : Document :=
  if spec.all fun f => flag? f.2 = some false then
    ⟨row.entries.filter fun f => spec.all fun g => g.1 != f.1⟩
  else
    let kept := spec.filter fun f => flag? f.2 != some false
    let fields := kept.map fun f => (f.1, projected I row f.1 f.2)
    if spec.any fun f => f.1 == "_id" then ⟨fields⟩
    else ⟨(row.entries.filter fun f => f.1 == "_id") ++ fields⟩

/-- Whether a value meets every one of some conditions. -/
def meets (v : Value) (conditions : List (String × Value)) : Bool :=
  conditions.all fun condition =>
    match binaryOp? condition.1 with
    | some op => op.isComparison && I.compare op v condition.2
    | none => false

/-- Whether the field of a path is what a query says of it. -/
def fieldAccepts (row : Document) (path : String) : Value → Bool
  | .document d =>
    match d.entries with
    | (key, w) :: rest =>
      if isOperator key then meets I (I.lookup row path) ((key, w) :: rest)
      else I.compare .eq (I.lookup row path) (.document d)
    | [] => I.compare .eq (I.lookup row path) (.document d)
  | .regularExpression pattern options => I.isMatch pattern options (I.lookup row path)
  | v => I.compare .eq (I.lookup row path) v

mutual

/-- Whether a query accepts a row. -/
def accepts (row : Document) : Value → Bool
  | .document ⟨query⟩ => acceptsFields row query
  | _ => false

/-- Whether a row is what every field of a query says of it. -/
def acceptsFields (row : Document) : List (String × Value) → Bool
  | [] => true
  | (key, v) :: rest =>
    (match v with
      | .array items =>
        if key = "$and" then (verdicts row items).all id
        else if key = "$or" then (verdicts row items).any id
        else if key = "$nor" then !(verdicts row items).any id
        else if key = "$expr" then I.truth (expression I row (.array items))
        else fieldAccepts I row key (.array items)
      | v => if key = "$expr" then I.truth (expression I row v) else fieldAccepts I row key v) &&
    acceptsFields row rest

/-- What each of some queries says of a row. -/
def verdicts (row : Document) : List Value → List Bool
  | [] => []
  | query :: rest => accepts row query :: verdicts row rest

end

/-- The value of an output of a group. -/
def output (members : List Document) : Value → Value
  | .document ⟨[(key, argument)]⟩ =>
    match accumulatorOp? key with
    | some op => I.accumulate op (members.map fun row => expression I row argument)
    | none => .null
  | _ => .null

/-- The document of a group. -/
def grouped (outputs : List (String × Value)) (key : Value) (members : List Document) : Document :=
  ⟨("_id", key) :: outputs.map fun f => (f.1, output I members f.2)⟩

/-- The keys of a sort. -/
def sortKeys? (spec : List (String × Value)) : Option (List SortKey) :=
  spec.mapM fun f =>
    if f.2 = .int32 1 then some ⟨f.1, .ascending⟩
    else if f.2 = .int32 (-1) then some ⟨f.1, .descending⟩
    else none

/-- The documents after a stage. -/
def runStage (stage : Document) (rows : List Document) : Option (List Document) :=
  match stage.entries with
  | [("$match", .document query)] => some (rows.filter fun row => accepts I row (.document query))
  | [("$group", .document ⟨("_id", key) :: outputs⟩)] =>
    some ((I.groups (fun row => expression I row key) rows).map fun (key, members) => grouped I outputs key members)
  | [("$project", .document spec)] => some (rows.map (project I spec.entries))
  | [("$sort", .document spec)] => (sortKeys? spec.entries).map fun keys => I.order keys rows
  | [("$skip", .int64 count)] => if 0 ≤ count.toInt then some (rows.drop count.toInt.toNat) else none
  | [("$limit", .int64 count)] => if 0 < count.toInt then some (rows.take count.toInt.toNat) else none
  | _ => none

/-- The documents after stages in turn. -/
def run (stages : List Document) (rows : List Document) : Option (List Document) :=
  stages.foldlM (fun rows stage => runStage I stage rows) rows

end Aggregation.Reading
