import Aggregation.ExtendedJson.Basic
import Aggregation.Json.Printer
import Aggregation.Value.Equality
import Aggregation.Wire.Encoding

/-! Pipelines: what a database is asked to do with the documents of a collection, stage by stage. A stage is
written as a document with one field, whose name says what the stage does. -/

namespace Aggregation

inductive Stage where
  | filter (query : Document)
  | keep
  | group (spec : Document)
  | project (spec : Document)
  | sort (spec : Document)
  | skip (count : Nat)
  | limit (count : Nat)
  deriving DecidableEq, Repr

namespace Stage

/-- The name of the field. -/
def operator : Stage → String
  | .filter _ | .keep => "$match"
  | .group _ => "$group"
  | .project _ => "$project"
  | .sort _ => "$sort"
  | .skip _ => "$skip"
  | .limit _ => "$limit"

/-- A count as a value; one that is too large becomes the largest. -/
def countValue (count : Nat) : Value := .int64 (Int64.ofNat (min count 0x7FFFFFFFFFFFFFFF))

def body : Stage → Value
  | .filter spec | .group spec | .project spec | .sort spec => .document spec
  | .keep => .document .empty
  | .skip count | .limit count => countValue count

def document (s : Stage) : Document := .single s.operator s.body

end Stage

/-- Stages over the documents of a collection, first one first. -/
structure Pipeline where
  collection : String
  stages : List Stage
  deriving DecidableEq, Repr

namespace Pipeline

def documents (p : Pipeline) : List Document := p.stages.map Stage.document

def operators (p : Pipeline) : List String := p.stages.map Stage.operator

def toJson (p : Pipeline) : Json :=
  .ofMembers [("aggregate", .string p.collection),
    ("pipeline", .array (p.documents.map ExtendedJson.ofDocument))]

def write (p : Pipeline) : Wire.Write Unit := Wire.Writer.writeDocuments p.documents

end Pipeline

end Aggregation
