import Aggregation.Log
import Aggregation.Pipeline.Basic

/-! Dropping stages that change nothing, and merging stages that follow each other and do the same. -/

namespace Aggregation

/-- Why a stage is not there any more. -/
inductive Elimination where
  | keptAll
  | skippedNothing
  | limitMerged
  | skipMerged
  deriving DecidableEq, Repr

namespace Elimination

/-- What the stage did. -/
def operator : Elimination → String
  | .keptAll => "$match"
  | .limitMerged => "$limit"
  | .skippedNothing | .skipMerged => "$skip"

/-- Why it could go. -/
def reason : Elimination → String
  | .keptAll => "predicate is constant true"
  | .skippedNothing => "skips nothing"
  | .limitMerged => "merged into preceding limit"
  | .skipMerged => "merged into preceding skip"

/-- The line about the stage. -/
def describe (e : Elimination) : String := e.operator ++ ": " ++ e.reason

/-- What is logged about the stage. -/
def entry (e : Elimination) : Log.Entry :=
  Log.Event.stageEliminated.entry [("stage", e.operator), ("reason", e.reason)]

end Elimination

namespace Pipeline

/-- The largest count that skips can add up to. -/
def maxSkip : Nat := 0xFFFFFFFFFFFFFFFF

/-- Puts a stage after others, of which the last comes first. -/
def append (done : List Stage) (stage : Stage) : List Stage × Option Elimination :=
  match stage, done with
  | .keep, done => (done, some .keptAll)
  | .skip 0, done => (done, some .skippedNothing)
  | .limit n, .limit m :: rest => (.limit (min m n) :: rest, some .limitMerged)
  | .skip n, .skip m :: rest => (.skip (min (m + n) maxSkip) :: rest, some .skipMerged)
  | stage, done => (stage :: done, none)

/-- Puts stages after others in turn, and tells which ones went away. -/
def appendAll (done : List Stage) : List Stage → List Stage × List Elimination
  | [] => (done.reverse, [])
  | stage :: rest =>
    let (done, elimination) := append done stage
    let (stages, eliminated) := appendAll done rest
    (stages, elimination.toList ++ eliminated)

/-- Leaves out what changes nothing. -/
def eliminate (stages : List Stage) : List Stage × List Elimination := appendAll [] stages

end Pipeline

end Aggregation
