import Aggregation.Expr.Error
import Aggregation.Json.Reading
import Aggregation.Query.Basic

/-! Reading a query from JSON. -/

namespace Aggregation

open Json (Tree)

def Direction.ofTree? (depth : Nat) (t : Tree) : Option Direction := do
  let (name, argument) ← t.alternative? depth
  match argument with
  | none | some (.null, _) =>
    match name with
    | "asc" => some .ascending
    | "desc" => some .descending
    | _ => none
  | _ => none

/-- A sort key, ascending unless it says otherwise. -/
def SortKey.ofTree? (depth : Nat) (t : Tree) : Option SortKey := do
  match ← t.fields? ["field", "direction"] depth with
  | ([some path, direction], depth) =>
    let direction ← match direction with
      | none => some .ascending
      | some t => Direction.ofTree? depth t
    return ⟨← path.text?, direction⟩
  | _ => none

namespace Step

def members? (depth : Nat) (t : Tree) : Option (Record Json) :=
  match t.json? depth with
  | some (.object members) => some members
  | _ => none

def group? (depth : Nat) (t : Tree) : Option Step := do
  match ← t.fields? ["key", "having", "select"] depth with
  | ([some key, having, some select], depth) =>
    let key ← key.json? depth
    let having ← match having with
      | none | some .null => some none
      | some t => (t.json? depth).map some
    return .group key having (← members? depth select)
  | _ => none

def keys? (depth : Nat) (t : Tree) : Option (List SortKey) := do
  let (items, depth) ← t.items? depth
  items.mapM (SortKey.ofTree? depth)

/-- A step: one member, whose name says what the step does. -/
def ofTree? (depth : Nat) (t : Tree) : Option Step := do
  let (name, argument) ← t.alternative? depth
  let (t, depth) ← argument
  match name with
  | "filter" => return .filter (← t.json? depth)
  | "group" => group? depth t
  | "project" => return .project (← members? depth t)
  | "sort" => return .sort (← keys? depth t)
  | "skip" => return .skip (← t.natural?)
  | "limit" => return .limit (← t.natural?)
  | _ => none

end Step

namespace Query

/-- A query. It has no steps unless it says otherwise. -/
def ofTree? (t : Tree) : Option Query := do
  match ← t.fields? ["collection", "pipeline"] Json.depthLimit with
  | ([some collection, steps], depth) =>
    let collection ← collection.text?
    let steps ← match steps with
      | none => some []
      | some t => do
        let (items, depth) ← t.items? depth
        items.mapM (Step.ofTree? depth)
    return ⟨collection, steps⟩
  | _ => none

def ofText (text : String) : Except CompileError Query :=
  match (Json.tree? text.toList).bind ofTree? with
  | some q => .ok q
  | none => .error (.query .json)

end Query

end Aggregation
