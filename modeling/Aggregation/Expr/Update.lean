import Aggregation.Expr.Build

/-! Changing the children of a node. A node whose children are all the same nodes as before stays itself, so a
pass that changes nothing gives back the very node it got. A changed node keeps its type or is refused. -/

namespace Aggregation.Expr

/-- A new node like a given one over other children. There have to be as many as before. -/
def rebuild (e : Expr) (children : List Expr) : Build Expr :=
  match e, children with
  | .binary _ op _ _, [left, right] => Build.binary op left right
  | .unary _ op _, [operand] => Build.unary op operand
  | .document _ fields, children => Build.document ((fields.map Prod.fst).zip children)
  | .accumulator _ op _, children => Build.accumulator op children.head?
  | .correlated _ scope _, [inner] => Build.correlated scope inner
  | .filter _ _ _, [input, predicate] => Build.filter input predicate
  | .group _ _ _ scope outputs, input :: key :: rest =>
    Build.group input key scope ((outputs.map Prod.fst).zip rest)
  | .project _ _ _, [input, projection] => Build.project input projection
  | .sort _ _ keys, [input] => Build.sort input keys
  | .skip _ _ count, [input] => Build.skip input count
  | .limit _ _ count, [input] => Build.limit input count
  | .extension _ name _, args => Build.extension name args
  | e, _ => pure e

/-- The node over given children: itself if they are its own. -/
def update (e : Expr) (children : List Expr) : Build Expr := do
  let current := e.children
  if current.length ≠ children.length then
    throw (.childCount e.kind current.length children.length)
  if (current.zip children).all fun (old, new) => old.isNode new then return e
  let rebuilt ← e.rebuild children
  if rebuilt.type ≠ e.type then throw (.typeChange e.kind e.type rebuilt.type)
  return rebuilt

/-- The node with a step applied to each child in order. -/
def mapChildren (e : Expr) (f : Expr → Build Expr) : Build Expr := do
  let children ← e.children.mapM f
  e.update children

end Aggregation.Expr
