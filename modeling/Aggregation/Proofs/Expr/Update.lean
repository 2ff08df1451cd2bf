import Aggregation.Expr.Update
import Aggregation.Proofs.Expr.Building

/-!
A node over other children. An update either leaves a node as it is, because its children are its own, or builds a
new node of the same payload over the given children.
-/

namespace Aggregation.Expr

/-- The node of a payload over other children, if there are as many as it has. -/
def withChildren (e : Expr) (i : NodeInfo) (children : List Expr) : Expr :=
  match e, children with
  | .constant _ v, _ => .constant i v
  | .field _ path, _ => .field i path
  | .binary _ op _ _, [left, right] => .binary i op left right
  | .unary _ op _, [operand] => .unary i op operand
  | .document _ fields, children => .document i ((fields.map Prod.fst).zip children)
  | .accumulator _ op _, children => .accumulator i op children.head?
  | .correlated _ scope _, [inner] => .correlated i scope inner
  | .source _ collection, _ => .source i collection
  | .filter _ _ _, [input, predicate] => .filter i input predicate
  | .group _ _ _ scope outputs, input :: key :: rest => .group i input key scope ((outputs.map Prod.fst).zip rest)
  | .project _ _ _, [input, projection] => .project i input projection
  | .sort _ _ keys, [input] => .sort i input keys
  | .skip _ _ count, [input] => .skip i input count
  | .limit _ _ count, [input] => .limit i input count
  | .extension _ name _, args => .extension i name args
  | e, _ => e

theorem zip_map_fst_map_snd {α β : Type} (entries : List (α × β)) :
    (entries.map Prod.fst).zip (entries.map Prod.snd) = entries := by
  rw [List.zip_map', List.map_id'']
  exact fun _ => rfl

/-- A node over its own children is itself. -/
theorem withChildren_children (e : Expr) : e.withChildren e.info e.children = e := by
  cases e with
  | document i fields => exact congrArg (document i) (zip_map_fst_map_snd fields)
  | group i input key scope outputs => exact congrArg (group i input key scope) (zip_map_fst_map_snd outputs)
  | accumulator i op operand => cases operand <;> rfl
  | constant | field | binary | unary | correlated | source | filter | project | sort | skip | limit | extension => rfl

theorem info_withChildren {e : Expr} {i : NodeInfo} {children : List Expr}
    (h : children.length = e.children.length) : (e.withChildren i children).info = i := by
  cases e with
  | constant | field | document | accumulator | source | extension => rfl
  | binary | filter | project =>
      obtain ⟨c, d, rfl⟩ := List.length_eq_two.1 h
      rfl
  | unary | correlated | sort | skip | limit =>
      obtain ⟨c, rfl⟩ := List.length_eq_one_iff.1 h
      rfl
  | group =>
      match children, h with
      | _ :: _ :: _, _ => rfl

theorem type_withChildren {e : Expr} {i : NodeInfo} {children : List Expr}
    (h : children.length = e.children.length) : (e.withChildren i children).type = i.type :=
  congrArg NodeInfo.type (info_withChildren h)

/-- The children of a node over other children are these. -/
theorem children_withChildren {e : Expr} {i : NodeInfo} {children : List Expr}
    (h : children.length = e.children.length) : (e.withChildren i children).children = children := by
  have hsnd {entries : List (String × Expr)} {rest : List Expr} (h : rest.length = (entries.map Prod.snd).length) :
      ((entries.map Prod.fst).zip rest).map Prod.snd = rest := by
    rw [List.length_map] at h
    exact List.map_snd_zip (Nat.le_of_eq (by rw [List.length_map, h]))
  cases e with
  | constant | field | source => exact (List.eq_nil_of_length_eq_zero h).symm
  | binary | filter | project =>
      obtain ⟨c, d, rfl⟩ := List.length_eq_two.1 h
      rfl
  | unary | correlated | sort | skip | limit =>
      obtain ⟨c, rfl⟩ := List.length_eq_one_iff.1 h
      rfl
  | document => exact hsnd h
  | accumulator i op operand =>
      cases operand with
      | none => exact (List.eq_nil_of_length_eq_zero h) ▸ rfl
      | some d =>
          obtain ⟨c, rfl⟩ := List.length_eq_one_iff.1 h
          rfl
  | group =>
      match children, h with
      | c :: d :: rest, h => exact congrArg (c :: d :: ·) (hsnd (Nat.succ.inj (Nat.succ.inj h)))
  | extension => rfl

variable {e e' : Expr} {children : List Expr} {s t : Supply}

/-- A rebuilt node has the payload of the old one, and the children that were asked for. -/
theorem rebuild_eq_ok (hlength : children.length = e.children.length) (hne : children ≠ [])
    (h : (e.rebuild children).run s = .ok (e', t)) : ∃ i, e' = e.withChildren i children ∧ Build.Minted s t i := by
  cases e with
  | constant | field | source => exact absurd (List.eq_nil_of_length_eq_zero hlength) hne
  | binary =>
      obtain ⟨c, d, rfl⟩ := List.length_eq_two.1 hlength
      exact Build.binary_eq_ok h
  | unary =>
      obtain ⟨c, rfl⟩ := List.length_eq_one_iff.1 hlength
      exact Build.unary_eq_ok h
  | document => exact (Build.document_eq_ok h).2.2
  | accumulator i op operand =>
      cases operand with
      | none => exact absurd (List.eq_nil_of_length_eq_zero hlength) hne
      | some d =>
          obtain ⟨c, rfl⟩ := List.length_eq_one_iff.1 hlength
          exact (Build.accumulator_eq_ok h).2
  | correlated =>
      obtain ⟨c, rfl⟩ := List.length_eq_one_iff.1 hlength
      exact Build.correlated_eq_ok h
  | filter =>
      obtain ⟨c, d, rfl⟩ := List.length_eq_two.1 hlength
      exact Build.filter_eq_ok h
  | group =>
      match children, hlength with
      | _ :: _ :: _, _ => exact (Build.group_eq_ok h).2.2
  | project =>
      obtain ⟨c, d, rfl⟩ := List.length_eq_two.1 hlength
      exact Build.project_eq_ok h
  | sort =>
      obtain ⟨c, rfl⟩ := List.length_eq_one_iff.1 hlength
      exact Build.sort_eq_ok h
  | skip =>
      obtain ⟨c, rfl⟩ := List.length_eq_one_iff.1 hlength
      exact Build.skip_eq_ok h
  | limit =>
      obtain ⟨c, rfl⟩ := List.length_eq_one_iff.1 hlength
      exact (Build.limit_eq_ok h).2
  | extension => exact Build.extension_eq_ok h

/-- An update keeps the node if all its children are the given ones, and otherwise makes a new one of its payload. -/
theorem update_eq_ok (h : (e.update children).run s = .ok (e', t)) :
    children.length = e.children.length ∧
      ((∀ p ∈ e.children.zip children, p.1.serial = p.2.serial) ∧ e' = e ∧ t = s ∨
        ∃ i, e' = e.withChildren i children ∧ Build.Minted s t i) := by
  unfold update at h
  dsimp only at h
  split at h
  · exact absurd h Build.run_throw_bind_ne_ok
  · next hlength =>
      have hlength : children.length = e.children.length := (not_not.1 hlength).symm
      refine ⟨hlength, ?_⟩
      split at h
      · next hall =>
          obtain ⟨rfl, rfl⟩ := Build.run_pure_eq_ok.1 h
          exact .inl ⟨fun p hp => beq_iff_eq.1 (List.all_eq_true.1 hall p hp), rfl, rfl⟩
      · next hall =>
          have hne : children ≠ [] := by
            rintro rfl
            rw [List.zip_nil_right] at hall
            exact hall rfl
          obtain ⟨rebuilt, s', hrebuilt, h⟩ := Build.run_bind_eq_ok.1 h
          split at h
          · exact absurd h Build.run_throw_bind_ne_ok
          · obtain ⟨rfl, rfl⟩ := Build.run_pure_eq_ok.1 h
            exact .inr (rebuild_eq_ok hlength hne hrebuilt)

end Aggregation.Expr
