import Aggregation.Proofs.Expr.Building
import Aggregation.Proofs.Record
import Aggregation.Query.Building

/-!
How an expression is built, by what it is: a constant, a field, an operation that is told by its name, or an object
that none of these is. What is proved of building goes by these cases and by what an operation is applied to.
-/

namespace Aggregation.Query

open Build (Minted run_bind_eq_ok run_pure_eq_ok run_throw_ne_ok)

/-- What an operation is, by its name. -/
inductive Head where
  | literal
  | key
  | document
  | unary (op : UnaryOp)
  | binary (op : BinaryOp)
  | accumulator (op : AccumulatorOp)
  | extension
  deriving DecidableEq

def Head.ofName (name : String) : Head :=
  if name = "literal" then .literal
  else if name = "key" then .key
  else if name = "document" then .document
  else
    match UnaryOp.ofName? name, BinaryOp.ofName? name, AccumulatorOp.ofName? name with
    | some op, _, _ => .unary op
    | none, some op, _ => .binary op
    | none, none, some op => .accumulator op
    | none, none, none => .extension

/-- What an operator of one operand is applied to. A list of one item stands for the item. -/
def operand : Json → Json
  | .array [item] => item
  | arg => arg

/-- What an operator of several operands is applied to. What is no list stands for itself. -/
def operands : Json → List Json
  | .array items => items
  | arg => [arg]

/-- What an operation builds, by what it is. -/
def applied (c : Surroundings) (name : String) (arg : Json) : Head → Build Expr
  | .literal => literal arg
  | .key => groupKey c
  | .document =>
    match arg with
    | .object ⟨members⟩ => do Build.document (← fields c members)
    | _ => throw (.query .documentArgument)
  | .unary op => do Build.unary op (← expression c (operand arg))
  | .binary op => do binary op (← expressions c (operands arg))
  | .accumulator op =>
    match c.group with
    | none => throw (.query (.accumulatorOutsideGroup op))
    | some (scope, _) => do
      let operand ← if op = .count then pure none else some <$> expression c arg
      c.resolver.tag (← Build.accumulator op operand) scope
  | .extension => do Build.extension name (← expressions c (operands arg))

variable {c : Surroundings} {s t : Supply} {e : Expr} {name : String} {arg j : Json}

theorem operand_eq_self (h : ∀ item, arg ≠ .array [item]) : operand arg = arg := by
  unfold operand
  split
  · exact absurd rfl (h _)
  · rfl

theorem item_or_operand_eq_self (arg : Json) :
    (∃ item, arg = .array [item]) ∨ (∀ item, arg ≠ .array [item]) ∧ operand arg = arg := by
  by_cases h : ∃ item, arg = .array [item]
  · exact .inl h
  · exact .inr ⟨not_exists.1 h, operand_eq_self (not_exists.1 h)⟩

theorem items_or_operands_eq_singleton (arg : Json) :
    (∃ items, arg = .array items) ∨ (∀ items, arg ≠ .array items) ∧ operands arg = [arg] := by
  cases arg with
  | array items => exact .inl ⟨items, rfl⟩
  | null | bool | number | string | object => exact .inr ⟨fun _ => Json.noConfusion, rfl⟩

theorem expressions_singleton (c : Surroundings) (j : Json) :
    expressions c [j] = List.singleton <$> expression c j := by
  rw [expressions, expressions]
  simp only [pure_bind, map_eq_pure_bind]
  rfl

theorem operation_eq_applied (c : Surroundings) (name : String) (arg : Json) :
    operation c [(name, arg)] = applied c name arg (Head.ofName name) := by
  unfold operation Head.ofName
  split_ifs
  · rfl
  · rfl
  · rfl
  cases UnaryOp.ofName? name with
  | some op =>
      simp only [applied]
      split
      · rfl
      · next h => rw [operand_eq_self h]
  | none =>
      cases BinaryOp.ofName? name with
      | some op => cases arg <;> simp only [applied, operands, expressions_singleton]
      | none =>
          cases AccumulatorOp.ofName? name with
          | some op => rfl
          | none => cases arg <;> simp only [applied, operands, expressions_singleton]

theorem sizeOf_operand_le (arg : Json) : sizeOf (operand arg) ≤ sizeOf arg := by
  rcases item_or_operand_eq_self arg with ⟨item, rfl⟩ | ⟨-, hself⟩
  · simp only [operand, Json.array.sizeOf_spec, List.cons.sizeOf_spec]
    omega
  · exact Nat.le_of_eq (congrArg sizeOf hself)

theorem sizeOf_le_of_mem_operands {i : Json} (h : i ∈ operands arg) : sizeOf i ≤ sizeOf arg := by
  rcases items_or_operands_eq_singleton arg with ⟨items, rfl⟩ | ⟨-, hself⟩
  · have := List.sizeOf_lt_of_mem (show i ∈ items from h)
    simp only [Json.array.sizeOf_spec]
    omega
  · rw [hself, List.mem_singleton] at h
    exact Nat.le_of_eq (congrArg sizeOf h)

theorem sizeOf_lt_of_mem {members : List (String × Json)} {m : String × Json} (h : m ∈ members) :
    sizeOf m.2 < sizeOf (Json.object ⟨members⟩) := by
  have hm := List.sizeOf_lt_of_mem h
  have hsnd : sizeOf m.2 < sizeOf m := by
    cases m
    simp only [Prod.mk.sizeOf_spec]
    omega
  simp only [Json.object.sizeOf_spec, Record.mk.sizeOf_spec]
  omega

/-- Induction along the building of an expression. -/
theorem expression_induction {P : Json → Prop} (plain : ∀ j, (∀ members, j ≠ .object members) → P j)
    (field : ∀ members path, members.lookup "field" = some path → P (.object ⟨members⟩))
    (count : ∀ members, members.lookup "field" = none → members.length ≠ 1 → P (.object ⟨members⟩))
    (operation : ∀ name arg, name ≠ "field" → P arg → P (operand arg) → (∀ i ∈ operands arg, P i) →
      (∀ members, arg = .object ⟨members⟩ → ∀ m ∈ members, P m.2) → P (.object ⟨[(name, arg)]⟩))
    (j : Json) : P j := by
  induction j using (measure (sizeOf : Json → Nat)).wf.induction with
  | _ j ih =>
  by_cases hobject : ∃ members, j = .object members
  · obtain ⟨⟨members⟩, rfl⟩ := hobject
    by_cases hfield : ∃ path, members.lookup "field" = some path
    · obtain ⟨path, hfield⟩ := hfield
      exact field members path hfield
    have hnone : members.lookup "field" = none := Option.eq_none_iff_forall_ne_some.2 fun path h => hfield ⟨path, h⟩
    by_cases hlength : members.length = 1
    · obtain ⟨⟨name, arg⟩, rfl⟩ := List.length_eq_one_iff.1 hlength
      have harg := sizeOf_lt_of_mem (m := (name, arg)) (List.mem_singleton.2 rfl)
      apply operation name arg
      · intro hname
        rw [hname] at hnone
        exact absurd hnone (by simp)
      · exact ih arg harg
      · exact ih _ (Nat.lt_of_le_of_lt (sizeOf_operand_le arg) harg)
      · exact fun i hi => ih i (Nat.lt_of_le_of_lt (sizeOf_le_of_mem_operands hi) harg)
      · rintro members rfl m hm
        exact ih m.2 (Nat.lt_trans (sizeOf_lt_of_mem hm) harg)
    · exact count members hnone hlength
  · exact plain j fun members hj => hobject ⟨members, hj⟩

theorem lookup_singleton (h : name ≠ "field") : [(name, arg)].lookup "field" = none := by
  rw [Record.lookup_cons, if_neg h.symm]
  rfl

theorem expression_field {members : List (String × Json)} {path : Json} (h : members.lookup "field" = some path) :
    expression c (.object ⟨members⟩) = field path (members.lookup "type") := by
  rw [expression, h]

theorem expression_operation {members : List (String × Json)} (h : members.lookup "field" = none) :
    expression c (.object ⟨members⟩) = operation c members := by
  rw [expression, h]

theorem expression_applied (h : name ≠ "field") :
    expression c (.object ⟨[(name, arg)]⟩) = applied c name arg (Head.ofName name) := by
  rw [expression_operation (lookup_singleton h), operation_eq_applied]

theorem expression_plain (h : ∀ members, j ≠ .object members) : expression c j = literal j := by
  cases j with
  | object members => exact absurd rfl (h members)
  | null | bool | number | string | array => rw [expression]; exact fun _ => Json.noConfusion

theorem operation_count {members : List (String × Json)} (h : members.length ≠ 1) :
    operation c members = throw (.query (.keyCount members.length)) := by
  match members with
  | [] | _ :: _ :: _ => rfl
  | [_] => exact absurd rfl h

/-- What holds of expressions that have been built one after the other. -/
theorem expressions_induction {P : List Json → Supply → List Expr → Supply → Prop} (hnil : ∀ s, P [] s [] s)
    (hcons : ∀ {j e rest es s s' t}, (expression c j).run s = .ok (e, s') → P rest s' es t → P (j :: rest) s (e :: es) t)
    {items : List Json} {es : List Expr} (hrun : (expressions c items).run s = .ok (es, t)) : P items s es t := by
  induction items generalizing s es with
  | nil =>
      obtain ⟨rfl, rfl⟩ := run_pure_eq_ok.1 hrun
      exact hnil _
  | cons j rest ih =>
      obtain ⟨e, s', he, hrun⟩ := run_bind_eq_ok.1 hrun
      obtain ⟨es', t', hes, hrun⟩ := run_bind_eq_ok.1 hrun
      obtain ⟨rfl, rfl⟩ := run_pure_eq_ok.1 hrun
      exact hcons he (ih hes)

theorem fields_induction {P : List (String × Json) → Supply → List (String × Expr) → Supply → Prop}
    (hnil : ∀ s, P [] s [] s)
    (hcons : ∀ {m e rest fs s s' t}, (expression c m.2).run s = .ok (e, s') → P rest s' fs t →
      P (m :: rest) s ((m.1, e) :: fs) t)
    {members : List (String × Json)} {fs : List (String × Expr)} (hrun : (fields c members).run s = .ok (fs, t)) :
    P members s fs t := by
  induction members generalizing s fs with
  | nil =>
      obtain ⟨rfl, rfl⟩ := run_pure_eq_ok.1 hrun
      exact hnil _
  | cons m rest ih =>
      obtain ⟨e, s', he, hrun⟩ := run_bind_eq_ok.1 hrun
      obtain ⟨fs', t', hfs, hrun⟩ := run_bind_eq_ok.1 hrun
      obtain ⟨rfl, rfl⟩ := run_pure_eq_ok.1 hrun
      exact hcons he (ih hfs)

theorem tag_eq_ok {r : Resolver} {scope : Scope} {inner : Expr} (h : (r.tag inner scope).run s = .ok (e, t)) :
    ∃ i, e = .correlated i scope inner ∧ Minted s t i := by
  unfold Resolver.tag at h
  split at h
  · exact absurd h run_throw_ne_ok
  · exact Build.correlated_eq_ok h

/-- What an operation has built that is an accumulator: what it is applied to, the accumulator over it and the tie of
that to the grouping around it. A count is applied to nothing. -/
theorem accumulator_eq_ok {op : AccumulatorOp} (h : (applied c name arg (.accumulator op)).run s = .ok (e, t)) :
    ∃ scope type i k s' t', c.group = some (scope, type) ∧ Minted s' t' k ∧ Minted t' t i ∧
      (op = .count ∧ s' = s ∧ e = .correlated i scope (.accumulator k .count none) ∨
        op ≠ .count ∧ ∃ x, (expression c arg).run s = .ok (x, s') ∧
          e = .correlated i scope (.accumulator k op (some x))) := by
  simp only [applied] at h
  cases hgroup : c.group with
  | none =>
      rw [hgroup] at h
      exact absurd h run_throw_ne_ok
  | some group =>
      obtain ⟨scope, type⟩ := group
      rw [hgroup] at h
      by_cases hcount : op = .count
      · subst hcount
        obtain ⟨_, _, hpure, hrest⟩ := run_bind_eq_ok.1 h
        obtain ⟨rfl, rfl⟩ := run_pure_eq_ok.1 hpure
        obtain ⟨inner, t', hinner, htag⟩ := run_bind_eq_ok.1 hrest
        obtain ⟨k, rfl, hk⟩ := Build.count_eq_ok hinner
        obtain ⟨i, rfl, hi⟩ := tag_eq_ok htag
        exact ⟨scope, type, i, k, _, t', rfl, hk, hi, .inl ⟨rfl, rfl, rfl⟩⟩
      · simp only [if_neg hcount] at h
        obtain ⟨_, s', hoperand, hrest⟩ := run_bind_eq_ok.1 h
        rw [map_eq_pure_bind] at hoperand
        obtain ⟨x, _, hx, hpure⟩ := run_bind_eq_ok.1 hoperand
        obtain ⟨rfl, rfl⟩ := run_pure_eq_ok.1 hpure
        obtain ⟨inner, t', hinner, htag⟩ := run_bind_eq_ok.1 hrest
        obtain ⟨-, k, rfl, hk⟩ := Build.accumulator_eq_ok hinner
        obtain ⟨i, rfl, hi⟩ := tag_eq_ok htag
        exact ⟨scope, type, i, k, s', t', rfl, hk, hi, .inr ⟨hcount, x, hx, rfl⟩⟩

end Aggregation.Query
