import Aggregation.Proofs.Query.Operations

/-!
What building an expression passes over: what stands beside the path and the type of a field, and what the key of a
group and a count are applied to. Building does the same without it.
-/

namespace Aggregation.Query

/-- Whether a member says something about a field: its path or its type. -/
def isFieldPart (m : String × Json) : Bool := m.1 == "field" || m.1 == "type"

mutual

/-- An expression without what building passes over: what stands beside the path and the type of a field, and what
the key of a group and a count are applied to. -/
def heeded : Json → Json
  | .object ⟨members⟩ =>
    match members.lookup "field" with
    | some _ => .ofMembers (members.filter isFieldPart)
    | none => .ofMembers (heededOperation members)
  | j => j

def heededOperation : List (String × Json) → List (String × Json)
  | [(name, arg)] =>
    match Head.ofName name with
    | .literal => [(name, arg)]
    | .key | .accumulator .count => [(name, .ofMembers [])]
    | .document =>
      match arg with
      | .object ⟨members⟩ => [(name, .ofMembers (heededFields members))]
      | arg => [(name, arg)]
    | .unary _ =>
      match arg with
      | .array [item] => [(name, .array [heeded item])]
      | arg => [(name, heeded arg)]
    | .accumulator _ => [(name, heeded arg)]
    | .binary _ | .extension =>
      match arg with
      | .array items => [(name, .array (heededItems items))]
      | arg => [(name, heeded arg)]
  | members => members

def heededItems : List Json → List Json
  | [] => []
  | j :: rest => heeded j :: heededItems rest

def heededFields : List (String × Json) → List (String × Json)
  | [] => []
  | (name, j) :: rest => (name, heeded j) :: heededFields rest

end

variable {c : Surroundings} {s t : Supply} {e : Expr} {name : String} {arg j : Json}

/-- What is left of what an operation is applied to. -/
def heededArgument : Head → Json → Json
  | .literal, arg => arg
  | .key, _ | .accumulator .count, _ => .ofMembers []
  | .document, .object ⟨members⟩ => .ofMembers (heededFields members)
  | .document, arg => arg
  | .unary _, .array [item] => .array [heeded item]
  | .unary _, arg | .accumulator _, arg => heeded arg
  | .binary _, .array items | .extension, .array items => .array (heededItems items)
  | .binary _, arg | .extension, arg => heeded arg

theorem heededOperation_eq (name : String) (arg : Json) :
    heededOperation [(name, arg)] = [(name, heededArgument (Head.ofName name) arg)] := by
  unfold heededOperation
  cases Head.ofName name with
  | literal | key => rfl
  | accumulator op => cases op <;> rfl
  | unary op =>
      simp only
      split
      · rfl
      · next h => rw [heededArgument]; exact h
  | document | binary op | extension => cases arg <;> rfl

theorem heeded_plain (h : ∀ members, j ≠ .object members) : heeded j = j := by
  unfold heeded
  split
  · exact absurd rfl (h _)
  · rfl

theorem heeded_ne_array (h : ∀ items, j ≠ .array items) (items : List Json) : heeded j ≠ .array items := by
  by_cases hobject : ∃ members, j = .object members
  · obtain ⟨members, rfl⟩ := hobject
    unfold heeded
    split <;> exact Json.noConfusion
  · rw [heeded_plain fun members hj => hobject ⟨members, hj⟩]
    exact h items

/-- An operand is heeded as an expression of its own. -/
theorem operand_heeded (op : UnaryOp) (arg : Json) :
    operand (heededArgument (.unary op) arg) = heeded (operand arg) := by
  rcases item_or_operand_eq_self arg with ⟨item, rfl⟩ | ⟨hitem, hself⟩
  · rfl
  have hargument : heededArgument (.unary op) arg = heeded arg := by
    rw [heededArgument]
    exact hitem
  rw [hself, hargument]
  apply operand_eq_self
  rcases items_or_operands_eq_singleton arg with ⟨items, rfl⟩ | ⟨hitems, -⟩
  · rwa [heeded_plain fun _ => Json.noConfusion]
  · exact fun item => heeded_ne_array hitems [item]

theorem heededArgument_of_ne_array {head : Head} (hhead : head = .extension ∨ ∃ op, head = .binary op)
    (h : ∀ items, arg ≠ .array items) : heededArgument head arg = heeded arg := by
  rcases hhead with rfl | ⟨op, rfl⟩ <;> cases arg <;> first | rfl | exact absurd rfl (h _)

theorem operands_heeded {head : Head} (hhead : head = .extension ∨ ∃ op, head = .binary op) (arg : Json) :
    operands (heededArgument head arg) = heededItems (operands arg) := by
  rcases items_or_operands_eq_singleton arg with ⟨items, rfl⟩ | ⟨hitems, hself⟩
  · rcases hhead with rfl | ⟨op, rfl⟩ <;> rfl
  rw [heededArgument_of_ne_array hhead hitems, hself]
  rcases items_or_operands_eq_singleton (heeded arg) with ⟨items, harray⟩ | ⟨-, hself⟩
  · exact absurd harray (heeded_ne_array hitems items)
  · exact hself

theorem heededArgument_accumulator {op : AccumulatorOp} (h : op ≠ .count) :
    heededArgument (.accumulator op) arg = heeded arg := by
  cases op <;> first | rfl | exact absurd rfl h

theorem lookup_filter {p : String × Json → Bool} (hp : ∀ m : String × Json, m.1 = name → p m = true)
    (members : List (String × Json)) : (members.filter p).lookup name = members.lookup name := by
  induction members with
  | nil => rfl
  | cons m rest ih =>
      by_cases hm : p m = true
      · rw [List.filter_cons_of_pos hm, Record.lookup_cons, Record.lookup_cons, ih]
      · have hne : name ≠ m.1 := fun h => hm (hp m h.symm)
        rw [List.filter_cons_of_neg hm, Record.lookup_cons, ih, if_neg hne]

theorem lookup_path (members : List (String × Json)) :
    (members.filter isFieldPart).lookup "field" = members.lookup "field" :=
  lookup_filter (fun m hm => by rw [isFieldPart, hm]; rfl) members

theorem lookup_type (members : List (String × Json)) :
    (members.filter isFieldPart).lookup "type" = members.lookup "type" :=
  lookup_filter (fun m hm => by rw [isFieldPart, hm]; rfl) members

theorem heeded_field {members : List (String × Json)} {path : Json} (h : members.lookup "field" = some path) :
    heeded (.object ⟨members⟩) = .ofMembers (members.filter isFieldPart) := by
  rw [heeded, h]

theorem heeded_count {members : List (String × Json)} (hfield : members.lookup "field" = none)
    (h : members.length ≠ 1) : heeded (.object ⟨members⟩) = .object ⟨members⟩ := by
  rw [heeded, hfield]
  match members with
  | [] | _ :: _ :: _ => rfl
  | [_] => exact absurd rfl h

theorem heeded_applied (h : name ≠ "field") :
    heeded (.object ⟨[(name, arg)]⟩) = .ofMembers [(name, heededArgument (Head.ofName name) arg)] := by
  rw [heeded, lookup_singleton h, heededOperation_eq]

theorem expressions_heeded {items : List Json} (h : ∀ i ∈ items, expression c (heeded i) = expression c i) :
    expressions c (heededItems items) = expressions c items := by
  induction items with
  | nil => rfl
  | cons j rest ih =>
      obtain ⟨hj, hrest⟩ := List.forall_mem_cons.1 h
      rw [heededItems, expressions, expressions, hj, ih hrest]

theorem fields_heeded {members : List (String × Json)}
    (h : ∀ m ∈ members, expression c (heeded m.2) = expression c m.2) :
    fields c (heededFields members) = fields c members := by
  induction members with
  | nil => rfl
  | cons m rest ih =>
      obtain ⟨hm, hrest⟩ := List.forall_mem_cons.1 h
      obtain ⟨name, j⟩ := m
      rw [heededFields, fields, fields, hm, ih hrest]

/-- What is left out does not matter to building. -/
theorem expression_heeded (c : Surroundings) (j : Json) : expression c (heeded j) = expression c j := by
  induction j using expression_induction with
  | plain j h => rw [heeded_plain h]
  | field members path h =>
      rw [heeded_field h, expression_field h, Json.ofMembers, expression_field, lookup_type]
      rw [lookup_path, h]
  | count members hfield h => rw [heeded_count hfield h]
  | operation name arg hname harg hoperand hoperands hmembers =>
      rw [heeded_applied hname, Json.ofMembers, expression_applied hname, expression_applied hname]
      cases Head.ofName name with
      | literal | key => rfl
      | document =>
          cases arg with
          | object members => 
              simp only [applied, heededArgument, Json.ofMembers]
              rw [fields_heeded (hmembers members.entries rfl)]
          | null | bool | number | string | array => rfl
      | unary op => rw [applied, applied, operand_heeded, hoperand]
      | binary op => rw [applied, applied, operands_heeded (.inr ⟨op, rfl⟩), expressions_heeded hoperands]
      | extension => rw [applied, applied, operands_heeded (.inl rfl), expressions_heeded hoperands]
      | accumulator op =>
          by_cases hcount : op = .count
          · subst hcount
            rfl
          · rw [heededArgument_accumulator hcount, applied, applied, harg]

end Aggregation.Query
