import Aggregation.Proofs.Query.Heeded

/-!
The documented forms of expressions. What is heeded of an expression that is built has one of these forms, down to its
constants, and so the expression has one exactly if all of it is heeded. An object that is neither a field nor has
exactly one member is refused.
-/

namespace Aggregation.Query

open Build (run_bind_eq_ok run_pure_eq_ok run_throw_ne_ok)

/-- The names of members that do not make an extension. -/
def reserved : List String :=
  ["field", "literal", "key", "document"] ++ UnaryOp.all.map UnaryOp.name ++ BinaryOp.all.map BinaryOp.name
    ++ AccumulatorOp.all.map AccumulatorOp.name

/-- Operands are joined from the left. -/
inductive Joined (op : BinaryOp) : Expr → List Expr → Expr → Prop
  | nil (e : Expr) : Joined op e [] e
  | cons (i : NodeInfo) {first second e : Expr} {rest : List Expr}
      (h : Joined op (.binary i op first second) rest e) : Joined op first (second :: rest) e

mutual

/-- JSON spells a node in one of the documented forms, every part of it a part of the node. -/
inductive Spells (c : Surroundings) : Json → Expr → Prop
  /-- `null`, a truth value, a number, a text or a list. -/
  | constant (i : NodeInfo) {j : Json} {v : Value} (hplain : ∀ members, j ≠ .object members)
      (hvalue : ExtendedJson.toValue j = .ok v) : Spells c j (.constant i v)
  | literal (i : NodeInfo) {arg : Json} {v : Value} (hvalue : ExtendedJson.toValue arg = .ok v) :
      Spells c (.ofMembers [("literal", arg)]) (.constant i v)
  /-- The only name is `field`; nothing is known about the type. -/
  | field (i : NodeInfo) {members : List (String × Json)} {path : String} (honly : ∀ m ∈ members, m.1 = "field")
      (hpath : members.lookup "field" = some (.string path)) (htype : i.type = .any) :
      Spells c (.ofMembers members) (.field i path)
  /-- The only names are `field` and `type`. -/
  | typedField (i : NodeInfo) {members : List (String × Json)} {path name : String}
      (honly : ∀ m ∈ members, m.1 = "field" ∨ m.1 = "type") (hpath : members.lookup "field" = some (.string path))
      (hname : members.lookup "type" = some (.string name)) (htype : ResultType.ofName? name = some i.type) :
      Spells c (.ofMembers members) (.field i path)
  | key (i : NodeInfo) {scope : Scope} (hgroup : c.group = some (scope, i.type)) :
      Spells c (.ofMembers [("key", .ofMembers [])]) (.field i "_id")
  | document (i : NodeInfo) {members : List (String × Json)} {fs : List (String × Expr)}
      (hfields : SpellsFields c members fs) :
      Spells c (.ofMembers [("document", .ofMembers members)]) (.document i fs)
  | unary (i : NodeInfo) (op : UnaryOp) {arg : Json} {e : Expr} (hoperand : Spells c (operand arg) e) :
      Spells c (.ofMembers [(op.name, arg)]) (.unary i op e)
  /-- Only connectives take more than two operands. -/
  | binary (op : BinaryOp) {arg : Json} {first second e : Expr} {rest : List Expr}
      (hoperands : SpellsItems c (operands arg) (first :: second :: rest))
      (hcount : rest = [] ∨ op.isConnective = true) (hjoined : Joined op first (second :: rest) e) :
      Spells c (.ofMembers [(op.name, arg)]) e
  | count (i k : NodeInfo) {scope : Scope} {type : ResultType} (hgroup : c.group = some (scope, type)) :
      Spells c (.ofMembers [("count", .ofMembers [])]) (.correlated i scope (.accumulator k .count none))
  | accumulator (i k : NodeInfo) {op : AccumulatorOp} (hop : op ≠ .count) {scope : Scope} {type : ResultType}
      (hgroup : c.group = some (scope, type)) {arg : Json} {e : Expr} (hoperand : Spells c arg e) :
      Spells c (.ofMembers [(op.name, arg)]) (.correlated i scope (.accumulator k op (some e)))
  | extension (i : NodeInfo) {name : String} (hname : name ∉ reserved) {arg : Json} {args : List Expr}
      (hoperands : SpellsItems c (operands arg) args) :
      Spells c (.ofMembers [(name, arg)]) (.extension i name args)

inductive SpellsItems (c : Surroundings) : List Json → List Expr → Prop
  | nil : SpellsItems c [] []
  | cons {j : Json} {e : Expr} {items : List Json} {es : List Expr} (hhead : Spells c j e)
      (htail : SpellsItems c items es) : SpellsItems c (j :: items) (e :: es)

inductive SpellsFields (c : Surroundings) : List (String × Json) → List (String × Expr) → Prop
  | nil : SpellsFields c [] []
  | cons (name : String) {j : Json} {e : Expr} {members : List (String × Json)} {fs : List (String × Expr)}
      (hhead : Spells c j e) (htail : SpellsFields c members fs) :
      SpellsFields c ((name, j) :: members) ((name, e) :: fs)

end

variable {c : Surroundings} {s t : Supply} {e : Expr} {name : String} {arg j : Json}

/-- The names of a head. -/
def Head.Named (name : String) : Head → Prop
  | .literal => name = "literal"
  | .key => name = "key"
  | .document => name = "document"
  | .unary op => name = op.name
  | .binary op => name = op.name
  | .accumulator op => name = op.name
  | .extension => name ≠ "field" → name ∉ reserved

theorem name_of_find? {α : Type} {all : List α} {spelling : α → String} {op : α}
    (h : all.find? (spelling · == name) = some op) : name = spelling op := by
  have hop := List.find?_some h
  exact (beq_iff_eq.1 hop).symm

theorem not_mem_of_find? {α : Type} {all : List α} {spelling : α → String}
    (h : all.find? (spelling · == name) = none) : name ∉ all.map spelling := by
  intro hmem
  obtain ⟨op, hop, hname⟩ := List.mem_map.1 hmem
  exact List.find?_eq_none.1 h op hop (beq_iff_eq.2 hname)

theorem Head.named_ofName (name : String) : (Head.ofName name).Named name := by
  unfold Head.ofName
  split_ifs with hliteral hkey hdocument
  · exact hliteral
  · exact hkey
  · exact hdocument
  split
  · next hfound => exact name_of_find? hfound
  · next hfound => exact name_of_find? hfound
  · next hfound => exact name_of_find? hfound
  · next hunary hbinary haccumulator =>
      intro hfield hmem
      simp only [reserved, List.mem_append, List.mem_cons, List.not_mem_nil, or_false] at hmem
      rcases hmem with (((h | h | h | h) | h) | h) | h
      · exact hfield h
      · exact hliteral h
      · exact hkey h
      · exact hdocument h
      · exact not_mem_of_find? hunary h
      · exact not_mem_of_find? hbinary h
      · exact not_mem_of_find? haccumulator h

theorem Head.ofName_eq_extension (h : name ∉ reserved) : Head.ofName name = .extension := by
  have hnamed := Head.named_ofName name
  simp only [reserved, List.mem_append, not_or] at h
  obtain ⟨⟨⟨hforms, hunary⟩, hbinary⟩, haccumulator⟩ := h
  cases hhead : Head.ofName name with
  | extension => rfl
  | literal | key | document =>
      rw [hhead] at hnamed
      exact absurd (by rw [hnamed]; decide) hforms
  | unary op =>
      rw [hhead] at hnamed
      exact absurd (hnamed ▸ List.mem_map_of_mem (by cases op <;> decide)) hunary
  | binary op =>
      rw [hhead] at hnamed
      exact absurd (hnamed ▸ List.mem_map_of_mem (by cases op <;> decide)) hbinary
  | accumulator op =>
      rw [hhead] at hnamed
      exact absurd (hnamed ▸ List.mem_map_of_mem (by cases op <;> decide)) haccumulator

theorem exists_of_run_field {path : String} {type : ResultType} (h : (Build.field path type).run s = .ok (e, t)) :
    ∃ i : NodeInfo, e = .field i path ∧ i.type = type := by
  obtain ⟨_, _, h⟩ := Build.run_check_eq_ok h
  obtain ⟨i, s', hi, h⟩ := run_bind_eq_ok.1 h
  obtain ⟨rfl, rfl⟩ := Build.run_mint_eq_ok.1 hi
  obtain ⟨rfl, rfl⟩ := run_pure_eq_ok.1 h
  exact ⟨_, rfl, rfl⟩

theorem spells_literal (h : (literal j).run s = .ok (e, t)) :
    ∃ i v, e = .constant i v ∧ ExtendedJson.toValue j = .ok v := by
  unfold literal at h
  split at h
  · next v hv =>
      obtain ⟨i, rfl, -⟩ := Build.constant_eq_ok h
      exact ⟨i, v, rfl, hv⟩
  · exact absurd h run_throw_ne_ok

theorem spells_field {members : List (String × Json)} {path : Json} (hpath : members.lookup "field" = some path)
    (h : (field path (members.lookup "type")).run s = .ok (e, t)) :
    Spells c (.ofMembers (members.filter isFieldPart)) e := by
  have honly (m : String × Json) (hm : m ∈ members.filter isFieldPart) : m.1 = "field" ∨ m.1 = "type" := by
    simpa [isFieldPart] using (List.mem_filter.1 hm).2
  cases path with
  | string path =>
      rw [← lookup_path] at hpath
      cases htype : members.lookup "type" with
      | none =>
          rw [htype] at h
          obtain ⟨i, rfl, hany⟩ := exists_of_run_field h
          refine .field i (fun m hm => (honly m hm).resolve_right fun hname => ?_) hpath hany
          rw [← lookup_type, List.lookup_eq_none_iff] at htype
          exact absurd hname.symm (by simpa using htype m hm)
      | some type =>
          rw [htype] at h
          cases type with
          | string name =>
              simp only [field] at h
              cases hname : ResultType.ofName? name with
              | none =>
                  rw [hname] at h
                  exact absurd h run_throw_ne_ok
              | some type =>
                  rw [hname] at h
                  obtain ⟨i, rfl, hi⟩ := exists_of_run_field h
                  rw [← hi] at hname
                  exact .typedField i honly hpath ((lookup_type members).trans htype) hname
          | null | bool | number | array | object => exact absurd h run_throw_ne_ok
  | null | bool | number | array | object => exact absurd h run_throw_ne_ok

theorem spells_key (h : (groupKey c).run s = .ok (e, t)) : Spells c (.ofMembers [("key", .ofMembers [])]) e := by
  unfold groupKey at h
  split at h
  · next scope type hgroup =>
      obtain ⟨i, rfl, hi⟩ := exists_of_run_field h
      exact .key i (hi ▸ hgroup)
  · exact absurd h run_throw_ne_ok

theorem joined_of_run {op : BinaryOp} {first : Expr} {rest : List Expr}
    (h : (rest.foldlM (Build.binary op) first).run s = .ok (e, t)) : Joined op first rest e := by
  induction rest generalizing first s with
  | nil =>
      obtain ⟨rfl, rfl⟩ := run_pure_eq_ok.1 h
      exact .nil e
  | cons second rest ih =>
      rw [List.foldlM_cons] at h
      obtain ⟨node, s', hnode, h⟩ := run_bind_eq_ok.1 h
      obtain ⟨i, rfl, -⟩ := Build.binary_eq_ok hnode
      exact .cons i (ih h)

theorem spells_binary {op : BinaryOp} {args : List Expr} (hargs : SpellsItems c (operands arg) args)
    (h : (binary op args).run s = .ok (e, t)) : Spells c (.ofMembers [(op.name, arg)]) e := by
  unfold binary at h
  split at h
  · next first second rest =>
      split at h
      · next hcount =>
          have hcount : rest = [] ∨ op.isConnective = true := by simpa using hcount
          exact .binary op hargs hcount (joined_of_run h)
      · exact absurd h run_throw_ne_ok
  · exact absurd h run_throw_ne_ok

/-- What is heeded of an expression spells the node that is built, if one is. -/
def SpellsBuilt (c : Surroundings) (j : Json) : Prop :=
  ∀ s t e, (expression c j).run s = .ok (e, t) → Spells c (heeded j) e

theorem spells_items {items : List Json} (h : ∀ i ∈ items, SpellsBuilt c i) {args : List Expr}
    (hrun : (expressions c items).run s = .ok (args, t)) : SpellsItems c (heededItems items) args := by
  refine expressions_induction
    (P := fun items _ args _ => (∀ i ∈ items, SpellsBuilt c i) → SpellsItems c (heededItems items) args)
    (fun _ _ => .nil) (fun he ih h => ?_) hrun h
  obtain ⟨hj, hrest⟩ := List.forall_mem_cons.1 h
  exact .cons (hj _ _ _ he) (ih hrest)

theorem spells_fields {members : List (String × Json)} (h : ∀ m ∈ members, SpellsBuilt c m.2)
    {fs : List (String × Expr)} (hrun : (fields c members).run s = .ok (fs, t)) :
    SpellsFields c (heededFields members) fs := by
  refine fields_induction
    (P := fun members _ fs _ => (∀ m ∈ members, SpellsBuilt c m.2) → SpellsFields c (heededFields members) fs)
    (fun _ _ => .nil) (fun he ih h => ?_) hrun h
  obtain ⟨hm, hrest⟩ := List.forall_mem_cons.1 h
  exact .cons _ (hm _ _ _ he) (ih hrest)

theorem spells_accumulator {op : AccumulatorOp} (harg : SpellsBuilt c arg)
    (h : (applied c name arg (.accumulator op)).run s = .ok (e, t)) :
    Spells c (.ofMembers [(op.name, heededArgument (.accumulator op) arg)]) e := by
  obtain ⟨scope, type, i, k, s', t', hgroup, -, -, hbuilt⟩ := accumulator_eq_ok h
  rcases hbuilt with ⟨rfl, -, rfl⟩ | ⟨hop, x, hx, rfl⟩
  · exact .count i k hgroup
  · rw [heededArgument_accumulator hop]
    exact .accumulator i k hop hgroup (harg _ _ _ hx)

/-- What is heeded of an operation spells the node that is built, if what it is applied to does. -/
theorem spells_applied {head : Head} (hnamed : head.Named name) (hname : name ≠ "field") (harg : SpellsBuilt c arg)
    (hoperand : SpellsBuilt c (operand arg)) (hoperands : ∀ i ∈ operands arg, SpellsBuilt c i)
    (hmembers : ∀ members, arg = .object ⟨members⟩ → ∀ m ∈ members, SpellsBuilt c m.2)
    (h : (applied c name arg head).run s = .ok (e, t)) :
    Spells c (.ofMembers [(name, heededArgument head arg)]) e := by
  cases head with
  | literal =>
      obtain rfl := hnamed
      obtain ⟨i, v, rfl, hv⟩ := spells_literal h
      exact .literal i hv
  | key =>
      obtain rfl := hnamed
      exact spells_key h
  | document =>
      obtain rfl := hnamed
      cases arg with
      | object members =>
          obtain ⟨fs, _, hfs, h⟩ := run_bind_eq_ok.1 h
          obtain ⟨-, -, i, rfl, -⟩ := Build.document_eq_ok h
          exact .document i (spells_fields (hmembers members.entries rfl) hfs)
      | null | bool | number | string | array => exact absurd h run_throw_ne_ok
  | unary op =>
      obtain rfl := hnamed
      obtain ⟨x, _, hx, h⟩ := run_bind_eq_ok.1 h
      obtain ⟨i, rfl, -⟩ := Build.unary_eq_ok h
      apply Spells.unary i op
      rw [operand_heeded]
      exact hoperand _ _ _ hx
  | binary op =>
      obtain rfl := hnamed
      obtain ⟨args, _, hargs, h⟩ := run_bind_eq_ok.1 h
      apply spells_binary _ h
      rw [operands_heeded (.inr ⟨op, rfl⟩)]
      exact spells_items hoperands hargs
  | accumulator op =>
      obtain rfl := hnamed
      exact spells_accumulator harg h
  | extension =>
      obtain ⟨args, _, hargs, h⟩ := run_bind_eq_ok.1 h
      obtain ⟨i, rfl, -⟩ := Build.extension_eq_ok h
      apply Spells.extension i (hnamed hname)
      rw [operands_heeded (.inl rfl)]
      exact spells_items hoperands hargs

/-- Whatever is built, what is heeded is a documented form of it. -/
theorem spells_heeded (c : Surroundings) (j : Json) : SpellsBuilt c j := by
  intro s t e h
  induction j using expression_induction generalizing s t e with
  | plain j hplain =>
      rw [heeded_plain hplain]
      rw [expression_plain hplain] at h
      obtain ⟨i, v, rfl, hv⟩ := spells_literal h
      exact .constant i hplain hv
  | field members path hpath =>
      rw [heeded_field hpath]
      rw [expression_field hpath] at h
      exact spells_field hpath h
  | count members hfield hcount =>
      rw [expression_operation hfield, operation_count hcount] at h
      exact absurd h run_throw_ne_ok
  | operation name arg hname harg hoperand hoperands hmembers =>
      rw [heeded_applied hname]
      rw [expression_applied hname] at h
      exact spells_applied (Head.named_ofName name) hname harg hoperand hoperands hmembers h

theorem heeded_of_operation {head : Head} (hhead : Head.ofName name = head) (hname : name ≠ "field")
    (harg : heededArgument head arg = arg) : heeded (.ofMembers [(name, arg)]) = .ofMembers [(name, arg)] := by
  rw [Json.ofMembers, heeded_applied hname, hhead, harg]
  rfl

theorem heeded_of_unary (op : UnaryOp) (harg : heededArgument (.unary op) arg = arg) :
    heeded (.ofMembers [(op.name, arg)]) = .ofMembers [(op.name, arg)] :=
  heeded_of_operation (by cases op <;> decide) (by cases op <;> decide) harg

theorem heeded_of_binary (op : BinaryOp) (harg : heededArgument (.binary op) arg = arg) :
    heeded (.ofMembers [(op.name, arg)]) = .ofMembers [(op.name, arg)] :=
  heeded_of_operation (by cases op <;> decide) (by cases op <;> decide) harg

theorem heeded_of_accumulator {op : AccumulatorOp} (hop : op ≠ .count) (harg : heeded arg = arg) :
    heeded (.ofMembers [(op.name, arg)]) = .ofMembers [(op.name, arg)] :=
  heeded_of_operation (by cases op <;> decide) (by cases op <;> decide) ((heededArgument_accumulator hop).trans harg)

theorem heededArgument_of_operand (op : UnaryOp) (h : heeded (operand arg) = operand arg) :
    heededArgument (.unary op) arg = arg := by
  rcases item_or_operand_eq_self arg with ⟨item, rfl⟩ | ⟨hitem, hself⟩
  · exact congrArg (fun j => Json.array [j]) h
  · rw [hself] at h
    rwa [heededArgument]
    exact hitem

theorem heededArgument_of_operands {head : Head} (hhead : head = .extension ∨ ∃ op, head = .binary op)
    (h : heededItems (operands arg) = operands arg) : heededArgument head arg = arg := by
  rcases items_or_operands_eq_singleton arg with ⟨items, rfl⟩ | ⟨hitems, hself⟩
  · have hwhole : Json.array (heededItems items) = .array items := congrArg Json.array h
    rcases hhead with rfl | ⟨op, rfl⟩ <;> exact hwhole
  · rw [hself] at h
    exact (heededArgument_of_ne_array hhead hitems).trans (List.head_eq_of_cons_eq h)

mutual

/-- In a documented form nothing is passed over. -/
theorem heeded_of_spells : ∀ {j : Json} {e : Expr}, Spells c j e → heeded j = j
  | _, _, .constant _ hplain _ => heeded_plain hplain
  | _, _, .literal _ _ => heeded_of_operation rfl (by decide) rfl
  | _, _, .field _ honly hpath _ => by
      rw [Json.ofMembers, heeded_field hpath]
      rw [List.filter_eq_self.2 fun m hm => by rw [isFieldPart, honly m hm]; rfl]
      rfl
  | _, _, .typedField _ honly hpath _ _ => by
      rw [Json.ofMembers, heeded_field hpath]
      rw [List.filter_eq_self.2 fun m hm => by simpa [isFieldPart] using honly m hm]
      rfl
  | _, _, .key _ _ => heeded_of_operation rfl (by decide) rfl
  | _, _, .document _ hfields =>
      heeded_of_operation rfl (by decide) (congrArg Json.ofMembers (heededFields_of_spells hfields))
  | _, _, .unary _ op hoperand => heeded_of_unary op (heededArgument_of_operand op (heeded_of_spells hoperand))
  | _, _, .binary op hoperands _ _ =>
      heeded_of_binary op (heededArgument_of_operands (.inr ⟨op, rfl⟩) (heededItems_of_spells hoperands))
  | _, _, .count _ _ _ => heeded_of_operation rfl (by decide) rfl
  | _, _, .accumulator _ _ hop _ hoperand => heeded_of_accumulator hop (heeded_of_spells hoperand)
  | _, _, .extension _ hname hoperands =>
      heeded_of_operation (Head.ofName_eq_extension hname) (fun h => hname (h ▸ List.mem_cons_self))
        (heededArgument_of_operands (.inl rfl) (heededItems_of_spells hoperands))

theorem heededItems_of_spells : ∀ {items : List Json} {es : List Expr},
    SpellsItems c items es → heededItems items = items
  | _, _, .nil => rfl
  | _, _, .cons hhead htail => by rw [heededItems, heeded_of_spells hhead, heededItems_of_spells htail]

theorem heededFields_of_spells : ∀ {members : List (String × Json)} {fs : List (String × Expr)},
    SpellsFields c members fs → heededFields members = members
  | _, _, .nil => rfl
  | _, _, .cons name hhead htail => by rw [heededFields, heeded_of_spells hhead, heededFields_of_spells htail]

end

/-- Building passes over exactly what is left out of `heeded`: it does the same without it, what is left of an
expression that is built spells the node in one of the documented forms, and an expression that is built has one of
them itself exactly if nothing of it is left out. An object that is no field and has not exactly one member is
refused. -/
theorem expression_spelled (c : Surroundings) (j : Json) :
    expression c (heeded j) = expression c j ∧
    (∀ s t e, (expression c j).run s = .ok (e, t) → Spells c (heeded j) e ∧ (Spells c j e ↔ heeded j = j)) ∧
    ∀ members, j = .object ⟨members⟩ → members.lookup "field" = none → members.length ≠ 1 →
      ∀ s, (expression c j).run s = .error (.query (.keyCount members.length)) := by
  refine ⟨expression_heeded c j, fun s t e h => ?_, ?_⟩
  · have hspells := spells_heeded c j s t e h
    refine ⟨hspells, heeded_of_spells, fun hwhole => ?_⟩
    rwa [hwhole] at hspells
  · rintro members rfl hfield hcount s
    rw [expression_operation hfield, operation_count hcount]
    rfl

/-- The surroundings of what a grouping by a text selects. -/
def byText : Surroundings := ⟨⟨[⟨1⟩]⟩, some (⟨1⟩, .string)⟩

/-- Whether a group has more than one row and another key than the name in it. -/
def manyOthers : Json :=
  .ofMembers [("and", .array [
    .ofMembers [("gt", .array [.ofMembers [("count", .ofMembers [])], .int 1])],
    .ofMembers [("not", .array [.ofMembers [("eq", .array [.ofMembers [("key", .ofMembers [])],
      .ofMembers [("type", .string "string"), ("field", .string "name")]])]])]])]

/-- An expression of documented forms throughout, and an object of two members. -/
theorem expression_spelled_manyOthers :
    (∃ e t, (expression byText manyOthers).run {} = .ok (e, t) ∧ heeded manyOthers = manyOthers ∧
      Spells byText manyOthers e) ∧
    (expression byText (.ofMembers [("gt", .int 1), ("lt", .int 5)])).run {} = .error (.query (.keyCount 2)) := by
  constructor
  · have hwhole : heeded manyOthers = manyOthers := rfl
    obtain ⟨e, t, hrun⟩ : ∃ e t, (expression byText manyOthers).run {} = .ok (e, t) := ⟨_, _, rfl⟩
    obtain ⟨-, hiff⟩ := (expression_spelled byText manyOthers).2.1 _ _ _ hrun
    exact ⟨e, t, hrun, hwhole, hiff.2 hwhole⟩
  · exact (expression_spelled byText _).2.2 _ rfl (by decide) (by decide) {}

/-- A quantity whose type has a mistyped name. -/
def mistyped : Json := .ofMembers [("field", .string "qty"), ("typ", .string "int32")]

/-- A type under a mistyped name, and operands of the key of a group and of a count, are passed over. -/
theorem expression_spelled_passedOver_ne :
    (∃ e t, (expression byText mistyped).run {} = .ok (e, t) ∧ e = .field ⟨0, .any⟩ "qty" ∧
      ¬ Spells byText mistyped e) ∧
    (∃ e t, (expression byText (.ofMembers [("key", mistyped)])).run {} = .ok (e, t) ∧
      e = .field ⟨0, .string⟩ "_id" ∧ ¬ Spells byText (.ofMembers [("key", mistyped)]) e) ∧
    ∃ e t, (expression byText (.ofMembers [("count", mistyped)])).run {} = .ok (e, t) ∧
      e = .correlated ⟨1, .int64⟩ ⟨1⟩ (.accumulator ⟨0, .int64⟩ .count none) ∧
      ¬ Spells byText (.ofMembers [("count", mistyped)]) e := by
  refine ⟨⟨_, _, rfl, rfl, fun h => ?_⟩, ⟨_, _, rfl, rfl, fun h => ?_⟩, ⟨_, _, rfl, rfl, fun h => ?_⟩⟩
  · cases heeded_of_spells h
  · cases heeded_of_spells h
  · cases heeded_of_spells h

end Aggregation.Query
