import Aggregation.Proofs.Meaning.Stages

/-!
Where a projection reads flags. A value of a projection that has none in these places is read as an expression.
-/

namespace Aggregation.Reading

mutual

/-- The values that stand where a projection reads a flag: a value that is no document does, and so do the values of
the fields of a document that is no operator. -/
def flagPlaces : Value → List Value
  | .document ⟨fields⟩ =>
    match fields with
    | [(key, argument)] => if isOperator key then [] else flagPlacesFields [(key, argument)]
    | fields => flagPlacesFields fields
  | v => [v]

def flagPlacesFields : List (String × Value) → List Value
  | [] => []
  | (_, v) :: rest => flagPlaces v ++ flagPlacesFields rest

end

variable {fields : List (String × Value)} {v w : Value} {row : Document}

theorem mem_flagPlacesFields : w ∈ flagPlacesFields fields ↔ ∃ f ∈ fields, w ∈ flagPlaces f.2 := by
  induction fields with
  | nil => simp [flagPlacesFields]
  | cons f rest ih => simp [flagPlacesFields, ih]

theorem flagPlaces_operator {key : String} (argument : Value) (h : isOperator key = true) :
    flagPlaces (.document (.single key argument)) = [] := by
  show flagPlaces (.document ⟨[(key, argument)]⟩) = []
  unfold flagPlaces
  exact if_pos h

theorem flagPlaces_document (h : ∀ f ∈ fields, isOperator f.1 = false) :
    flagPlaces (.document ⟨fields⟩) = flagPlacesFields fields := by
  rcases fields with _ | ⟨⟨key, v⟩, _ | ⟨g, rest⟩⟩
  · rfl
  · have hkey : isOperator key = false := h (key, v) List.mem_cons_self
    unfold flagPlaces
    exact if_neg (Bool.eq_false_iff.1 hkey)
  · rfl

/-- A document is no flag, and any other value stands where a flag is read. -/
theorem flag?_eq_none (h : ∀ w ∈ flagPlaces v, flag? w = none) : flag? v = none := by
  cases v with
  | document fields => rfl
  | double | string | array | binary | undefined | objectId | boolean | dateTime | null | regularExpression | dbPointer
  | javaScript | symbol | scopedCode | int32 | timestamp | int64 | decimal128 | minKey | maxKey =>
      exact h _ (List.mem_singleton_self _)

variable (I : Interpretation)

mutual

/-- Where there are no flags, a projection reads a value as an expression. -/
theorem projected_eq_expression :
    ∀ (v : Value) (path : String), (∀ w ∈ flagPlaces v, flag? w = none) → projected I row path v = expression I row v
  | .document ⟨fields⟩, path, h => by
      have hfields := projectedFields_eq_entries fields path
      rcases fields with _ | ⟨⟨key, argument⟩, _ | ⟨g, rest⟩⟩
      · rfl
      · show projected I row path _ = computed I row [(key, argument)]
        cases hkey : isOperator key with
        | true =>
            unfold projected
            exact if_pos hkey
        | false =>
            have hfield : ∀ f ∈ [(key, argument)], isOperator f.1 = false := List.forall_mem_singleton.2 hkey
            rw [flagPlaces_document hfield] at h
            have hprojected : projected I row path (.document ⟨[(key, argument)]⟩)
                = .document ⟨projectedFields I row path [(key, argument)]⟩ := by
              unfold projected
              exact if_neg (Bool.eq_false_iff.1 hkey)
            have hliteral : key ≠ "$literal" := fun heq => by rw [heq] at hkey; cases hkey
            rw [hprojected, hfields h]
            unfold computed
            rw [if_neg fun hl => hliteral hl.2, if_neg fun ho => Bool.eq_false_iff.1 hkey ho.2]
            rfl
      · exact congrArg (fun fields => Value.document ⟨fields⟩) (hfields h)
  | .array _, path, h | .string _, path, h | .binary _ _, path, h | .undefined, path, h | .objectId _, path, h
  | .dateTime _, path, h | .null, path, h | .regularExpression _ _, path, h | .dbPointer _ _, path, h
  | .javaScript _, path, h | .symbol _, path, h | .scopedCode _ _, path, h | .timestamp _ _, path, h
  | .minKey, path, h | .maxKey, path, h => rfl
  | .double _, path, h | .boolean _, path, h | .int32 _, path, h | .int64 _, path, h | .decimal128 _, path, h => by
      cases flag?_eq_none h

theorem projectedFields_eq_entries :
    ∀ (fields : List (String × Value)) (path : String), (∀ w ∈ flagPlacesFields fields, flag? w = none) →
      projectedFields I row path fields = entries I row fields
  | [], path, h => rfl
  | (name, v) :: rest, path, h => by
      rw [flagPlacesFields, List.forall_mem_append] at h
      rw [projectedFields, entries, flag?_eq_none h.1, if_neg (by decide),
        projected_eq_expression v _ h.1, projectedFields_eq_entries rest path h.2]

end

end Aggregation.Reading
