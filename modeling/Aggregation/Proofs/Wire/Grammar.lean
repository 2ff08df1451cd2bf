import Aggregation.Proofs.Wire.Writing

/-! The grammar of documents: which bytes are a form of a value. A value has one form, except that the elements of an
array may have any names; the layout of a value is the form in which they are the indices. -/

namespace Aggregation.Wire

open Layout

/-- Whether a length may stand in front of bytes. -/
def Limits.Bounds (l : Limits) (length : Nat) : Prop := (length : Int) ≤ l.maxDocumentSize

mutual

/-- Whether bytes are a form of a value in a number of open containers. -/
def IsForm (l : Limits) (opened : Nat) : Value → List UInt8 → Prop
  | .string s, bytes => bytes = text s ∧ l.Bounds ((Utf8.encode s).length + 1)
  | .document ⟨fields⟩, bytes =>
    opened < l.maxNestingDepth ∧ (fields.map Prod.fst).Nodup ∧
      ∃ body, AreForms l (opened + 1) fields body ∧ bytes = container body ∧ l.Bounds bytes.length
  | .array xs, bytes =>
    opened < l.maxNestingDepth ∧
      ∃ body, ItemsAreForms l (opened + 1) xs body ∧ bytes = container body ∧ l.Bounds bytes.length
  | .binary subtype content, bytes =>
    bytes = binary subtype content ∧ l.Bounds (binaryContent subtype content).length
  | .regularExpression pattern options, bytes =>
    bytes = cstring pattern ++ cstring options ∧ '\x00' ∉ pattern.toList ∧ '\x00' ∉ options.toList
  | .dbPointer collection id, bytes =>
    bytes = text collection ++ id.bytes ∧ l.Bounds ((Utf8.encode collection).length + 1)
  | .javaScript code, bytes => bytes = text code ∧ l.Bounds ((Utf8.encode code).length + 1)
  | .symbol name, bytes => bytes = text name ∧ l.Bounds ((Utf8.encode name).length + 1)
  | .scopedCode code ⟨fields⟩, bytes =>
    opened + 1 < l.maxNestingDepth ∧ (fields.map Prod.fst).Nodup ∧
      ∃ body, AreForms l (opened + 2) fields body ∧ bytes = sized (text code ++ container body) ∧
        l.Bounds bytes.length
  | v, bytes => bytes = value v

/-- Whether bytes are the elements of a document. -/
def AreForms (l : Limits) (opened : Nat) : List (String × Value) → List UInt8 → Prop
  | [], bytes => bytes = []
  | (name, v) :: rest, bytes =>
    '\x00' ∉ name.toList ∧ ∃ first later, IsForm l opened v first ∧ AreForms l opened rest later ∧
      bytes = head v.elementType (Utf8.encode name) ++ first ++ later

/-- Whether bytes are the elements of an array, whose names are not text in general. -/
def ItemsAreForms (l : Limits) (opened : Nat) : List Value → List UInt8 → Prop
  | [], bytes => bytes = []
  | v :: rest, bytes =>
    ∃ name first later, 0 ∉ name ∧ IsForm l opened v first ∧ ItemsAreForms l opened rest later ∧
      bytes = head v.elementType name ++ first ++ later

end

/-- Whether bytes are a form of a document at the top level. -/
def IsDocumentForm (l : Limits) (d : Document) (bytes : List UInt8) : Prop := IsForm l 0 (.document d) bytes

mutual

/-- What a writer makes of a value with distinct names is a form of it. -/
theorem isForm_value {l : Limits} {opened : Nat} : ∀ v : Value, Admits l opened v → HasDistinctNames v →
    l.Bounds (value v).length → IsForm l opened v (value v)
  | .document ⟨fields⟩, ha, hd, hsize => by
    have hfields : l.Bounds (elements fields).length := by
      rw [value, length_container, Limits.Bounds] at hsize
      rw [Limits.Bounds]
      omega
    exact ⟨ha.1, hd.1, _, areForms_elements fields ha.2.1 hd.2 hfields, rfl, hsize⟩
  | .array xs, ha, hd, hsize => by
    have hitems : l.Bounds (items 0 xs).length := by
      rw [value, length_container, Limits.Bounds] at hsize
      rw [Limits.Bounds]
      omega
    exact ⟨ha.1, _, itemsAreForms_items xs 0 ha.2.1 hd hitems, rfl, hsize⟩
  | .scopedCode code ⟨fields⟩, ha, hd, hsize => by
    have hfields : l.Bounds (elements fields).length := by
      rw [value, length_sized, List.length_append, length_container, Limits.Bounds] at hsize
      rw [Limits.Bounds]
      omega
    exact ⟨ha.2.1, hd.1, _, areForms_elements fields ha.2.2.1 hd.2 hfields, rfl, hsize⟩
  | .string s, _, _, hsize => by
    rw [value, length_text, Limits.Bounds] at hsize
    exact ⟨rfl, by rw [Limits.Bounds]; omega⟩
  | .binary subtype content, _, _, hsize => by
    rw [value, binary, List.length_append, Limits.Bounds] at hsize
    exact ⟨rfl, by rw [Limits.Bounds]; omega⟩
  | .regularExpression _ _, ha, _, _ => ⟨rfl, ha⟩
  | .dbPointer collection id, _, _, hsize => by
    rw [value, List.length_append, length_text, Limits.Bounds] at hsize
    exact ⟨rfl, by rw [Limits.Bounds]; omega⟩
  | .javaScript code, _, _, hsize => by
    rw [value, length_text, Limits.Bounds] at hsize
    exact ⟨rfl, by rw [Limits.Bounds]; omega⟩
  | .symbol name, _, _, hsize => by
    rw [value, length_text, Limits.Bounds] at hsize
    exact ⟨rfl, by rw [Limits.Bounds]; omega⟩
  | .double _, _, _, _ | .undefined, _, _, _ | .objectId _, _, _, _ | .boolean _, _, _, _ | .dateTime _, _, _, _
  | .null, _, _, _ | .int32 _, _, _, _ | .timestamp _ _, _, _, _ | .int64 _, _, _, _ | .decimal128 _, _, _, _
  | .minKey, _, _, _ | .maxKey, _, _, _ => rfl

theorem areForms_elements {l : Limits} {opened : Nat} : ∀ fields : List (String × Value),
    AdmitsElements l opened fields → HaveDistinctNames fields → l.Bounds (elements fields).length →
      AreForms l opened fields (elements fields)
  | [], _, _, _ => rfl
  | (name, v) :: rest, ha, hd, hsize => by
    rw [elements, List.length_append, List.length_append, Limits.Bounds] at hsize
    have hv := isForm_value v ha.2.1 hd.1 (by rw [Limits.Bounds]; omega)
    have hrest := areForms_elements rest ha.2.2 hd.2 (by rw [Limits.Bounds]; omega)
    exact ⟨ha.1, _, _, hv, hrest, rfl⟩

theorem itemsAreForms_items {l : Limits} {opened : Nat} : ∀ (xs : List Value) (index : Nat),
    AdmitsItems l opened xs → ItemsHaveDistinctNames xs → l.Bounds (items index xs).length →
      ItemsAreForms l opened xs (items index xs)
  | [], _, _, _, _ => rfl
  | v :: rest, index, ha, hd, hsize => by
    rw [items, List.length_append, List.length_append, Limits.Bounds] at hsize
    have hv := isForm_value v ha.1 hd.1 (by rw [Limits.Bounds]; omega)
    have hrest := itemsAreForms_items rest (index + 1) ha.2 hd.2 (by rw [Limits.Bounds]; omega)
    exact ⟨_, _, _, Utf8.zero_notMem_encode_toString index, hv, hrest, rfl⟩

end

end Aggregation.Wire
