import Aggregation.Proofs.Wire.Bytes
import Aggregation.Wire.ElementType
import Aggregation.Wire.Limits

/-! The layout of documents, from the inside out: the bytes of a container are put together first, and its length goes
in front of them. Beside the bytes stand the three things that can keep a document from having a layout that a
reader takes: names and parts of regular expressions that hold a NUL, the depth of nesting, and the size. -/

namespace Aggregation.Wire

namespace Limits

/-- The limits of a size of 32 bits and a depth, as configurations state them. -/
def ofWord (size : Int32) (nesting : Nat) : Limits := ⟨size.toInt, nesting⟩

theorem five_le_of_fault?_eq_none {l : Limits} (h : l.fault? = none) : 5 ≤ l.maxDocumentSize := by
  unfold fault? at h
  split at h
  · cases h
  · omega

theorem ofWord_lt (size : Int32) (nesting : Nat) : (ofWord size nesting).maxDocumentSize < 2147483648 := by
  have h := size.toInt_lt
  exact h

end Limits

namespace Layout

/-- Text up to a NUL. -/
def cstring (text : String) : List UInt8 := Utf8.encode text ++ [0]

/-- Text with its size in front and a NUL behind, which the size counts. -/
def text (s : String) : List UInt8 := littleEndianBytes 4 ((Utf8.encode s).length + 1) ++ Utf8.encode s ++ [0]

/-- Bytes with their size in front, which counts itself. -/
def sized (body : List UInt8) : List UInt8 := littleEndianBytes 4 (body.length + 4) ++ body

/-- A container of elements. -/
def container (elements : List UInt8) : List UInt8 := sized (elements ++ [0])

/-- What follows the subtype of a binary. The legacy subtype has a second length before its bytes. -/
def binaryContent (subtype : UInt8) (bytes : List UInt8) : List UInt8 :=
  if subtype = 2 then littleEndianBytes 4 bytes.length ++ bytes else bytes

/-- A binary, with the length of what follows the subtype in front. -/
def binary (subtype : UInt8) (bytes : List UInt8) : List UInt8 :=
  littleEndianBytes 4 (binaryContent subtype bytes).length ++ [subtype] ++ binaryContent subtype bytes

/-- The head of an element: the tag of its type and its name. -/
def head (type : ElementType) (name : List UInt8) : List UInt8 := type.tag :: name ++ [0]

mutual

/-- The bytes of a value. -/
def value : Value → List UInt8
  | .double x => littleEndianBytes 8 x.bits.toNat
  | .string s => text s
  | .document ⟨fields⟩ => container (elements fields)
  | .array xs => container (items 0 xs)
  | .binary subtype bytes => binary subtype bytes
  | .undefined => []
  | .objectId id => id.bytes
  | .boolean b => [if b then 1 else 0]
  | .dateTime millis => littleEndianBytes 8 millis.toUInt64.toNat
  | .null => []
  | .regularExpression pattern options => cstring pattern ++ cstring options
  | .dbPointer collection id => text collection ++ id.bytes
  | .javaScript code => text code
  | .symbol name => text name
  | .scopedCode code ⟨fields⟩ => sized (text code ++ container (elements fields))
  | .int32 n => littleEndianBytes 4 n.toUInt32.toNat
  | .timestamp time increment => littleEndianBytes 8 (time.toNat * UInt32.size + increment.toNat)
  | .int64 n => littleEndianBytes 8 n.toUInt64.toNat
  | .decimal128 d => d.bytes
  | .minKey => []
  | .maxKey => []

/-- The bytes of named values, one element after the other. -/
def elements : List (String × Value) → List UInt8
  | [] => []
  | (name, v) :: rest => head v.elementType (Utf8.encode name) ++ value v ++ elements rest

/-- The bytes of the items of an array, whose names are their indices. -/
def items (index : Nat) : List Value → List UInt8
  | [] => []
  | v :: rest => head v.elementType (Utf8.encode (toString index)) ++ value v ++ items (index + 1) rest

end

/-- The bytes of a document. -/
def document (d : Document) : List UInt8 := container (elements d.entries)

mutual

/-- Whether no name and no part of a regular expression in a value holds a NUL. -/
def IsNulFree : Value → Prop
  | .document ⟨fields⟩ => AreNulFree fields
  | .array xs => ItemsAreNulFree xs
  | .regularExpression pattern options => '\x00' ∉ pattern.toList ∧ '\x00' ∉ options.toList
  | .scopedCode _ ⟨fields⟩ => AreNulFree fields
  | _ => True

/-- Whether no name in named values, their own names included, holds a NUL. -/
def AreNulFree : List (String × Value) → Prop
  | [] => True
  | (name, v) :: rest => '\x00' ∉ name.toList ∧ IsNulFree v ∧ AreNulFree rest

/-- Whether no name in items holds a NUL. -/
def ItemsAreNulFree : List Value → Prop
  | [] => True
  | v :: rest => IsNulFree v ∧ ItemsAreNulFree rest

end

mutual

/-- The greatest number of containers of a value that are open at once. Code with a scope opens two. -/
def depth : Value → Nat
  | .document ⟨fields⟩ => elementsDepth fields + 1
  | .array xs => itemsDepth xs + 1
  | .scopedCode _ ⟨fields⟩ => elementsDepth fields + 2
  | _ => 0

/-- The greatest depth of named values. -/
def elementsDepth : List (String × Value) → Nat
  | [] => 0
  | (_, v) :: rest => max (depth v) (elementsDepth rest)

/-- The greatest depth of items. -/
def itemsDepth : List Value → Nat
  | [] => 0
  | v :: rest => max (depth v) (itemsDepth rest)

end

mutual

/-- Whether in every document of a value the names are pairwise distinct. -/
def HasDistinctNames : Value → Prop
  | .document ⟨fields⟩ => (fields.map Prod.fst).Nodup ∧ HaveDistinctNames fields
  | .array xs => ItemsHaveDistinctNames xs
  | .scopedCode _ ⟨fields⟩ => (fields.map Prod.fst).Nodup ∧ HaveDistinctNames fields
  | _ => True

/-- Whether the documents in named values have distinct names. -/
def HaveDistinctNames : List (String × Value) → Prop
  | [] => True
  | (_, v) :: rest => HasDistinctNames v ∧ HaveDistinctNames rest

/-- Whether the documents in items have distinct names. -/
def ItemsHaveDistinctNames : List Value → Prop
  | [] => True
  | v :: rest => HasDistinctNames v ∧ ItemsHaveDistinctNames rest

end

@[simp] theorem length_text (s : String) : (text s).length = (Utf8.encode s).length + 5 := by
  simp only [text, List.length_append, length_littleEndianBytes, List.length_singleton]
  omega

@[simp] theorem length_sized (body : List UInt8) : (sized body).length = body.length + 4 := by
  simp only [sized, List.length_append, length_littleEndianBytes]
  omega

@[simp] theorem length_container (elements : List UInt8) : (container elements).length = elements.length + 5 := by
  simp only [container, length_sized, List.length_append, List.length_singleton]

end Layout

end Aggregation.Wire
