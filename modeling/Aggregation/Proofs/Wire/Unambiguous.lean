import Aggregation.Proofs.Wire.Canonical

/-! Bytes that stand for one value only. The type of a value says where its bytes end: they are so many, or their number
stands in front of them, or a NUL comes after them. So whatever follows, bytes that begin with the layouts of two values
of one type begin with one value, and two documents that are written as the same bytes are the same. Names that come
twice do no harm, since elements are told apart by where they stand. -/

namespace Aggregation.Wire

open Layout

namespace ElementType

theorem tag_inj {t u : ElementType} (h : t.tag = u.tag) : t = u := by
  have htype := ofTag?_tag t
  rw [h, ofTag?_tag u] at htype
  exact (Option.some.inj htype).symm

end ElementType

namespace Layout

variable {rest rest' : List UInt8}

/-- Whether a length is written as a number of four bytes without loss. -/
def Fits (length : Nat) : Prop := length < 4294967296

theorem Fits.of_le {m n : Nat} (h : Fits n) (hle : m ≤ n) : Fits m := Nat.lt_of_le_of_lt hle h

theorem littleEndianBytes_append_inj {count m n : Nat} (hm : m < 256 ^ count) (hn : n < 256 ^ count)
    (h : littleEndianBytes count m ++ rest = littleEndianBytes count n ++ rest') : m = n ∧ rest = rest' := by
  have hlength : (littleEndianBytes count m).length = (littleEndianBytes count n).length := by
    rw [length_littleEndianBytes, length_littleEndianBytes]
  obtain ⟨hbytes, hrest⟩ := List.append_inj h hlength
  have hnumber := congrArg littleEndian hbytes
  rw [littleEndian_littleEndianBytes, littleEndian_littleEndianBytes, Nat.mod_eq_of_lt hm, Nat.mod_eq_of_lt hn]
    at hnumber
  exact ⟨hnumber, hrest⟩

theorem word64_append_inj {x y : UInt64}
    (h : littleEndianBytes 8 x.toNat ++ rest = littleEndianBytes 8 y.toNat ++ rest') : x = y ∧ rest = rest' := by
  obtain ⟨hnumber, hrest⟩ := littleEndianBytes_append_inj x.toNat_lt y.toNat_lt h
  exact ⟨UInt64.toNat_inj.1 hnumber, hrest⟩

theorem word32_append_inj {x y : UInt32}
    (h : littleEndianBytes 4 x.toNat ++ rest = littleEndianBytes 4 y.toNat ++ rest') : x = y ∧ rest = rest' := by
  obtain ⟨hnumber, hrest⟩ := littleEndianBytes_append_inj x.toNat_lt y.toNat_lt h
  exact ⟨UInt32.toNat_inj.1 hnumber, hrest⟩

/-- Bytes behind a number that says how many they are. -/
theorem counted_append_inj {m n : Nat} {body body' : List UInt8} (hm : Fits m) (hn : Fits n)
    (hlength : m = n → body.length = body'.length)
    (h : littleEndianBytes 4 m ++ (body ++ rest) = littleEndianBytes 4 n ++ (body' ++ rest')) :
    body = body' ∧ rest = rest' := by
  obtain ⟨hnumber, hbodies⟩ := littleEndianBytes_append_inj hm hn h
  exact List.append_inj hbodies (hlength hnumber)

theorem sized_append_inj {body body' : List UInt8} (hbody : Fits (sized body).length)
    (hbody' : Fits (sized body').length) (h : sized body ++ rest = sized body' ++ rest') :
    body = body' ∧ rest = rest' := by
  rw [length_sized] at hbody hbody'
  rw [sized, sized, List.append_assoc, List.append_assoc] at h
  exact counted_append_inj hbody hbody' Nat.add_right_cancel h

theorem container_append_inj {body body' : List UInt8} (hbody : Fits (container body).length)
    (hbody' : Fits (container body').length) (h : container body ++ rest = container body' ++ rest') :
    body = body' ∧ rest = rest' := by
  obtain ⟨hsized, hrest⟩ := sized_append_inj hbody hbody' h
  exact ⟨List.append_cancel_right hsized, hrest⟩

theorem text_append_inj {s t : String} (hs : Fits (text s).length) (ht : Fits (text t).length)
    (h : text s ++ rest = text t ++ rest') : s = t ∧ rest = rest' := by
  rw [length_text] at hs ht
  simp only [text, List.append_assoc] at h
  obtain ⟨hbytes, hrest⟩ := counted_append_inj (hs.of_le (by omega)) (ht.of_le (by omega)) Nat.add_right_cancel h
  exact ⟨Utf8.encode_inj hbytes, List.append_cancel_left hrest⟩

theorem cstring_append_inj {s t : String} (hs : '\x00' ∉ s.toList) (ht : '\x00' ∉ t.toList)
    (h : cstring s ++ rest = cstring t ++ rest') : s = t ∧ rest = rest' := by
  rw [← Utf8.zero_mem_encode] at hs ht
  simp only [cstring, List.append_assoc] at h
  obtain ⟨hbytes, hrest⟩ := append_zero_inj hs ht h
  exact ⟨Utf8.encode_inj hbytes, hrest⟩

theorem binaryContent_inj {subtype : UInt8} {bytes bytes' : List UInt8}
    (h : binaryContent subtype bytes = binaryContent subtype bytes') : bytes = bytes' := by
  rw [binaryContent, binaryContent] at h
  split_ifs at h
  · exact (List.append_inj h (by rw [length_littleEndianBytes, length_littleEndianBytes])).2
  · exact h

theorem binary_append_inj {subtype subtype' : UInt8} {bytes bytes' : List UInt8}
    (hb : Fits (binary subtype bytes).length) (hb' : Fits (binary subtype' bytes').length)
    (h : binary subtype bytes ++ rest = binary subtype' bytes' ++ rest') :
    subtype = subtype' ∧ bytes = bytes' ∧ rest = rest' := by
  rw [binary, List.length_append] at hb hb'
  simp only [binary, List.append_assoc] at h
  obtain ⟨hnumber, hafter⟩ := littleEndianBytes_append_inj (hb.of_le (by omega)) (hb'.of_le (by omega)) h
  obtain ⟨hsubtype, hcontents⟩ := List.append_inj hafter rfl
  obtain rfl := (List.cons.inj hsubtype).1
  obtain ⟨hcontent, hrest⟩ := List.append_inj hcontents hnumber
  exact ⟨rfl, binaryContent_inj hcontent, hrest⟩

/-- Seconds and an ordinal are the two halves of a number. -/
theorem timestamp_append_inj {t u i j : UInt32}
    (h : littleEndianBytes 8 (t.toNat * UInt32.size + i.toNat) ++ rest =
      littleEndianBytes 8 (u.toNat * UInt32.size + j.toNat) ++ rest') : t = u ∧ i = j ∧ rest = rest' := by
  have ht := t.toNat_lt
  have hu := u.toNat_lt
  have hi := i.toNat_lt
  have hj := j.toNat_lt
  have hsize : UInt32.size = 4294967296 := rfl
  rw [hsize] at h
  obtain ⟨hnumber, hrest⟩ := littleEndianBytes_append_inj (by omega) (by omega) h
  exact ⟨UInt32.toNat_inj.1 (by omega), UInt32.toNat_inj.1 (by omega), hrest⟩

/-- The head of an element shows its type and its name. -/
theorem head_append_inj {t u : ElementType} {name name' : List UInt8} (hname : 0 ∉ name) (hname' : 0 ∉ name')
    (h : head t name ++ rest = head u name' ++ rest') : t = u ∧ name = name' ∧ rest = rest' := by
  simp only [head, List.cons_append, List.append_assoc] at h
  obtain ⟨htag, hafter⟩ := List.cons.inj h
  obtain ⟨hnames, hrest⟩ := append_zero_inj hname hname' hafter
  exact ⟨ElementType.tag_inj htag, hnames, hrest⟩

mutual

/-- Bytes that begin with the layouts of two values of one type begin with one value. -/
theorem value_append_inj : ∀ {v w : Value} {rest rest' : List UInt8}, v.elementType = w.elementType →
    IsNulFree v → IsNulFree w → Fits (value v).length → Fits (value w).length →
      value v ++ rest = value w ++ rest' → v = w ∧ rest = rest'
  | .document ⟨fields⟩, w, rest, rest', htype, hv, hw, hsize, hsize', h => by
    cases w with
    | document d =>
        obtain ⟨fields'⟩ := d
        rw [value] at hsize hsize'
        obtain ⟨hbody, hrest⟩ := container_append_inj hsize hsize' h
        rw [length_container] at hsize hsize'
        obtain rfl := elements_inj hv hw (hsize.of_le (by omega)) (hsize'.of_le (by omega)) hbody
        exact ⟨rfl, hrest⟩
    | _ => cases htype
  | .array xs, w, rest, rest', htype, hv, hw, hsize, hsize', h => by
    cases w with
    | array ys =>
        rw [value] at hsize hsize'
        obtain ⟨hbody, hrest⟩ := container_append_inj hsize hsize' h
        rw [length_container] at hsize hsize'
        obtain rfl := items_inj hv hw (hsize.of_le (by omega)) (hsize'.of_le (by omega)) hbody
        exact ⟨rfl, hrest⟩
    | _ => cases htype
  | .scopedCode code ⟨fields⟩, w, rest, rest', htype, hv, hw, hsize, hsize', h => by
    cases w with
    | scopedCode code' d =>
        obtain ⟨fields'⟩ := d
        rw [value] at hsize hsize'
        obtain ⟨hbody, hrest⟩ := sized_append_inj hsize hsize' h
        rw [length_sized, List.length_append] at hsize hsize'
        obtain ⟨rfl, hscope⟩ := text_append_inj (hsize.of_le (by omega)) (hsize'.of_le (by omega)) hbody
        rw [container_inj] at hscope
        rw [length_container] at hsize hsize'
        obtain rfl := elements_inj hv hw (hsize.of_le (by omega)) (hsize'.of_le (by omega)) hscope
        exact ⟨rfl, hrest⟩
    | _ => cases htype
  | .double ⟨x⟩, w, rest, rest', htype, _, _, _, _, h => by
    cases w with
    | double y =>
        obtain ⟨rfl, hrest⟩ := word64_append_inj h
        exact ⟨rfl, hrest⟩
    | _ => cases htype
  | .string s, w, rest, rest', htype, _, _, hsize, hsize', h => by
    cases w with
    | string t =>
        obtain ⟨rfl, hrest⟩ := text_append_inj hsize hsize' h
        exact ⟨rfl, hrest⟩
    | _ => cases htype
  | .binary subtype bytes, w, rest, rest', htype, _, _, hsize, hsize', h => by
    cases w with
    | binary subtype' bytes' =>
        obtain ⟨rfl, rfl, hrest⟩ := binary_append_inj hsize hsize' h
        exact ⟨rfl, hrest⟩
    | _ => cases htype
  | .objectId ⟨i, hi⟩, w, rest, rest', htype, _, _, _, _, h => by
    cases w with
    | objectId j =>
        obtain ⟨j, hj⟩ := j
        obtain ⟨rfl, hrest⟩ := List.append_inj h (hi.trans hj.symm)
        exact ⟨rfl, hrest⟩
    | _ => cases htype
  | .boolean b, w, rest, rest', htype, _, _, _, _, h => by
    cases w with
    | boolean c =>
        obtain ⟨hbyte, hrest⟩ := List.cons.inj h
        cases b <;> cases c <;> first | exact ⟨rfl, hrest⟩ | exact absurd hbyte (by decide)
    | _ => cases htype
  | .dateTime m, w, rest, rest', htype, _, _, _, _, h => by
    cases w with
    | dateTime n =>
        obtain ⟨hbits, hrest⟩ := word64_append_inj h
        exact ⟨congrArg (Value.dateTime ∘ Int64.ofUInt64) hbits, hrest⟩
    | _ => cases htype
  | .regularExpression pattern options, w, rest, rest', htype, hv, hw, _, _, h => by
    cases w with
    | regularExpression pattern' options' =>
        rw [value, value, List.append_assoc, List.append_assoc] at h
        obtain ⟨rfl, hoptions⟩ := cstring_append_inj hv.1 hw.1 h
        obtain ⟨rfl, hrest⟩ := cstring_append_inj hv.2 hw.2 hoptions
        exact ⟨rfl, hrest⟩
    | _ => cases htype
  | .dbPointer collection ⟨i, hi⟩, w, rest, rest', htype, _, _, hsize, hsize', h => by
    cases w with
    | dbPointer collection' j =>
        obtain ⟨j, hj⟩ := j
        rw [value, List.length_append] at hsize hsize'
        rw [value, value, List.append_assoc, List.append_assoc] at h
        obtain ⟨rfl, hid⟩ := text_append_inj (hsize.of_le (by omega)) (hsize'.of_le (by omega)) h
        obtain ⟨rfl, hrest⟩ := List.append_inj hid (hi.trans hj.symm)
        exact ⟨rfl, hrest⟩
    | _ => cases htype
  | .javaScript s, w, rest, rest', htype, _, _, hsize, hsize', h => by
    cases w with
    | javaScript t =>
        obtain ⟨rfl, hrest⟩ := text_append_inj hsize hsize' h
        exact ⟨rfl, hrest⟩
    | _ => cases htype
  | .symbol s, w, rest, rest', htype, _, _, hsize, hsize', h => by
    cases w with
    | symbol t =>
        obtain ⟨rfl, hrest⟩ := text_append_inj hsize hsize' h
        exact ⟨rfl, hrest⟩
    | _ => cases htype
  | .int32 m, w, rest, rest', htype, _, _, _, _, h => by
    cases w with
    | int32 n =>
        obtain ⟨hbits, hrest⟩ := word32_append_inj h
        exact ⟨congrArg (Value.int32 ∘ Int32.ofUInt32) hbits, hrest⟩
    | _ => cases htype
  | .timestamp t i, w, rest, rest', htype, _, _, _, _, h => by
    cases w with
    | timestamp u j =>
        obtain ⟨rfl, rfl, hrest⟩ := timestamp_append_inj h
        exact ⟨rfl, hrest⟩
    | _ => cases htype
  | .int64 m, w, rest, rest', htype, _, _, _, _, h => by
    cases w with
    | int64 n =>
        obtain ⟨hbits, hrest⟩ := word64_append_inj h
        exact ⟨congrArg (Value.int64 ∘ Int64.ofUInt64) hbits, hrest⟩
    | _ => cases htype
  | .decimal128 ⟨d, hd⟩, w, rest, rest', htype, _, _, _, _, h => by
    cases w with
    | decimal128 e =>
        obtain ⟨e, he⟩ := e
        obtain ⟨rfl, hrest⟩ := List.append_inj h (hd.trans he.symm)
        exact ⟨rfl, hrest⟩
    | _ => cases htype
  | .undefined, w, _, _, htype, _, _, _, _, h | .null, w, _, _, htype, _, _, _, _, h
  | .minKey, w, _, _, htype, _, _, _, _, h | .maxKey, w, _, _, htype, _, _, _, _, h => by
    cases w <;> first | exact ⟨rfl, h⟩ | cases htype

/-- Two documents with one layout have the same fields. -/
theorem elements_inj : ∀ {fields fields' : List (String × Value)}, AreNulFree fields → AreNulFree fields' →
    Fits (elements fields).length → Fits (elements fields').length → elements fields = elements fields' →
      fields = fields'
  | [], [], _, _, _, _, _ => rfl
  | [], (_, _) :: _, _, _, _, _, h | (_, _) :: _, [], _, _, _, _, h => by
    rw [elements, elements, head] at h
    cases h
  | (name, v) :: others, (name', w) :: others', hv, hw, hsize, hsize', h => by
    rw [elements, List.length_append, List.length_append] at hsize hsize'
    rw [elements, elements, List.append_assoc, List.append_assoc] at h
    obtain ⟨htype, hnames, hafter⟩ :=
      head_append_inj (mt (Utf8.zero_mem_encode name).1 hv.1) (mt (Utf8.zero_mem_encode name').1 hw.1) h
    obtain ⟨rfl, hothers⟩ :=
      value_append_inj htype hv.2.1 hw.2.1 (hsize.of_le (by omega)) (hsize'.of_le (by omega)) hafter
    obtain rfl := Utf8.encode_inj hnames
    rw [elements_inj hv.2.2 hw.2.2 (hsize.of_le (by omega)) (hsize'.of_le (by omega)) hothers]

/-- Two arrays with one layout have the same items. -/
theorem items_inj : ∀ {xs ys : List Value} {index : Nat}, ItemsAreNulFree xs → ItemsAreNulFree ys →
    Fits (items index xs).length → Fits (items index ys).length → items index xs = items index ys → xs = ys
  | [], [], _, _, _, _, _, _ => rfl
  | [], _ :: _, _, _, _, _, _, h | _ :: _, [], _, _, _, _, _, h => by
    rw [items, items, head] at h
    cases h
  | v :: others, w :: others', index, hv, hw, hsize, hsize', h => by
    have hname := Utf8.zero_notMem_encode_toString index
    rw [items, List.length_append, List.length_append] at hsize hsize'
    rw [items, items, List.append_assoc, List.append_assoc] at h
    obtain ⟨htype, -, hafter⟩ := head_append_inj hname hname h
    obtain ⟨rfl, hothers⟩ :=
      value_append_inj htype hv.1 hw.1 (hsize.of_le (by omega)) (hsize'.of_le (by omega)) hafter
    rw [items_inj hv.2 hw.2 (hsize.of_le (by omega)) (hsize'.of_le (by omega)) hothers]

end

/-- A layout is that of one document. -/
theorem document_inj {d e : Document} (hd : IsNulFree (.document d)) (he : IsNulFree (.document e))
    (hsize : Fits (document d).length) (hsize' : Fits (document e).length) : document d = document e ↔ d = e := by
  refine ⟨fun h => ?_, fun h => h ▸ rfl⟩
  have hvalues : value (.document d) ++ [] = value (.document e) ++ [] := congrArg (· ++ []) h
  exact Value.document.inj (value_append_inj (v := .document d) (w := .document e) rfl hd he hsize hsize' hvalues).1

end Layout

/-- What a writer takes under the limits it has by default can be told from its layout. -/
theorem unambiguous_of_encode {d : Document} {bytes : List UInt8} (h : (encode d).result = .ok bytes) :
    bytes = document d ∧ IsNulFree (.document d) ∧ Fits (document d).length := by
  obtain ⟨hadmits, hbytes⟩ := (encode_eq_ok_iff d bytes).1 h
  obtain ⟨hnul, -, hsize⟩ := (admits_document_iff (by decide) d).1 hadmits
  have hlimit : ((document d).length : Int) ≤ 16777216 := hsize
  exact ⟨hbytes, hnul, show _ < _ by omega⟩

/-- Documents that can be written are the same exactly if they are written as the same bytes; and being the same is an
equivalence of values, those that hold a NaN included. -/
theorem same_iff_encode_eq :
    (∀ (a b : Document) (bytes bytes' : List UInt8), (encode a).result = .ok bytes →
      (encode b).result = .ok bytes' → (Record.same a b = true ↔ bytes = bytes')) ∧
      Equivalence fun v w : Value => v.same w = true := by
  constructor
  · intro a b bytes bytes' ha hb
    obtain ⟨rfl, hnul, hsize⟩ := unambiguous_of_encode ha
    obtain ⟨rfl, hnul', hsize'⟩ := unambiguous_of_encode hb
    rw [Record.same_iff_eq, document_inj hnul hnul' hsize hsize']
  · simp only [Value.same_iff_eq]
    exact eq_equivalence

/-- Two NaNs that differ in a bit, in an array: each is the same as itself, and they are written as different bytes. -/
theorem same_iff_encode_eq_nan :
    let d (bits : UInt64) : Document := ⟨[("a", .array [.double ⟨bits⟩])]⟩
    let bytes (low : UInt8) : List UInt8 :=
      [24, 0, 0, 0, 4, 97, 0, 16, 0, 0, 0, 1, 48, 0, low, 0, 0, 0, 0, 0, 248, 127, 0, 0]
    (encode (d 0x7FF8000000000000)).result = .ok (bytes 0) ∧ (encode (d 0x7FF8000000000001)).result = .ok (bytes 1) ∧
      Record.same (d 0x7FF8000000000000) (d 0x7FF8000000000000) = true ∧
        ¬Record.same (d 0x7FF8000000000000) (d 0x7FF8000000000001) = true := by
  intro d bytes
  have hencode (bits : UInt64) (low : UInt8) (hbytes : bytes low = document (d bits)) :
      (encode (d bits)).result = .ok (bytes low) := by
    rw [encode_eq_ok_iff]
    refine ⟨?_, hbytes⟩
    rw [admits_document_iff (by decide), ← hbytes]
    exact ⟨⟨by decide, ⟨trivial, trivial⟩, trivial⟩, show 2 ≤ 100 by decide, show (24 : Int) ≤ 16777216 by decide⟩
  have hfirst := hencode 0x7FF8000000000000 0 (by decide)
  have hsecond := hencode 0x7FF8000000000001 1 (by decide)
  refine ⟨hfirst, hsecond, (same_iff_encode_eq.1 _ _ _ _ hfirst hfirst).2 rfl, fun h => ?_⟩
  exact absurd ((same_iff_encode_eq.1 _ _ _ _ hfirst hsecond).1 h) (by decide)

end Aggregation.Wire
