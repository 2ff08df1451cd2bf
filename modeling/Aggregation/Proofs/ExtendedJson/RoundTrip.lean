import Aggregation.Expr.Build
import Aggregation.Value.Equality
import Aggregation.Proofs.Text.Letters
import Aggregation.Proofs.Text.Numerals

/-!
Values written as JSON and read back. Every wrapper is recognised by the reader as the kind that wrote it, and a
document is taken for a wrapper only if its first name starts with a dollar. JSON does not keep the width of an integer
nor the payload of a NaN: what is read back has the least width and the standard NaN, and is otherwise the same.
-/

namespace Aggregation

namespace Binary64

theorem exponentField_eq (x : Binary64) : x.exponentField = x.bits.toNat / 0x10000000000000 % 0x800 := by
  rw [exponentField, UInt64.toNat_and, UInt64.toNat_shiftRight, Nat.shiftRight_eq_div_pow]
  exact Nat.and_two_pow_sub_one_eq_mod _ 11

theorem fraction_eq (x : Binary64) : x.fraction = x.bits.toNat % 0x10000000000000 := by
  rw [fraction, UInt64.toNat_and]
  exact Nat.and_two_pow_sub_one_eq_mod _ 52

theorem isNegative_iff (x : Binary64) : x.isNegative = true ↔ x.bits.toNat / 0x8000000000000000 = 1 := by
  rw [isNegative, decide_eq_true_eq, ← UInt64.toNat_inj, UInt64.toNat_shiftRight, Nat.shiftRight_eq_div_pow]
  rfl

theorem isInfinite_of_not {x : Binary64} (hfinite : ¬ x.isFinite = true) (hnan : ¬ x.isNaN = true) :
    x.isInfinite = true := by
  rw [isFinite, decide_eq_true_eq, not_not] at hfinite
  rw [isNaN, decide_eq_true hfinite, Bool.true_and, decide_eq_true_eq, not_not] at hnan
  rw [isInfinite, decide_eq_true hfinite, decide_eq_true hnan]
  rfl

/-- There is one infinity of each sign. -/
theorem eq_infinity {x : Binary64} (h : x.isInfinite = true) : x = infinity x.isNegative := by
  rw [isInfinite, Bool.and_eq_true, decide_eq_true_eq, decide_eq_true_eq, exponentField_eq, fraction_eq] at h
  have hlt := x.bits.toNat_lt
  apply congrArg Binary64.mk
  apply UInt64.toNat_inj.1
  by_cases hsign : x.isNegative = true
  · rw [hsign]
    rw [isNegative_iff] at hsign
    show _ = 0xFFF0000000000000
    omega
  · rw [Bool.eq_false_of_not_eq_true hsign]
    rw [isNegative_iff] at hsign
    show _ = 0x7FF0000000000000
    omega

end Binary64

namespace Value

/-- Whether the first of some names is one that a wrapper may have. -/
def opensReserved (fields : List (String × Value)) : Bool := (fields.map Prod.fst).head?.any Build.startsWithDollar

mutual

/-- Whether a value holds no decimal, nor a document that opens with a reserved name. -/
def isPlain : Value → Bool
  | .decimal128 _ => false
  | .document ⟨fields⟩ => !opensReserved fields && plainEntries fields
  | .array items => plainItems items
  | .scopedCode _ ⟨fields⟩ => plainEntries fields
  | _ => true

def plainEntries : List (String × Value) → Bool
  | [] => true
  | (_, value) :: rest => isPlain value && plainEntries rest

def plainItems : List Value → Bool
  | [] => true
  | item :: rest => isPlain item && plainItems rest

end

mutual

/-- The value of least width: an integer of 64 bits that fits 32 has 32, and there is one NaN. -/
def relaxed : Value → Value
  | .double x => .double (if x.isNaN then .nan else x)
  | .int64 n =>
    if Int32.minValue.toInt ≤ n.toInt ∧ n.toInt ≤ Int32.maxValue.toInt then .int32 (Int32.ofInt n.toInt) else .int64 n
  | .document ⟨fields⟩ => .document ⟨relaxedEntries fields⟩
  | .array items => .array (relaxedItems items)
  | .scopedCode code ⟨fields⟩ => .scopedCode code ⟨relaxedEntries fields⟩
  | v => v

def relaxedEntries : List (String × Value) → List (String × Value)
  | [] => []
  | (key, value) :: rest => (key, relaxed value) :: relaxedEntries rest

def relaxedItems : List Value → List Value
  | [] => []
  | item :: rest => relaxed item :: relaxedItems rest

end

end Value

namespace ExtendedJson

variable {key : String} {j : Json}

/-! ### What is no wrapper -/

theorem wrapper?_eq_none (h : Build.startsWithDollar key = false) : wrapper? key j = none := by
  unfold wrapper?
  split
  case h_15 => rfl
  all_goals exact absurd h (by decide)

theorem wrapped?_ofEntries {fields : List (String × Value)} (h : Value.opensReserved fields = false) :
    wrapped? (ofEntries fields) = none := by
  cases fields with
  | nil => rfl
  | cons first rest =>
      obtain ⟨key, value⟩ := first
      have hkey : Build.startsWithDollar key = false := h
      cases rest with
      | nil => rw [ofEntries, ofEntries, wrapped?, wrapper?_eq_none hkey]
      | cons second rest =>
          cases rest with
          | nil =>
              have hne : ¬ (key = "$code" ∧ second.1 = "$scope") := by
                rintro ⟨rfl, -⟩
                exact absurd hkey (by decide)
              rw [ofEntries, ofEntries, ofEntries, wrapped?, if_neg hne]
          | cons third rest => rfl

/-! ### What each wrapper is read as -/

theorem toValue_wrap {result : Except Fault Value} (h : wrapper? key j = some result) :
    toValue (wrap key j) = result := by
  rw [wrap, Record.single, toValue, wrapped?, h]

theorem toValue_ofDouble (x : Binary64) : toValue (ofDouble x) = .ok (Value.relaxed (.double x)) := by
  rw [Value.relaxed, ofDouble]
  by_cases hfinite : x.isFinite = true
  · have hnan : x.isNaN = false := by
      rw [Binary64.isFinite, decide_eq_true_eq] at hfinite
      rw [Binary64.isNaN, decide_eq_false hfinite, Bool.false_and]
    rw [if_pos hfinite, hnan]
    rfl
  · rw [if_neg hfinite]
    by_cases hnan : x.isNaN = true
    · rw [if_pos hnan, if_pos hnan]
      apply toValue_wrap
      rfl
    · rw [if_neg hnan, if_neg hnan]
      apply toValue_wrap
      conv_rhs => rw [Binary64.eq_infinity (Binary64.isInfinite_of_not hfinite hnan)]
      cases x.isNegative <;> rfl

theorem toValue_int32 (n : Int32) : toValue (.int n.toInt) = .ok (.int32 n) := by
  have hrange : Int32.minValue.toInt ≤ n.toInt ∧ n.toInt ≤ Int32.maxValue.toInt :=
    ⟨n.minValue_le_toInt, n.toInt_le⟩
  rw [Json.int, toValue, ofNumber, if_pos hrange, Int32.ofInt_toInt]

theorem toValue_int64 (n : Int64) : toValue (.int n.toInt) = .ok (Value.relaxed (.int64 n)) := by
  have hrange : Int64.minValue.toInt ≤ n.toInt ∧ n.toInt ≤ Int64.maxValue.toInt :=
    ⟨n.minValue_le_toInt, n.toInt_le⟩
  rw [Json.int, toValue, ofNumber, if_pos hrange, Int64.ofInt_toInt, Value.relaxed]

theorem word?_toNat (n : UInt32) : word? (.int n.toNat) = some n := by
  have hrange : (0 : Int) ≤ n.toNat ∧ (n.toNat : Int) < UInt32.size :=
    ⟨Int.natCast_nonneg _, Int.ofNat_lt.2 n.toNat_lt⟩
  rw [word?, Json.int, Json.int?, Option.bind_some, if_pos hrange, Int.toNat_natCast, UInt32.ofNat_toNat]

theorem readObjectId_toHex (id : ObjectId) : readObjectId id.toHex = .ok id := by
  rw [readObjectId, objectId?_toHex]
  rfl

theorem toValue_binary (subtype : UInt8) (bytes : List UInt8) :
    toValue (ofValue (.binary subtype bytes)) = .ok (.binary subtype bytes) := by
  have hread : wrapper? "$binary" (.ofMembers
      [("base64", .string (Base64.encode bytes)), ("subType", .string (Hex.padded 2 subtype.toNat))]) =
      some (do
        let bytes ← orFault .base64 (Base64.decode? (Base64.encode bytes))
        return .binary (← orFault (.subtype (Hex.padded 2 subtype.toNat))
          (Hex.byte? (Hex.padded 2 subtype.toNat).toList)) bytes) := rfl
  rw [Base64.decode?_encode, Hex.byte?_padded_two] at hread
  exact toValue_wrap hread

theorem toValue_objectId (id : ObjectId) : toValue (ofValue (.objectId id)) = .ok (.objectId id) := by
  have hread : wrapper? "$oid" (.string id.toHex) = some (do return .objectId (← readObjectId id.toHex)) := rfl
  rw [readObjectId_toHex] at hread
  exact toValue_wrap hread

theorem toValue_dbPointer (collection : String) (id : ObjectId) :
    toValue (ofValue (.dbPointer collection id)) = .ok (.dbPointer collection id) := by
  have hread : wrapper? "$dbPointer" (.ofMembers
      [("$ref", .string collection), ("$id", wrap "$oid" (.string id.toHex))]) =
      some (do return .dbPointer collection (← readObjectId id.toHex)) := rfl
  rw [readObjectId_toHex] at hread
  exact toValue_wrap hread

theorem toValue_dateTime (millis : Int64) : toValue (ofValue (.dateTime millis)) = .ok (.dateTime millis) := by
  have hread : wrapper? "$date" (wrap "$numberLong" (.string (toString millis.toInt))) =
      some ((orFault (.number "$date" (toString millis.toInt)) (Numeral.int64? (toString millis.toInt))).map
        .dateTime) := rfl
  rw [Numeral.int64?_toString] at hread
  exact toValue_wrap hread

theorem toValue_timestamp (time increment : UInt32) :
    toValue (ofValue (.timestamp time increment)) = .ok (.timestamp time increment) := by
  have htime : (Json.ofMembers [("t", .int time.toNat), ("i", .int increment.toNat)]).member "t" = .int time.toNat := rfl
  have hincrement :
      (Json.ofMembers [("t", .int time.toNat), ("i", .int increment.toNat)]).member "i" = .int increment.toNat := rfl
  apply toValue_wrap
  rw [wrapper?, htime, hincrement, word?_toNat, word?_toNat]

/-! ### Trees -/

mutual

/-- A value is read back from its JSON form with the least width. -/
theorem toValue_ofValue : ∀ v : Value, v.isPlain = true → toValue (ofValue v) = .ok v.relaxed
  | .double x, _ => toValue_ofDouble x
  | .int64 n, _ => toValue_int64 n
  | .int32 n, _ => toValue_int32 n
  | .document ⟨fields⟩, h => by
    rw [Value.isPlain, Bool.and_eq_true, Bool.not_eq_true'] at h
    rw [ofValue, toValue, wrapped?_ofEntries h.1, toEntries_ofEntries fields h.2, Value.relaxed]
  | .array items, h => by
    rw [Value.isPlain] at h
    rw [ofValue, toValue, toItems_ofItems items h, Value.relaxed]
  | .scopedCode code ⟨fields⟩, h => by
    rw [Value.isPlain] at h
    have hread : wrapped? [("$code", .string code), ("$scope", .object ⟨ofEntries fields⟩)] =
        some (.ok (.scopedCode code ⟨Value.relaxedEntries fields⟩)) := by
      simp only [wrapped?, and_self, if_true, expectText, toEntries_ofEntries fields h]
    rw [ofValue, Json.ofMembers, toValue, hread, Value.relaxed]
  | .binary subtype bytes, _ => toValue_binary subtype bytes
  | .objectId id, _ => toValue_objectId id
  | .dbPointer collection id, _ => toValue_dbPointer collection id
  | .dateTime millis, _ => toValue_dateTime millis
  | .timestamp time increment, _ => toValue_timestamp time increment
  | .decimal128 _, h => absurd h Bool.false_ne_true
  | .string _, _ | .boolean _, _ | .null, _ => rfl
  | .undefined, _ | .regularExpression _ _, _ | .javaScript _, _ | .symbol _, _ | .minKey, _ | .maxKey, _ =>
    toValue_wrap rfl

theorem toEntries_ofEntries : ∀ fields : List (String × Value), Value.plainEntries fields = true →
    toEntries (ofEntries fields) = .ok (Value.relaxedEntries fields)
  | [], _ => rfl
  | (key, value) :: rest, h => by
    rw [Value.plainEntries, Bool.and_eq_true] at h
    rw [ofEntries, toEntries, toValue_ofValue value h.1, toEntries_ofEntries rest h.2, Value.relaxedEntries]

theorem toItems_ofItems : ∀ items : List Value, Value.plainItems items = true →
    toItems (ofItems items) = .ok (Value.relaxedItems items)
  | [], _ => rfl
  | item :: rest, h => by
    rw [Value.plainItems, Bool.and_eq_true] at h
    rw [ofItems, toItems, toValue_ofValue item h.1, toItems_ofItems rest h.2, Value.relaxedItems]

end

/-- What is written for a value without decimals, in which no document opens with a reserved name, is read as the same
value of least width; and so is what is written for a document, whose own first name is free. -/
theorem reading_of_written :
    (∀ v : Value, v.isPlain = true → toValue (ofValue v) = .ok v.relaxed) ∧
      ∀ d : Document, Value.plainEntries d.entries = true →
        toDocument (ofDocument d) = .ok ⟨Value.relaxedEntries d.entries⟩ := by
  constructor
  · exact toValue_ofValue
  · intro d hd
    rw [ofDocument, toDocument, toEntries_ofEntries d.entries hd]
    rfl

/-- An object that opens with a reserved name is taken for a wrapper. -/
example : toValue (ofValue (.document ⟨[("$minKey", .null)]⟩)) = .ok .minKey := rfl

/-- A value with what JSON does not keep: an integer that is wider than it needs to be, and a NaN with a payload. -/
def assorted : Value :=
  .array [.int64 7, .int64 4294967296, .double ⟨0xFFF0000000000001⟩, .double (.infinity true),
    .document ⟨[("code", .scopedCode "f()" ⟨[("$oid", .binary 128 [1, 2, 3, 255])]⟩), ("$at", .dateTime (-1))]⟩,
    .timestamp 4294967295 0]

theorem reading_of_written_assorted :
    (assorted.isPlain = true ∧ toValue (ofValue assorted) = .ok (.array
      [.int32 7, .int64 4294967296, .double .nan, .double (.infinity true),
        .document ⟨[("code", .scopedCode "f()" ⟨[("$oid", .binary 128 [1, 2, 3, 255])]⟩), ("$at", .dateTime (-1))]⟩,
        .timestamp 4294967295 0])) ∧
      Value.plainEntries [("$minKey", assorted)] = true ∧
        toDocument (ofDocument ⟨[("$minKey", assorted)]⟩) = .ok ⟨[("$minKey", assorted.relaxed)]⟩ := by
  have hplain : assorted.isPlain = true := by decide
  have hentries : Value.plainEntries [("$minKey", assorted)] = true := by decide
  refine ⟨⟨hplain, ?_⟩, hentries, ?_⟩
  · rw [reading_of_written.1 assorted hplain]
    rfl
  · exact reading_of_written.2 ⟨[("$minKey", assorted)]⟩ hentries

end ExtendedJson

end Aggregation
