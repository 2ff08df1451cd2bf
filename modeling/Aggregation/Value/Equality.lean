import Aggregation.Value.Basic

/-! Two equalities of values. Both are structural, and documents are equal only if they hold equal values under
the same names in the same order; they differ on doubles. `same` compares doubles by their bits, so it is
the equality of the type itself: a NaN is the same as itself, and the two zeros are not the same. `numericEq`
compares doubles as numbers. -/

namespace Aggregation.Value

mutual

/-- Structural equality over a given comparison of doubles. -/
def agree (eq : Binary64 → Binary64 → Bool) : Value → Value → Bool
  | .double x, .double y => eq x y
  | .string s, .string t => s == t
  | .document ⟨d⟩, .document ⟨e⟩ => agreeEntries eq d e
  | .array xs, .array ys => agreeItems eq xs ys
  | .binary s b, .binary t c => s == t && b == c
  | .undefined, .undefined => true
  | .objectId i, .objectId j => i.bytes == j.bytes
  | .boolean b, .boolean c => b == c
  | .dateTime m, .dateTime n => m == n
  | .null, .null => true
  | .regularExpression p o, .regularExpression q r => p == q && o == r
  | .dbPointer c i, .dbPointer d j => c == d && i.bytes == j.bytes
  | .javaScript c, .javaScript d => c == d
  | .symbol s, .symbol t => s == t
  | .scopedCode c ⟨d⟩, .scopedCode c' ⟨e⟩ => c == c' && agreeEntries eq d e
  | .int32 m, .int32 n => m == n
  | .timestamp t i, .timestamp u j => t == u && i == j
  | .int64 m, .int64 n => m == n
  | .decimal128 d, .decimal128 e => d.bytes == e.bytes
  | .minKey, .minKey => true
  | .maxKey, .maxKey => true
  | _, _ => false

def agreeEntries (eq : Binary64 → Binary64 → Bool) : List (String × Value) → List (String × Value) → Bool
  | [], [] => true
  | (k, v) :: rest, (l, w) :: rest' => k == l && agree eq v w && agreeEntries eq rest rest'
  | _, _ => false

def agreeItems (eq : Binary64 → Binary64 → Bool) : List Value → List Value → Bool
  | [], [] => true
  | v :: rest, w :: rest' => agree eq v w && agreeItems eq rest rest'
  | _, _ => false

end

/-- Equality that compares doubles by their bits. -/
def same (v w : Value) : Bool := agree (fun x y => x.bits == y.bits) v w

/-- Equality that compares doubles as numbers. -/
def numericEq (v w : Value) : Bool := agree Binary64.numericEq v w

mutual

private theorem eq_of_agree :
    ∀ {v w : Value}, agree (fun x y => x.bits == y.bits) v w = true → v = w
  | .double ⟨x⟩, w, h => by cases w <;> simp_all [agree]
  | .document ⟨d⟩, w, h => by
    cases w <;> simp only [agree, Bool.false_eq_true] at h
    exact congrArg Value.document (congrArg Record.mk (eq_of_agreeEntries h))
  | .array xs, w, h => by
    cases w <;> simp only [agree, Bool.false_eq_true] at h
    exact congrArg Value.array (eq_of_agreeItems h)
  | .scopedCode c ⟨d⟩, w, h => by
    cases w <;> simp only [agree, Bool.false_eq_true, Bool.and_eq_true, beq_iff_eq] at h
    obtain ⟨rfl, h⟩ := h
    exact congrArg (Value.scopedCode c) (congrArg Record.mk (eq_of_agreeEntries h))
  | .objectId ⟨i, _⟩, w, h => by cases w <;> simp_all [agree]
  | .dbPointer c ⟨i, _⟩, w, h => by cases w <;> simp_all [agree]
  | .decimal128 ⟨d, _⟩, w, h => by cases w <;> simp_all [agree]
  | .string _, w, h | .binary _ _, w, h | .undefined, w, h | .boolean _, w, h | .dateTime _, w, h
  | .null, w, h | .regularExpression _ _, w, h | .javaScript _, w, h | .symbol _, w, h
  | .int32 _, w, h | .timestamp _ _, w, h | .int64 _, w, h | .minKey, w, h | .maxKey, w, h => by
    cases w <;> simp_all [agree]

private theorem eq_of_agreeEntries :
    ∀ {d e : List (String × Value)}, agreeEntries (fun x y => x.bits == y.bits) d e = true → d = e
  | [], e, h => by cases e <;> simp_all [agreeEntries]
  | (k, v) :: rest, e, h => by
    cases e with
    | nil => simp [agreeEntries] at h
    | cons f rest' =>
      simp only [agreeEntries, Bool.and_eq_true, beq_iff_eq] at h
      obtain ⟨⟨rfl, hv⟩, hr⟩ := h
      rw [eq_of_agree hv, eq_of_agreeEntries hr]

private theorem eq_of_agreeItems :
    ∀ {xs ys : List Value}, agreeItems (fun x y => x.bits == y.bits) xs ys = true → xs = ys
  | [], ys, h => by cases ys <;> simp_all [agreeItems]
  | v :: rest, ys, h => by
    cases ys with
    | nil => simp [agreeItems] at h
    | cons w rest' =>
      simp only [agreeItems, Bool.and_eq_true] at h
      rw [eq_of_agree h.1, eq_of_agreeItems h.2]

end

mutual

private theorem agree_self : ∀ v : Value, agree (fun x y => x.bits == y.bits) v v = true
  | .document ⟨d⟩ => by simpa only [agree] using agreeEntries_self d
  | .array xs => by simpa only [agree] using agreeItems_self xs
  | .scopedCode c ⟨d⟩ => by simp [agree, agreeEntries_self d]
  | .double _ | .objectId _ | .dbPointer _ _ | .decimal128 _ | .string _ | .binary _ _ | .undefined
  | .boolean _ | .dateTime _ | .null | .regularExpression _ _ | .javaScript _ | .symbol _ | .int32 _
  | .timestamp _ _ | .int64 _ | .minKey | .maxKey => by simp [agree]

private theorem agreeEntries_self :
    ∀ d : List (String × Value), agreeEntries (fun x y => x.bits == y.bits) d d = true
  | [] => rfl
  | (_, v) :: rest => by simp [agreeEntries, agree_self v, agreeEntries_self rest]

private theorem agreeItems_self :
    ∀ xs : List Value, agreeItems (fun x y => x.bits == y.bits) xs xs = true
  | [] => rfl
  | v :: rest => by simp [agreeItems, agree_self v, agreeItems_self rest]

end

theorem same_iff_eq {v w : Value} : v.same w = true ↔ v = w :=
  ⟨eq_of_agree, fun h => h ▸ agree_self v⟩

instance : DecidableEq Value := fun _ _ => decidable_of_iff _ same_iff_eq

end Aggregation.Value

namespace Aggregation.Record

def same (d e : Document) : Bool := Value.agreeEntries (fun x y => x.bits == y.bits) d.entries e.entries

/-- Equality of documents that compares doubles as numbers. -/
def numericEq (d e : Document) : Bool := Value.agreeEntries Binary64.numericEq d.entries e.entries

theorem same_iff_eq {d e : Document} : same d e = true ↔ d = e := by
  have h : same d e = Value.same (.document d) (.document e) := by
    cases d; cases e; simp [same, Value.same, Value.agree]
  rw [h, Value.same_iff_eq, Value.document.injEq]

end Aggregation.Record
