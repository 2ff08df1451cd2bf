import Aggregation.Proofs.ExtendedJson.RoundTrip

/-!
Object identifiers as text. An identifier is written as twenty-four hexadecimal digits and read back in pairs, each of
them by the reader of numbers, which knows digits in both cases and also a plus before a number. So a pair may open with
a plus, which counts as a zero, and a text without a plus is read exactly if it is twenty-four digits.
-/

namespace Aggregation

namespace Hex

/-- A hexadecimal digit in either case. -/
def IsDigit (c : Char) : Prop := '0' ≤ c ∧ c ≤ '9' ∨ 'a' ≤ c ∧ c ≤ 'f' ∨ 'A' ≤ c ∧ c ≤ 'F'

instance : DecidablePred IsDigit := fun _ => inferInstanceAs (Decidable (_ ∨ _ ∨ _))

variable {a b c : Char}

theorem toNat_lt_of_isDigit (h : IsDigit c) : c.toNat < 128 := by
  have hbound : ∀ d : Char, d.toNat < 128 → c ≤ d → c.toNat < 128 := fun d hd hcd =>
    Nat.lt_of_le_of_lt (UInt32.le_iff_toNat_le.1 hcd) hd
  rcases h with h | h | h
  · exact hbound '9' (by decide) h.2
  · exact hbound 'f' (by decide) h.2
  · exact hbound 'F' (by decide) h.2

theorem isDigit_ne_plus (h : IsDigit c) : c ≠ '+' := by
  rintro rfl
  exact absurd h (by decide)

/-- The number of a digit is written as the digit in lower case. -/
theorem exists_value?_of_isDigit (h : IsDigit c) : ∃ n < 16, value? c = some n ∧ digit n = c.toLower := by
  have hall : ∀ n < 128, IsDigit (Char.ofNat n) →
      ∃ m < 16, value? (Char.ofNat n) = some m ∧ digit m = (Char.ofNat n).toLower := by decide
  have hc := hall c.toNat (toNat_lt_of_isDigit h)
  rw [Char.ofNat_toNat] at hc
  exact hc h

theorem value?_eq_none (h : ¬ IsDigit c) : value? c = none := by
  rw [IsDigit, not_or, not_or] at h
  rw [value?, if_neg h.1, if_neg h.2.1, if_neg h.2.2]

/-- What the reader of numbers takes for a pair of digits. -/
def IsPair (a b : Char) : Prop := (IsDigit a ∨ a = '+') ∧ IsDigit b

instance (a b : Char) : Decidable (IsPair a b) := inferInstanceAs (Decidable (_ ∧ _))

/-- The digit that a character of a pair counts as. -/
def counted (c : Char) : Char := if c = '+' then '0' else c.toLower

theorem counted_of_isDigit (h : IsDigit c) : counted c = c.toLower := if_neg (isDigit_ne_plus h)

theorem byte?_eq_of_natural? {text : List Char} {n : Nat} (h : natural? text = some n) (hn : n < 256) :
    byte? text = some (UInt8.ofNat n) := by
  rw [byte?, h]
  exact if_pos hn

theorem ofByte_ofNat {m n : Nat} (hm : m < 16) (hn : n < 16) : ofByte (UInt8.ofNat (16 * m + n)) = [digit m, digit n] := by
  have hsmall : 16 * m + n < 256 := by omega
  have hbyte : (UInt8.ofNat (16 * m + n)).toNat = 16 * m + n := UInt8.toNat_ofNat_of_lt' hsmall
  rw [ofByte, hbyte, show (16 * m + n) / 16 = m by omega, show (16 * m + n) % 16 = n by omega]

/-- A pair is read as the byte whose digits it counts as. -/
theorem exists_byte?_of_isPair (h : IsPair a b) : ∃ byte, byte? [a, b] = some byte ∧ ofByte byte = [counted a, counted b] := by
  obtain ⟨hlead, hb⟩ := h
  obtain ⟨n, hn, hvalue, hdigit⟩ := exists_value?_of_isDigit hb
  rw [counted_of_isDigit hb, ← hdigit]
  by_cases hplus : a = '+'
  · have hnatural : natural? ['+', b] = some (16 * 0 + n) := by
      simp only [natural?, natural?.digitsValue?, List.foldlM_cons, List.foldlM_nil, hvalue, Option.map_some,
        Option.bind_eq_bind, Option.bind_some, Option.pure_def]
    rw [hplus]
    exact ⟨_, byte?_eq_of_natural? hnatural (by omega), ofByte_ofNat (by decide) hn⟩
  · have ha := hlead.resolve_right hplus
    obtain ⟨m, hm, hvalue', hdigit'⟩ := exists_value?_of_isDigit ha
    have hnatural : natural? [a, b] = some (16 * m + n) := by
      rw [natural?]
      · simp only [natural?.digitsValue?, List.foldlM_cons, List.foldlM_nil, hvalue, hvalue', Option.map_some,
          Option.bind_eq_bind, Option.bind_some, Option.pure_def, Nat.mul_zero, Nat.zero_add]
      · intro rest h
        exact hplus (List.cons.inj h).1
    rw [counted_of_isDigit ha, ← hdigit']
    exact ⟨_, byte?_eq_of_natural? hnatural (by omega), ofByte_ofNat hm hn⟩

theorem byte?_eq_none (h : ¬ IsPair a b) : byte? [a, b] = none := by
  have hnatural : natural? [a, b] = none := by
    by_cases hplus : a = '+'
    · have hb : ¬ IsDigit b := fun hb => h ⟨.inr hplus, hb⟩
      simp only [hplus, natural?, natural?.digitsValue?, List.foldlM_cons, value?_eq_none hb, Option.map_none,
        Option.bind_eq_bind, Option.bind_none]
    · rw [natural?]
      · by_cases ha : IsDigit a
        · have hb : ¬ IsDigit b := fun hb => h ⟨.inl ha, hb⟩
          obtain ⟨m, -, hvalue, -⟩ := exists_value?_of_isDigit ha
          simp only [natural?.digitsValue?, List.foldlM_cons, hvalue, value?_eq_none hb, Option.map_some,
            Option.map_none, Option.bind_eq_bind, Option.bind_some, Option.bind_none]
        · simp only [natural?.digitsValue?, List.foldlM_cons, value?_eq_none ha, Option.map_none, Option.bind_eq_bind,
            Option.bind_none]
      · intro rest h
        exact hplus (List.cons.inj h).1
  rw [byte?, hnatural]
  rfl

theorem length_flatMap_ofByte (bytes : List UInt8) : (bytes.flatMap ofByte).length = 2 * bytes.length := by
  induction bytes with
  | nil => rfl
  | cons byte rest ih =>
      rw [List.flatMap_cons, List.length_append, ih, List.length_cons]
      show 2 + _ = _
      omega

/-- A text that falls into pairs. -/
def ArePairs : List Char → Prop
  | [] => True
  | [_] => False
  | a :: b :: rest => IsPair a b ∧ ArePairs rest

instance decidableArePairs : (text : List Char) → Decidable (ArePairs text)
  | [] => inferInstanceAs (Decidable True)
  | [_] => inferInstanceAs (Decidable False)
  | a :: b :: rest =>
    have := decidableArePairs rest
    inferInstanceAs (Decidable (IsPair a b ∧ ArePairs rest))

theorem toNat_lt_of_arePairs {text : List Char} (h : ArePairs text) : ∀ c ∈ text, c.toNat < 128 := by
  fun_induction ArePairs text with
  | case1 => exact List.forall_mem_nil _
  | case2 => exact h.elim
  | case3 a b rest ih =>
      obtain ⟨⟨ha, hb⟩, hrest⟩ := h
      have hlead : a.toNat < 128 := by
        rcases ha with ha | rfl
        · exact toNat_lt_of_isDigit ha
        · decide
      exact List.forall_mem_cons.2 ⟨hlead, List.forall_mem_cons.2 ⟨toNat_lt_of_isDigit hb, ih hrest⟩⟩

/-- Without a plus the pairs are pairs of digits. -/
theorem arePairs_iff_of_not_plus {text : List Char} (h : '+' ∉ text) :
    ArePairs text ↔ text.length % 2 = 0 ∧ ∀ c ∈ text, IsDigit c := by
  fun_induction ArePairs text with
  | case1 => simp
  | case2 => simp
  | case3 a b rest ih =>
      rw [List.mem_cons, List.mem_cons, not_or, not_or] at h
      have ha : a ≠ '+' := Ne.symm h.1
      have hlength : (a :: b :: rest).length % 2 = rest.length % 2 := Nat.add_mod_right _ 2
      rw [ih h.2.2, IsPair, or_iff_left ha, List.forall_mem_cons, List.forall_mem_cons, hlength]
      tauto

end Hex

namespace ExtendedJson

open Hex

variable {text : List Char}

theorem exists_bytePairs?_of_arePairs (h : ArePairs text) :
    ∃ bytes, bytePairs? text = some bytes ∧ bytes.flatMap ofByte = text.map counted := by
  fun_induction ArePairs text with
  | case1 => exact ⟨[], rfl, rfl⟩
  | case2 => exact h.elim
  | case3 a b rest ih =>
      obtain ⟨byte, hbyte, hdigits⟩ := exists_byte?_of_isPair h.1
      obtain ⟨bytes, hbytes, hrest⟩ := ih h.2
      refine ⟨byte :: bytes, ?_, ?_⟩
      · rw [bytePairs?, hbyte, hbytes]
      · rw [List.flatMap_cons, hdigits, hrest]
        rfl

theorem bytePairs?_eq_none (h : ¬ ArePairs text) : bytePairs? text = none := by
  fun_induction ArePairs text with
  | case1 => exact absurd trivial h
  | case2 => rfl
  | case3 a b rest ih =>
      rw [bytePairs?]
      by_cases hpair : IsPair a b
      · rw [ih fun hrest => h ⟨hpair, hrest⟩]
        cases byte? [a, b] <;> rfl
      · rw [byte?_eq_none hpair]

/-- Twenty-four characters that fall into pairs. -/
def SpellsId (text : String) : Prop := text.toList.length = 24 ∧ ArePairs text.toList

instance (text : String) : Decidable (SpellsId text) := inferInstanceAs (Decidable (_ ∧ _))

/-- The digits that a text is taken for. -/
def countedText (text : String) : String := String.ofList (text.toList.map counted)

theorem exists_objectId?_of_spellsId {text : String} (h : SpellsId text) :
    ∃ id, objectId? text = some id ∧ id.toHex = countedText text := by
  obtain ⟨hlength, hpairs⟩ := h
  obtain ⟨bytes, hbytes, hdigits⟩ := exists_bytePairs?_of_arePairs hpairs
  have hascii : text.toList.all (·.toNat < 128) = true :=
    List.all_eq_true.2 fun c hc => decide_eq_true (toNat_lt_of_arePairs hpairs c hc)
  have hsize : bytes.length = 12 := by
    have htwo := length_flatMap_ofByte bytes
    rw [hdigits, List.length_map, hlength] at htwo
    omega
  refine ⟨⟨bytes, hsize⟩, ?_, ?_⟩
  · rw [objectId?, if_pos hascii, hbytes]
    exact dif_pos hsize
  · rw [ObjectId.toHex, encode, hdigits, countedText]

theorem objectId?_eq_none {text : String} (h : ¬ SpellsId text) : objectId? text = none := by
  rw [objectId?]
  split
  · by_cases hpairs : ArePairs text.toList
    · obtain ⟨bytes, hbytes, hdigits⟩ := exists_bytePairs?_of_arePairs hpairs
      have hsize : bytes.length ≠ 12 := by
        intro hsize
        have htwo := length_flatMap_ofByte bytes
        rw [hdigits, List.length_map] at htwo
        exact h ⟨by omega, hpairs⟩
      rw [hbytes]
      exact dif_neg hsize
    · rw [bytePairs?_eq_none hpairs]
      rfl
  · rfl

/-- What comes of the text of an identifier, alone or in a database pointer. -/
def ReadAs (text : String) (result : Except Fault ObjectId) : Prop :=
  toValue (wrap "$oid" (.string text)) = result.map .objectId ∧
    ∀ (j : Json) (collection : String), j.member "$ref" = .string collection →
      (j.member "$id").member "$oid" = .string text →
      toValue (wrap "$dbPointer" j) = result.map (.dbPointer collection)

theorem readAs_readObjectId (text : String) : ReadAs text (readObjectId text) := by
  refine ⟨?_, fun j collection href hid => ?_⟩
  · apply toValue_wrap
    show some (do return Value.objectId (← readObjectId text)) = _
    cases readObjectId text <;> rfl
  · apply toValue_wrap
    show some (do
      let collection ← expectText "$ref" (j.member "$ref")
      let text ← expectText "$id" ((j.member "$id").member "$oid")
      return Value.dbPointer collection (← readObjectId text)) = _
    rw [href, hid]
    show some (do return Value.dbPointer collection (← readObjectId text)) = _
    cases readObjectId text <;> rfl

/-- The text of an identifier is read exactly if it is twelve pairs, as the identifier that is written with the digits
that these count as; every other text is refused. A text without a plus is twelve pairs exactly if it is twenty-four
digits, and then it counts as itself in lower case. -/
theorem reading_objectId (text : String) :
    (SpellsId text → ∃ id : ObjectId, id.toHex = countedText text ∧ ReadAs text (.ok id)) ∧
      (¬ SpellsId text → ReadAs text (.error (.objectId text))) ∧
      ('+' ∉ text.toList →
        (SpellsId text ↔ text.toList.length = 24 ∧ ∀ c ∈ text.toList, IsDigit c) ∧
          (SpellsId text → countedText text = text.toLower)) := by
  have hread := readAs_readObjectId text
  rw [readObjectId] at hread
  refine ⟨fun h => ?_, fun h => ?_, fun hplus => ?_⟩
  · obtain ⟨id, hid, hhex⟩ := exists_objectId?_of_spellsId h
    rw [hid] at hread
    exact ⟨id, hhex, hread⟩
  · rwa [objectId?_eq_none h] at hread
  · have hiff : SpellsId text ↔ text.toList.length = 24 ∧ ∀ c ∈ text.toList, IsDigit c := by
      rw [SpellsId, arePairs_iff_of_not_plus hplus]
      constructor
      · rintro ⟨hlength, -, hdigits⟩
        exact ⟨hlength, hdigits⟩
      · rintro ⟨hlength, hdigits⟩
        exact ⟨hlength, by rw [hlength], hdigits⟩
    refine ⟨hiff, fun h => ?_⟩
    have hdigits := (hiff.1 h).2
    calc countedText text
      _ = String.ofList (text.toList.map Char.toLower) := by
        rw [countedText, List.map_congr_left fun c hc => counted_of_isDigit (hdigits c hc)]
      _ = text.map Char.toLower := by rw [← String.toList_map, String.ofList_toList]

/-- A text of digits in both cases, one whose last pair opens with a plus, and one whose last pair ends with it. -/
theorem reading_objectId_bothCases :
    (SpellsId "0123456789abcdefABCDEF+f" ∧
      ∃ id : ObjectId, id.toHex = "0123456789abcdefabcdef0f" ∧ ReadAs "0123456789abcdefABCDEF+f" (.ok id)) ∧
      (¬ SpellsId "0123456789abcdefABCDEFf+" ∧
        ReadAs "0123456789abcdefABCDEFf+" (.error (.objectId "0123456789abcdefABCDEFf+"))) ∧
      '+' ∉ "0123456789abcdefABCDEF0f".toList ∧ SpellsId "0123456789abcdefABCDEF0f" ∧
        countedText "0123456789abcdefABCDEF0f" = "0123456789abcdefABCDEF0f".toLower := by
  have hplus : SpellsId "0123456789abcdefABCDEF+f" := by decide +kernel
  have hlast : ¬ SpellsId "0123456789abcdefABCDEFf+" := by decide +kernel
  have hnone : '+' ∉ "0123456789abcdefABCDEF0f".toList := by decide +kernel
  have hdigits : SpellsId "0123456789abcdefABCDEF0f" := by decide +kernel
  obtain ⟨id, hhex, hread⟩ := (reading_objectId _).1 hplus
  refine ⟨⟨hplus, id, hhex.trans (by decide +kernel), hread⟩, ⟨hlast, (reading_objectId _).2.1 hlast⟩, hnone, hdigits, ?_⟩
  exact ((reading_objectId _).2.2 hnone).2 hdigits

/-- Twelve pluses and twelve digits are read as an identifier. -/
theorem reading_objectId_pluses_ne :
    ∃ id : ObjectId, toValue (wrap "$oid" (.string "+1+1+1+1+1+1+1+1+1+1+1+1")) = .ok (.objectId id) ∧
      id.toHex = "010101010101010101010101" ∧ id.toHex ≠ "+1+1+1+1+1+1+1+1+1+1+1+1".toLower ∧
      ¬ ∀ c ∈ "+1+1+1+1+1+1+1+1+1+1+1+1".toList, IsDigit c := by
  refine ⟨⟨List.replicate 12 1, rfl⟩, rfl, by decide +kernel, by decide +kernel, fun hdigits => ?_⟩
  have hmem : '+' ∈ "+1+1+1+1+1+1+1+1+1+1+1+1".toList := by decide +kernel
  exact absurd (hdigits '+' hmem) (by decide)

end ExtendedJson

end Aggregation
