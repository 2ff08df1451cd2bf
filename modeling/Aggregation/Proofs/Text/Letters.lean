import Aggregation.ExtendedJson.Basic
import Mathlib.Data.Nat.Digits.Defs

/-!
Bytes as letters and back. Two hexadecimal digits are one byte, and four letters of the sixty-four are three bytes; what
is written for bytes is read as these bytes.
-/

namespace Aggregation

namespace Hex

theorem value?_digit {n : Nat} (h : n < 16) : value? (digit n) = some n :=
  (by decide : ∀ n < 16, value? (digit n) = some n) n h

theorem digit_ne_plus {n : Nat} (h : n < 16) : digit n ≠ '+' :=
  (by decide : ∀ n < 16, digit n ≠ '+') n h

theorem toNat_digit_lt {n : Nat} (h : n < 16) : (digit n).toNat < 128 :=
  (by decide : ∀ n < 16, (digit n).toNat < 128) n h

theorem digitChar_eq_digit {n : Nat} (h : n < 16) : Nat.digitChar n = digit n :=
  (by decide : ∀ n < 16, Nat.digitChar n = digit n) n h

theorem toNat_div_lt (b : UInt8) : b.toNat / 16 < 16 := by
  have hb := b.toNat_lt
  omega

theorem toNat_mod_lt (b : UInt8) : b.toNat % 16 < 16 := Nat.mod_lt _ (by decide)

/-- A byte is read from its two digits. -/
theorem byte?_ofByte (b : UInt8) : byte? (ofByte b) = some b := by
  have hb := b.toNat_lt
  have hnatural : natural? (ofByte b) = some b.toNat := by
    rw [ofByte, natural?]
    · simp only [natural?.digitsValue?, List.foldlM_cons, List.foldlM_nil, value?_digit (toNat_div_lt b),
        value?_digit (toNat_mod_lt b), Option.map_some, Option.bind_eq_bind, Option.bind_some, Option.pure_def,
        Option.some.injEq]
      omega
    · intro rest h
      exact digit_ne_plus (toNat_div_lt b) (List.cons.inj h).1
  rw [byte?, hnatural]
  show (if b.toNat < 256 then _ else _) = _
  rw [if_pos hb, UInt8.ofNat_toNat]

/-- A byte is padded to the two digits that it is encoded as. -/
theorem toList_padded_two (b : UInt8) : (padded 2 b.toNat).toList = ofByte b := by
  have hb := b.toNat_lt
  rw [padded, String.toList_ofList, ofByte]
  by_cases hsmall : b.toNat < 16
  · have hdigits : Nat.toDigits 16 b.toNat = [digit (b.toNat % 16)] := by
      rw [Nat.toDigits_of_lt_base hsmall, digitChar_eq_digit hsmall, Nat.mod_eq_of_lt hsmall]
    rw [hdigits, Nat.div_eq_of_lt hsmall]
    rfl
  · have hdigits : Nat.toDigits 16 b.toNat = [digit (b.toNat / 16), digit (b.toNat % 16)] := by
      rw [Nat.toDigits_of_base_le (by decide) (Nat.le_of_not_lt hsmall), Nat.toDigits_of_lt_base (toNat_div_lt b),
        digitChar_eq_digit (toNat_div_lt b), digitChar_eq_digit (toNat_mod_lt b)]
      rfl
    rw [hdigits]
    rfl

theorem byte?_padded_two (b : UInt8) : byte? (padded 2 b.toNat).toList = some b := by
  rw [toList_padded_two, byte?_ofByte]

end Hex

namespace ExtendedJson

theorem bytePairs?_flatMap_ofByte (bytes : List UInt8) : bytePairs? (bytes.flatMap Hex.ofByte) = some bytes := by
  induction bytes with
  | nil => rfl
  | cons b rest ih =>
      have hbyte : Hex.byte? [Hex.digit (b.toNat / 16), Hex.digit (b.toNat % 16)] = some b := Hex.byte?_ofByte b
      rw [List.flatMap_cons]
      show bytePairs? (_ :: _ :: rest.flatMap Hex.ofByte) = _
      rw [bytePairs?, hbyte, ih]

/-- An object identifier is read from its digits. -/
theorem objectId?_toHex (id : ObjectId) : objectId? id.toHex = some id := by
  have hascii : (id.bytes.flatMap Hex.ofByte).all (·.toNat < 128) = true := by
    refine List.all_eq_true.2 fun c hc => ?_
    obtain ⟨b, -, hc⟩ := List.mem_flatMap.1 hc
    simp only [Hex.ofByte, List.mem_cons, List.not_mem_nil, or_false] at hc
    rcases hc with rfl | rfl
    · exact decide_eq_true (Hex.toNat_digit_lt (Hex.toNat_div_lt b))
    · exact decide_eq_true (Hex.toNat_digit_lt (Hex.toNat_mod_lt b))
  rw [objectId?, ObjectId.toHex, Hex.encode, String.toList_ofList, if_pos hascii, bytePairs?_flatMap_ofByte]
  show ObjectId.ofBytes? id.bytes = some id
  rw [ObjectId.ofBytes?, dif_pos id.size_eq]

end ExtendedJson

namespace Base64

theorem value?_letter {n : Nat} (h : n < 64) : value? (letter n) = some n :=
  (by decide : ∀ n < 64, value? (letter n) = some n) n h

theorem letter_ne_pad {n : Nat} (h : n < 64) : letter n ≠ '=' :=
  (by decide : ∀ n < 64, letter n ≠ '=') n h

/-- The bytes that a group of numbers spells are those it was taken from. -/
theorem firstByte_eq (a b : UInt8) : UInt8.ofNat (a.toNat / 4 * 4 + (a.toNat % 4 * 16 + b.toNat / 16) / 16) = a := by
  have hb := b.toNat_lt
  rw [show a.toNat / 4 * 4 + (a.toNat % 4 * 16 + b.toNat / 16) / 16 = a.toNat by omega, UInt8.ofNat_toNat]

theorem secondByte_eq (a b c : UInt8) :
    UInt8.ofNat ((a.toNat % 4 * 16 + b.toNat / 16) % 16 * 16 + (b.toNat % 16 * 4 + c.toNat / 64) / 4) = b := by
  have hb := b.toNat_lt
  have hc := c.toNat_lt
  rw [show (a.toNat % 4 * 16 + b.toNat / 16) % 16 * 16 + (b.toNat % 16 * 4 + c.toNat / 64) / 4 = b.toNat by omega,
    UInt8.ofNat_toNat]

theorem thirdByte_eq (b c : UInt8) : UInt8.ofNat ((b.toNat % 16 * 4 + c.toNat / 64) % 4 * 64 + c.toNat % 64) = c := by
  have hc := c.toNat_lt
  rw [show (b.toNat % 16 * 4 + c.toNat / 64) % 4 * 64 + c.toNat % 64 = c.toNat by omega, UInt8.ofNat_toNat]

/-- A group of four numbers is read from its letters, before whatever is read after it. -/
theorem decodeLetters_letters {k l m n : Nat} (hk : k < 64) (hl : l < 64) (hm : m < 64) (hn : n < 64)
    (letters : List Char) :
    decodeLetters (letter k :: letter l :: letter m :: letter n :: letters) =
      (decodeLetters letters).map fun bytes =>
        UInt8.ofNat (k * 4 + l / 16) :: UInt8.ofNat (l % 16 * 16 + m / 4) :: UInt8.ofNat (m % 4 * 64 + n) :: bytes := by
  rw [decodeLetters.eq_4 _ _ _ _ _ (fun h _ _ => letter_ne_pad hm h) (fun h _ => letter_ne_pad hn h),
    value?_letter hk, value?_letter hl, value?_letter hm, value?_letter hn]
  cases decodeLetters letters <;> rfl

/-- What is encoded is decoded again. -/
theorem decodeLetters_encodeBytes (bytes : List UInt8) : decodeLetters (encodeBytes bytes) = some bytes := by
  fun_induction encodeBytes bytes with
  | case1 => rfl
  | case2 a =>
      have ha := a.toNat_lt
      have hfirst : UInt8.ofNat (a.toNat / 4 * 4 + a.toNat % 4 * 16 / 16) = a := firstByte_eq a 0
      rw [decodeLetters.eq_2, value?_letter (by omega), value?_letter (by omega)]
      simp only [Option.bind_eq_bind, Option.bind_some]
      rw [if_pos (by omega), hfirst]
  | case3 a b =>
      have ha := a.toNat_lt
      have hb := b.toNat_lt
      have hsecond : UInt8.ofNat ((a.toNat % 4 * 16 + b.toNat / 16) % 16 * 16 + b.toNat % 16 * 4 / 4) = b :=
        secondByte_eq a b 0
      rw [decodeLetters.eq_3 _ _ _ (letter_ne_pad (by omega)), value?_letter (by omega), value?_letter (by omega),
        value?_letter (by omega)]
      simp only [Option.bind_eq_bind, Option.bind_some]
      rw [if_pos (by omega), firstByte_eq, hsecond]
  | case4 a b c rest ih =>
      have ha := a.toNat_lt
      have hb := b.toNat_lt
      have hc := c.toNat_lt
      rw [decodeLetters_letters (by omega) (by omega) (by omega) (by omega), ih, firstByte_eq, secondByte_eq, thirdByte_eq]
      rfl

theorem decode?_encode (bytes : List UInt8) : decode? (encode bytes) = some bytes := by
  rw [decode?, encode, String.toList_ofList, decodeLetters_encodeBytes]

end Base64

end Aggregation
