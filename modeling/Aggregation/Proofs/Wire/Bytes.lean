import Aggregation.Number.Decimal128
import Aggregation.Text.Utf8
import Mathlib.Algebra.Group.Nat.Even
import Mathlib.Tactic.IntervalCases

/-! Numbers and text as bytes. A number below `256 ^ count` is recovered from its lowest `count` bytes, and every
list of `count` bytes spells such a number, so the two readings are inverse to each other. Text holds a zero byte
exactly if it holds the NUL character, and none of it is lost when its bytes are read as any bytes are. -/

namespace Aggregation

theorem length_littleEndianBytes (count n : Nat) : (littleEndianBytes count n).length = count := by
  induction count generalizing n with
  | zero => rfl
  | succ count ih => rw [littleEndianBytes, List.length_cons, ih]

theorem littleEndian_cons (b : UInt8) (bytes : List UInt8) :
    littleEndian (b :: bytes) = b.toNat + 256 * littleEndian bytes := rfl

theorem littleEndian_lt (bytes : List UInt8) : littleEndian bytes < 256 ^ bytes.length := by
  induction bytes with
  | nil => decide
  | cons b bytes ih =>
      have hb := b.toNat_lt
      rw [littleEndian_cons, List.length_cons, Nat.pow_succ]
      omega

/-- The bytes of a number spell it, up to what they cannot hold. -/
theorem littleEndian_littleEndianBytes (count n : Nat) :
    littleEndian (littleEndianBytes count n) = n % 256 ^ count := by
  induction count generalizing n with
  | zero => rw [Nat.pow_zero, Nat.mod_one]; rfl
  | succ count ih =>
      have hsplit : n % 256 ^ (count + 1) = n % 256 + 256 * (n / 256 % 256 ^ count) := by
        rw [Nat.pow_succ, Nat.mul_comm (256 ^ count), Nat.mod_mul]
      rw [littleEndianBytes, littleEndian_cons, ih, UInt8.toNat_ofNat', hsplit]

theorem littleEndianBytes_littleEndian (bytes : List UInt8) :
    littleEndianBytes bytes.length (littleEndian bytes) = bytes := by
  induction bytes with
  | nil => rfl
  | cons b bytes ih =>
      have hb := b.toNat_lt
      have hlow : UInt8.ofNat (littleEndian (b :: bytes)) = b := by
        apply UInt8.toNat_inj.1
        rw [UInt8.toNat_ofNat', littleEndian_cons]
        omega
      have hhigh : littleEndian (b :: bytes) / 256 = littleEndian bytes := by
        rw [littleEndian_cons]
        omega
      rw [List.length_cons, littleEndianBytes, hlow, hhigh, ih]

/-- Bytes of a given number are those that spell something that agrees with it. -/
theorem eq_littleEndianBytes_iff {bytes : List UInt8} {count n : Nat} (hlength : bytes.length = count)
    (hn : n < 256 ^ count) : bytes = littleEndianBytes count n ↔ littleEndian bytes = n := by
  constructor
  · rintro rfl
    rw [littleEndian_littleEndianBytes, Nat.mod_eq_of_lt hn]
  · rintro rfl
    rw [← hlength, littleEndianBytes_littleEndian]

theorem littleEndian_eq_toNat_iff {bytes : List UInt8} {u : UInt64} :
    bytes.length = 8 ∧ UInt64.ofNat (littleEndian bytes) = u ↔ bytes = littleEndianBytes 8 u.toNat := by
  constructor
  · rintro ⟨hlength, rfl⟩
    have hlt := littleEndian_lt bytes
    rw [hlength] at hlt
    rw [eq_littleEndianBytes_iff hlength (UInt64.toNat_lt _), UInt64.toNat_ofNat_of_lt' hlt]
  · rintro rfl
    have hlength := length_littleEndianBytes 8 u.toNat
    exact ⟨hlength, by rw [(eq_littleEndianBytes_iff hlength u.toNat_lt).1 rfl, UInt64.ofNat_toNat]⟩

theorem littleEndian_eq_toNat32_iff {bytes : List UInt8} {u : UInt32} :
    bytes.length = 4 ∧ UInt32.ofNat (littleEndian bytes) = u ↔ bytes = littleEndianBytes 4 u.toNat := by
  constructor
  · rintro ⟨hlength, rfl⟩
    have hlt := littleEndian_lt bytes
    rw [hlength] at hlt
    rw [eq_littleEndianBytes_iff hlength (UInt32.toNat_lt _), UInt32.toNat_ofNat_of_lt' hlt]
  · rintro rfl
    have hlength := length_littleEndianBytes 4 u.toNat
    exact ⟨hlength, by rw [(eq_littleEndianBytes_iff hlength u.toNat_lt).1 rfl, UInt32.ofNat_toNat]⟩

theorem toNat_toUInt32_of_nonneg {n : Int32} (h : 0 ≤ n.toInt) : n.toUInt32.toNat = n.toInt.toNat :=
  Int32.toNat_toUInt32_of_le (Int32.le_iff_toInt_le.2 h)

/-- Bytes end at their first zero. -/
theorem append_zero_inj {x y rest rest' : List UInt8} (hx : 0 ∉ x) (hy : 0 ∉ y)
    (h : x ++ 0 :: rest = y ++ 0 :: rest') : x = y ∧ rest = rest' := by
  induction x generalizing y with
  | nil =>
      cases y with
      | nil => exact ⟨rfl, (List.cons.inj h).2⟩
      | cons b y => exact absurd ((List.cons.inj h).1 ▸ List.mem_cons_self) hy
  | cons a x ih =>
      cases y with
      | nil => exact absurd ((List.cons.inj h).1 ▸ List.mem_cons_self) hx
      | cons b y =>
          obtain ⟨rfl, htail⟩ := List.cons.inj h
          obtain ⟨rfl, hrest⟩ := ih (fun hmem => hx (List.mem_cons_of_mem _ hmem))
            (fun hmem => hy (List.mem_cons_of_mem _ hmem)) htail
          exact ⟨rfl, hrest⟩

namespace Utf8

theorem encode_inj {s t : String} (h : encode s = encode t) : s = t := by
  have hs := decode?_eq_some_iff.2 (rfl : encode s = encode s)
  have ht := decode?_eq_some_iff.2 h.symm
  exact Option.some.inj (hs.symm.trans ht)

theorem encode_eq_flatMap (text : String) : encode text = text.toList.flatMap String.utf8EncodeChar := by
  rw [encode, ← String.utf8Encode_toList, List.utf8Encode, List.data_toByteArray]

/-- Of the bytes of a character only those of the NUL hold a zero. -/
theorem zero_mem_utf8EncodeChar (c : Char) : 0 ∈ String.utf8EncodeChar c ↔ c = '\x00' := by
  have hnul : c = '\x00' ↔ c.val.toNat = 0 := by
    rw [Char.ext_iff, UInt32.toNat_inj.symm]
    rfl
  have hbyte (n : Nat) : 0 = UInt8.ofNat n ↔ n % 256 = 0 := by
    rw [← UInt8.toNat_inj, UInt8.toNat_ofNat', eq_comm]
    rfl
  have hlt := c.val.toNat_lt
  rw [hnul, String.utf8EncodeChar]
  split_ifs <;> simp only [List.mem_cons, List.not_mem_nil, or_false, hbyte] <;> omega

theorem zero_mem_encode (text : String) : 0 ∈ encode text ↔ '\x00' ∈ text.toList := by
  rw [encode_eq_flatMap, List.mem_flatMap]
  constructor
  · rintro ⟨c, hc, hzero⟩
    rwa [← (zero_mem_utf8EncodeChar c).1 hzero]
  · intro h
    exact ⟨_, h, (zero_mem_utf8EncodeChar _).2 rfl⟩

/-- The decimal digits of a number hold no NUL. -/
theorem zero_notMem_encode_toString (n : Nat) : 0 ∉ encode (toString n) := by
  rw [zero_mem_encode]
  intro hnul
  have hdigit : '\x00'.isDigit := by
    apply Nat.isDigit_of_mem_toDigits (b := 10) (n := n) (by decide) (by decide)
    rwa [← Nat.toList_repr]
  exact absurd hdigit (by decide)

/-! ## Reading any bytes -/

/-- The first of two bytes. -/
theorem start_ofNat_two {n : Nat} (hlow : 2 ≤ n) (hhigh : n < 32) :
    start (UInt8.ofNat (n + 192)) = .begun ⟨1, 0x80, 0xBF, n⟩ := by
  interval_cases n <;> rfl

/-- The first of three bytes. -/
theorem start_ofNat_three {n : Nat} (h : n < 16) :
    start (UInt8.ofNat (n + 224)) = .begun ⟨2, if n = 0 then 0xA0 else 0x80, if n = 13 then 0x9F else 0xBF, n⟩ := by
  interval_cases n <;> rfl

/-- The first of four bytes. -/
theorem start_ofNat_four {n : Nat} (h : n < 5) :
    start (UInt8.ofNat (n + 240)) = .begun ⟨3, if n = 0 then 0x90 else 0x80, if n = 4 then 0x8F else 0xBF, n⟩ := by
  interval_cases n <;> rfl

/-- A byte that continues a character. -/
theorem lossyFrom_next {missing n value : Nat} {low high : UInt8} (hn : n < 64) (hlow : low.toNat ≤ n + 128)
    (hhigh : n + 128 ≤ high.toNat) (rest : List UInt8) :
    lossyFrom (some ⟨missing, low, high, value⟩) (UInt8.ofNat (n + 128) :: rest) =
      if missing ≤ 1 then Char.ofNat (value * 64 + n) :: lossyFrom none rest
      else lossyFrom (some ⟨missing - 1, 0x80, 0xBF, value * 64 + n⟩) rest := by
  have hb : (UInt8.ofNat (n + 128)).toNat = n + 128 := by
    rw [UInt8.toNat_ofNat']
    omega
  have hbounds : low ≤ UInt8.ofNat (n + 128) ∧ UInt8.ofNat (n + 128) ≤ high := by
    rw [UInt8.le_iff_toNat_le, UInt8.le_iff_toNat_le, hb]
    exact ⟨hlow, hhigh⟩
  rw [lossyFrom, if_pos hbounds, hb, Nat.add_sub_cancel]

/-- The last byte of a character. -/
theorem lossyFrom_last {n value : Nat} (hn : n < 64) (rest : List UInt8) :
    lossyFrom (some ⟨1, 0x80, 0xBF, value⟩) (UInt8.ofNat (n + 128) :: rest) =
      Char.ofNat (value * 64 + n) :: lossyFrom none rest := by
  have hlow : (0x80 : UInt8).toNat ≤ n + 128 := Nat.le_add_left 128 n
  have hhigh : n + 128 ≤ (0xBF : UInt8).toNat := show n + 128 ≤ 191 by omega
  exact (lossyFrom_next hn hlow hhigh rest).trans (if_pos (Nat.le_refl 1))

/-- A character of one byte. -/
theorem lossyFrom_one {v : Nat} (h : v ≤ 127) (rest : List UInt8) :
    lossyFrom none (UInt8.ofNat v :: rest) = Char.ofNat v :: lossyFrom none rest := by
  have hv : (UInt8.ofNat v).toNat = v := by
    rw [UInt8.toNat_ofNat']
    omega
  have hlt : UInt8.ofNat v < 0x80 := by
    rw [UInt8.lt_iff_toNat_lt, hv]
    exact Nat.lt_succ_of_le h
  rw [lossyFrom, start, if_pos hlt, hv]

/-- A character of two bytes. -/
theorem lossyFrom_two {v : Nat} (hlow : 127 < v) (hhigh : v ≤ 2047) (rest : List UInt8) :
    lossyFrom none (UInt8.ofNat (v / 64 % 32 + 192) :: UInt8.ofNat (v % 64 + 128) :: rest) =
      Char.ofNat v :: lossyFrom none rest := by
  have hvalue : v / 64 * 64 + v % 64 = v := by omega
  rw [Nat.mod_eq_of_lt (show v / 64 < 32 by omega), lossyFrom, start_ofNat_two (by omega) (by omega)]
  exact (lossyFrom_last (by omega) rest).trans (by rw [hvalue])

/-- A character of three bytes. No surrogate is one, and none of those that take less. -/
theorem lossyFrom_three {v : Nat} (hlow : 2047 < v) (hhigh : v ≤ 65535) (hsurrogate : v < 55296 ∨ 57343 < v)
    (rest : List UInt8) :
    lossyFrom none (UInt8.ofNat (v / 4096 % 16 + 224) :: UInt8.ofNat (v / 64 % 64 + 128) ::
      UInt8.ofNat (v % 64 + 128) :: rest) = Char.ofNat v :: lossyFrom none rest := by
  have hvalue : (v / 4096 * 64 + v / 64 % 64) * 64 + v % 64 = v := by omega
  have hleast : (if v / 4096 = 0 then (0xA0 : UInt8) else 0x80).toNat ≤ v / 64 % 64 + 128 := by
    split_ifs
    · show 160 ≤ _
      omega
    · exact Nat.le_add_left 128 _
  have hmost : v / 64 % 64 + 128 ≤ (if v / 4096 = 13 then (0x9F : UInt8) else 0xBF).toNat := by
    split_ifs
    · show _ ≤ 159
      omega
    · show _ ≤ 191
      omega
  rw [Nat.mod_eq_of_lt (show v / 4096 < 16 by omega), lossyFrom, start_ofNat_three (by omega)]
  refine (lossyFrom_next (by omega) hleast hmost _).trans ?_
  exact (lossyFrom_last (by omega) rest).trans (by rw [hvalue])

/-- A character of four bytes. -/
theorem lossyFrom_four {v : Nat} (hlow : 65535 < v) (hhigh : v < 1114112) (rest : List UInt8) :
    lossyFrom none (UInt8.ofNat (v / 262144 % 8 + 240) :: UInt8.ofNat (v / 4096 % 64 + 128) ::
      UInt8.ofNat (v / 64 % 64 + 128) :: UInt8.ofNat (v % 64 + 128) :: rest) =
        Char.ofNat v :: lossyFrom none rest := by
  have hvalue : ((v / 262144 * 64 + v / 4096 % 64) * 64 + v / 64 % 64) * 64 + v % 64 = v := by omega
  have hleast : (if v / 262144 = 0 then (0x90 : UInt8) else 0x80).toNat ≤ v / 4096 % 64 + 128 := by
    split_ifs
    · show 144 ≤ _
      omega
    · exact Nat.le_add_left 128 _
  have hmost : v / 4096 % 64 + 128 ≤ (if v / 262144 = 4 then (0x8F : UInt8) else 0xBF).toNat := by
    split_ifs
    · show _ ≤ 143
      omega
    · show _ ≤ 191
      omega
  rw [Nat.mod_eq_of_lt (show v / 262144 < 8 by omega), lossyFrom, start_ofNat_four (by omega)]
  refine (lossyFrom_next (by omega) hleast hmost _).trans ?_
  refine (lossyFrom_next (by omega) (Nat.le_add_left 128 _) (show _ ≤ 191 by omega) _).trans ?_
  exact (lossyFrom_last (by omega) rest).trans (by rw [hvalue])

/-- The bytes of a character are read as it. -/
theorem lossyFrom_utf8EncodeChar (c : Char) (rest : List UInt8) :
    lossyFrom none (String.utf8EncodeChar c ++ rest) = c :: lossyFrom none rest := by
  have hvalid : c.val.toNat.isValidChar := c.valid
  rw [Nat.isValidChar] at hvalid
  rw [String.utf8EncodeChar]
  -- the character that is read is the one with the number of `c`
  conv => rhs; rw [← Char.ofNat_toNat c, Char.toNat]
  split_ifs with hone htwo hthree
  · exact lossyFrom_one hone rest
  · exact lossyFrom_two (Nat.lt_of_not_le hone) htwo rest
  · exact lossyFrom_three (Nat.lt_of_not_le htwo) hthree (hvalid.imp_right And.left) rest
  · exact lossyFrom_four (Nat.lt_of_not_le hthree) (by omega) rest

/-- Of bytes that are text nothing is lost. -/
theorem lossy_encode (text : String) : lossy (encode text) = text := by
  have hall (cs : List Char) : lossyFrom none (cs.flatMap String.utf8EncodeChar) = cs := by
    induction cs with
    | nil => rfl
    | cons c rest ih => rw [List.flatMap_cons, lossyFrom_utf8EncodeChar, ih]
  rw [lossy, encode_eq_flatMap, hall, String.ofList_toList]

end Utf8

end Aggregation
