import Aggregation.Proofs.Text.Numerals
import Aggregation.Proofs.Wire.Bytes

/-!
Decimals of 128 bits and the numbers that their texts are read as. A reader that knows an optional minus, digits, an
optional fraction and an optional exponent recovers the sign, the digits of the coefficient and the exponent from every
layout, and with them, in the form that is not shifted, every bit.
-/

namespace Aggregation.Decimal128

/-! ### Reading a decimal text -/

/-- A decimal text as it is read: its digits on both sides of the point, and the power of ten that the last stands for. -/
structure Reading where
  negative : Bool
  digits : List Char
  exponent : Int
  deriving DecidableEq, Repr

namespace Reading

/-- The number that the digits spell. -/
def coefficient (r : Reading) : Nat := Numeral.ofDigits r.digits

/-- The digits from the first that is not zero on. -/
def significant (r : Reading) : List Char := r.digits.dropWhile (· == '0')

/-- The digits behind a point, if there is one, and what follows. -/
def splitFraction : List Char → List Char × List Char
  | '.' :: rest => (rest.takeWhile Numeral.isDigit, rest.dropWhile Numeral.isDigit)
  | rest => ([], rest)

/-- An exponent behind its mark; without a mark it is zero. -/
def scale? : List Char → Option Int
  | [] => some 0
  | 'E' :: rest => Numeral.integer? rest
  | _ => none

/-- Reads a text without its sign. -/
def ofMagnitude? (negative : Bool) (text : List Char) : Option Reading :=
  let whole := text.takeWhile Numeral.isDigit
  let behind := splitFraction (text.dropWhile Numeral.isDigit)
  if whole.isEmpty then none
  else (scale? behind.2).map fun e => ⟨negative, whole ++ behind.1, e - behind.1.length⟩

/-- Reads an optional minus, digits, an optional fraction and an optional exponent. -/
def ofText? : List Char → Option Reading
  | '-' :: rest => ofMagnitude? true rest
  | text => ofMagnitude? false text

/-- A fraction with its point, which is written only before digits. -/
def pointed (fraction : List Char) : List Char := if fraction.isEmpty then [] else '.' :: fraction

def sign (negative : Bool) : List Char := if negative then ['-'] else []

variable {negative : Bool} {whole fraction tail : List Char} {shift : Int}

/-- What is read as an exponent begins neither with a digit nor with a point. -/
theorem tail_cases (htail : scale? tail = some shift) : tail = [] ∨ ∃ rest, tail = 'E' :: rest := by
  unfold scale? at htail
  split at htail
  · exact .inl rfl
  · exact .inr ⟨_, rfl⟩
  · exact absurd htail (by simp)

theorem takeWhile_tail (htail : scale? tail = some shift) : tail.takeWhile Numeral.isDigit = [] := by
  rcases tail_cases htail with rfl | ⟨rest, rfl⟩ <;> rfl

theorem dropWhile_tail (htail : scale? tail = some shift) : tail.dropWhile Numeral.isDigit = tail := by
  rcases tail_cases htail with rfl | ⟨rest, rfl⟩ <;> rfl

theorem splitFraction_pointed (hfraction : ∀ c ∈ fraction, Numeral.isDigit c = true)
    (htail : scale? tail = some shift) : splitFraction (pointed fraction ++ tail) = (fraction, tail) := by
  cases fraction with
  | nil => rcases tail_cases htail with rfl | ⟨rest, rfl⟩ <;> rfl
  | cons c fraction =>
      show ((c :: fraction ++ tail).takeWhile _, (c :: fraction ++ tail).dropWhile _) = _
      rw [List.takeWhile_append_of_pos hfraction, List.dropWhile_append_of_pos hfraction, takeWhile_tail htail,
        dropWhile_tail htail, List.append_nil]

theorem ofMagnitude?_layout (hne : whole ≠ []) (hwhole : ∀ c ∈ whole, Numeral.isDigit c = true)
    (hfraction : ∀ c ∈ fraction, Numeral.isDigit c = true) (htail : scale? tail = some shift) :
    ofMagnitude? negative (whole ++ (pointed fraction ++ tail)) =
      some ⟨negative, whole ++ fraction, shift - fraction.length⟩ := by
  have hbehind : (pointed fraction ++ tail).takeWhile Numeral.isDigit = [] ∧
      (pointed fraction ++ tail).dropWhile Numeral.isDigit = pointed fraction ++ tail := by
    cases fraction with
    | nil => exact ⟨takeWhile_tail htail, dropWhile_tail htail⟩
    | cons c fraction => exact ⟨rfl, rfl⟩
  rw [ofMagnitude?, List.takeWhile_append_of_pos hwhole, List.dropWhile_append_of_pos hwhole, hbehind.1, hbehind.2,
    List.append_nil, splitFraction_pointed hfraction htail, htail, if_neg]
  · rfl
  · simpa using hne

/-- A text of this layout is read as its digits without the point; the exponent counts the places behind it. -/
theorem ofText?_layout (hne : whole ≠ []) (hwhole : ∀ c ∈ whole, Numeral.isDigit c = true)
    (hfraction : ∀ c ∈ fraction, Numeral.isDigit c = true) (htail : scale? tail = some shift) :
    ofText? (sign negative ++ (whole ++ (pointed fraction ++ tail))) =
      some ⟨negative, whole ++ fraction, shift - fraction.length⟩ := by
  have hread (negative : Bool) : ofMagnitude? negative (whole ++ (pointed fraction ++ tail)) =
      some ⟨negative, whole ++ fraction, shift - fraction.length⟩ := ofMagnitude?_layout hne hwhole hfraction htail
  cases negative with
  | true => exact hread true
  | false =>
      obtain ⟨c, rest, rfl⟩ := List.exists_cons_of_ne_nil hne
      have hminus : c ≠ '-' := by
        rintro rfl
        exact absurd (hwhole '-' List.mem_cons_self) (by decide)
      show ofText? (c :: (rest ++ (pointed fraction ++ tail))) = _
      rw [ofText?]
      · exact hread false
      · intro tail h
        exact hminus (List.cons.inj h).1

end Reading

/-! ### Writing -/

open Reading

variable {negative : Bool} {digits : List Char} {exponent : Int}

theorem scale?_mark (adjusted : Int) :
    scale? ((if 0 ≤ adjusted then ['E', '+'] else ['E', '-']) ++ Nat.toDigits 10 adjusted.natAbs) = some adjusted := by
  by_cases h : 0 ≤ adjusted
  · rw [if_pos h]
    exact (Numeral.integer?_plus_toDigits _).trans (congrArg some (Int.natAbs_of_nonneg h))
  · rw [if_neg h]
    refine (Numeral.integer?_minus_toDigits _).trans (congrArg some ?_)
    omega

theorem pointed_drop_one : pointed (digits.drop 1) = if digits.length ≤ 1 then [] else '.' :: digits.drop 1 := by
  have hempty : (digits.drop 1).isEmpty = decide (digits.length ≤ 1) := by
    rw [Bool.eq_iff_iff, List.isEmpty_iff, List.drop_eq_nil_iff, decide_eq_true_iff]
  simp only [pointed, hempty, decide_eq_true_eq]

/-- With an exponent one digit stands before the point. -/
theorem write_scientific (h : 0 < exponent ∨ exponent + digits.length - 1 < -6) :
    write negative digits exponent = sign negative ++ (digits.take 1 ++ (pointed (digits.drop 1) ++
      ((if 0 ≤ exponent + digits.length - 1 then ['E', '+'] else ['E', '-']) ++
        Nat.toDigits 10 (exponent + digits.length - 1).natAbs))) := by
  rw [write, if_pos h, pointed_drop_one]
  simp only [sign, List.append_assoc]

theorem write_whole (h : ¬ (0 < (0 : Int) ∨ (0 : Int) + digits.length - 1 < -6)) :
    write negative digits 0 = sign negative ++ (digits ++ (pointed [] ++ [])) := by
  rw [write, if_neg h, if_pos rfl]
  simp [sign, pointed]

/-- A point stands among the digits, or zeros stand before them. -/
theorem write_positional (h : ¬ (0 < exponent ∨ exponent + digits.length - 1 < -6)) (hne : exponent ≠ 0) :
    write negative digits exponent =
      if (-exponent).toNat < digits.length then
        sign negative ++ (digits.take (digits.length - (-exponent).toNat) ++
          (pointed (digits.drop (digits.length - (-exponent).toNat)) ++ []))
      else sign negative ++ (['0'] ++
        (pointed (List.replicate ((-exponent).toNat - digits.length) '0' ++ digits) ++ [])) := by
  have hpositive : 0 < (-exponent).toNat := by omega
  rw [write, if_neg h, if_neg hne]
  by_cases hplaces : (-exponent).toNat < digits.length
  · have hrest : (digits.drop (digits.length - (-exponent).toNat)).isEmpty = false := by
      rw [List.isEmpty_eq_false_iff, Ne, List.drop_eq_nil_iff]
      omega
    rw [if_pos hplaces, if_pos hplaces, pointed, hrest]
    simp [sign]
  · have hrest : (List.replicate ((-exponent).toNat - digits.length) '0' ++ digits).isEmpty = false := by
      rw [List.isEmpty_eq_false_iff, Ne, ← List.length_eq_zero_iff, List.length_append, List.length_replicate]
      omega
    rw [if_neg hplaces, if_neg hplaces, pointed, hrest]
    simp [sign]

/-- Whatever layout is chosen, the digits are read back behind zeros, with the exponent. -/
theorem ofText?_write (hne : digits ≠ []) (hdigits : ∀ c ∈ digits, Numeral.isDigit c = true) :
    ∃ zeros, ofText? (write negative digits exponent) =
      some ⟨negative, List.replicate zeros '0' ++ digits, exponent⟩ := by
  have hpositive : 0 < digits.length := List.length_pos_iff.2 hne
  have htake (n : Nat) : ∀ c ∈ digits.take n, Numeral.isDigit c = true := fun c hc => hdigits c (List.mem_of_mem_take hc)
  have hdrop (n : Nat) : ∀ c ∈ digits.drop n, Numeral.isDigit c = true := fun c hc => hdigits c (List.mem_of_mem_drop hc)
  -- each layout cuts the digits in two, or puts zeros before them, and its exponent makes up for the places it cuts off
  by_cases hscientific : 0 < exponent ∨ exponent + digits.length - 1 < -6
  · have hfirst : digits.take 1 ≠ [] := by simpa using hne
    refine ⟨0, ?_⟩
    rw [write_scientific hscientific, ofText?_layout hfirst (htake 1) (hdrop 1) (scale?_mark _), List.take_append_drop,
      List.length_drop]
    congr 2
    omega
  by_cases hzero : exponent = 0
  · subst hzero
    refine ⟨0, ?_⟩
    rw [write_whole hscientific, ofText?_layout hne hdigits (fun c hc => absurd hc List.not_mem_nil) rfl,
      List.append_nil]
    rfl
  rw [write_positional hscientific hzero]
  by_cases hplaces : (-exponent).toNat < digits.length
  · have hwhole : digits.take (digits.length - (-exponent).toNat) ≠ [] := by
      rw [Ne, List.take_eq_nil_iff, not_or]
      exact ⟨by omega, hne⟩
    refine ⟨0, ?_⟩
    rw [if_pos hplaces, ofText?_layout hwhole (htake _) (hdrop _) rfl, List.take_append_drop, List.length_drop]
    congr 2
    omega
  · have hfraction : ∀ c ∈ List.replicate ((-exponent).toNat - digits.length) '0' ++ digits,
        Numeral.isDigit c = true := by
      intro c hc
      rcases List.mem_append.1 hc with hc | hc
      · exact Numeral.isDigit_of_mem_replicate hc
      · exact hdigits c hc
    have hzero : ∀ c ∈ ['0'], Numeral.isDigit c = true := List.forall_mem_singleton.2 rfl
    refine ⟨(-exponent).toNat - digits.length + 1, ?_⟩
    rw [if_neg hplaces, ofText?_layout (List.cons_ne_nil _ _) hzero hfraction rfl, List.length_append,
      List.length_replicate]
    congr 2
    omega

/-! ### Texts of finite numbers -/

variable {d d' : Decimal128}

theorem toList_toText (hnan : d.isNaN = false) (hinfinite : d.isInfinite = false) :
    d.toText.toList = write d.isNegative (Nat.toDigits 10 d.coefficient) d.exponent := by
  rw [toText, hnan, hinfinite]
  exact String.toList_ofList

theorem ofText?_toText (hnan : d.isNaN = false) (hinfinite : d.isInfinite = false) :
    ∃ zeros, ofText? d.toText.toList =
      some ⟨d.isNegative, List.replicate zeros '0' ++ Nat.toDigits 10 d.coefficient, d.exponent⟩ := by
  rw [toList_toText hnan hinfinite]
  exact ofText?_write Nat.toDigits_ne_nil fun c hc => Numeral.isDigit_of_mem_toDigits hc

theorem eq_of_bits (h : d.bits = d'.bits) : d = d' := by
  have hbytes : d.bytes = d'.bytes := by
    calc d.bytes
      _ = littleEndianBytes d.bytes.length (littleEndian d.bytes) := (littleEndianBytes_littleEndian _).symm
      _ = littleEndianBytes d'.bytes.length (littleEndian d'.bytes) := by rw [d.size_eq, d'.size_eq, ← bits, h, bits]
      _ = d'.bytes := littleEndianBytes_littleEndian _
  cases d
  cases d'
  congr

/-- Fifteen bits stand above the coefficient: the sign and the exponent. -/
theorem shiftRight_lt (d : Decimal128) : d.bits >>> 113 < 0x8000 := by
  have hlt := littleEndian_lt d.bytes
  rw [d.size_eq] at hlt
  rw [Nat.shiftRight_eq_div_pow]
  exact Nat.div_lt_of_lt_mul hlt

theorem isNegative_iff (d : Decimal128) : d.isNegative = true ↔ d.bits >>> 113 / 0x4000 = 1 := by
  rw [isNegative, decide_eq_true_eq, show 127 = 113 + 14 from rfl, Nat.shiftRight_add,
    Nat.shiftRight_eq_div_pow (d.bits >>> 113)]

/-- In the form that is not shifted the sign, the exponent and the coefficient are all the bits. -/
theorem eq_of_fields (hd : d.isShifted = false) (hd' : d'.isShifted = false) (hsign : d.isNegative = d'.isNegative)
    (hcoefficient : d.coefficient = d'.coefficient) (hexponent : d.exponent = d'.exponent) : d = d' := by
  have hlow : d.bits % 2 ^ 113 = d'.bits % 2 ^ 113 := by
    rw [coefficient, coefficient, hd, hd'] at hcoefficient
    exact hcoefficient
  have hhigh : d.bits >>> 113 = d'.bits >>> 113 := by
    have hlt := d.shiftRight_lt
    have hlt' := d'.shiftRight_lt
    rw [Bool.eq_iff_iff, isNegative_iff, isNegative_iff] at hsign
    rw [Decimal128.exponent, Decimal128.exponent, hd, hd'] at hexponent
    simp only [Bool.false_eq_true, if_false] at hexponent
    omega
  apply eq_of_bits
  calc d.bits
    _ = 2 ^ 113 * (d.bits >>> 113) + d.bits % 2 ^ 113 := by rw [Nat.shiftRight_eq_div_pow, Nat.div_add_mod]
    _ = 2 ^ 113 * (d'.bits >>> 113) + d'.bits % 2 ^ 113 := by rw [hhigh, hlow]
    _ = d'.bits := by rw [Nat.shiftRight_eq_div_pow, Nat.div_add_mod]

/-- The text of a finite number is read as its sign, its digits and its exponent, and two numbers of the form that is not
shifted never have one text. -/
theorem toText_exact :
    (∀ d : Decimal128, d.isNaN = false → d.isInfinite = false →
      ∃ r, Reading.ofText? d.toText.toList = some r ∧ r.negative = d.isNegative ∧ r.coefficient = d.coefficient ∧
        r.exponent = d.exponent ∧ ∃ zeros, r.digits = List.replicate zeros '0' ++ Nat.toDigits 10 d.coefficient) ∧
      ∀ d d' : Decimal128, d.isNaN = false → d.isInfinite = false → d'.isNaN = false → d'.isInfinite = false →
        d.isShifted = false → d'.isShifted = false → d.toText = d'.toText → d = d' := by
  constructor
  · intro d hnan hinfinite
    obtain ⟨zeros, hread⟩ := ofText?_toText hnan hinfinite
    exact ⟨_, hread, rfl, Numeral.ofDigits_replicate_append _ _, rfl, zeros, rfl⟩
  · intro d d' hnan hinfinite hnan' hinfinite' hd hd' htext
    obtain ⟨zeros, hread⟩ := ofText?_toText hnan hinfinite
    obtain ⟨zeros', hread'⟩ := ofText?_toText hnan' hinfinite'
    rw [← htext, hread, Option.some_inj, Reading.mk.injEq] at hread'
    obtain ⟨hsign, hdigits, hexponent⟩ := hread'
    have hcoefficient : d.coefficient = d'.coefficient := by
      calc d.coefficient
        _ = Numeral.ofDigits (List.replicate zeros '0' ++ Nat.toDigits 10 d.coefficient) :=
          (Numeral.ofDigits_replicate_append _ _).symm
        _ = d'.coefficient := by rw [hdigits, Numeral.ofDigits_replicate_append]
    exact eq_of_fields hd hd' hsign hcoefficient hexponent

/-- The number of a sign, an exponent that counts from the least one, and a coefficient. -/
def ofFields (negative : Bool) (biased coefficient : Nat) : Decimal128 :=
  let bits := (if negative then Nat.pow 2 127 else 0) + biased * Nat.pow 2 113 + coefficient
  ⟨littleEndianBytes 16 bits, length_littleEndianBytes 16 bits⟩

theorem toText_exact_amounts :
    ((ofFields true 6171 123).isNaN = false ∧ (ofFields true 6171 123).isInfinite = false ∧
      ∃ r, Reading.ofText? (ofFields true 6171 123).toText.toList = some r ∧ r.negative = true ∧ r.coefficient = 123 ∧
        r.exponent = -5) ∧
      (ofFields true 6170 1230).isNaN = false ∧ (ofFields true 6170 1230).isInfinite = false ∧
        (ofFields true 6171 123).isShifted = false ∧ (ofFields true 6170 1230).isShifted = false ∧
          (ofFields true 6171 123).toText ≠ (ofFields true 6170 1230).toText := by
  have hnan : (ofFields true 6171 123).isNaN = false := by decide +kernel
  have hinfinite : (ofFields true 6171 123).isInfinite = false := by decide +kernel
  have hnan' : (ofFields true 6170 1230).isNaN = false := by decide +kernel
  have hinfinite' : (ofFields true 6170 1230).isInfinite = false := by decide +kernel
  have hd : (ofFields true 6171 123).isShifted = false := by decide +kernel
  have hd' : (ofFields true 6170 1230).isShifted = false := by decide +kernel
  refine ⟨⟨hnan, hinfinite, ?_⟩, hnan', hinfinite', hd, hd', fun htext => ?_⟩
  · obtain ⟨r, hread, hsign, hcoefficient, hexponent, -⟩ := toText_exact.1 _ hnan hinfinite
    exact ⟨r, hread, hsign.trans (by decide +kernel), hcoefficient.trans (by decide +kernel),
      hexponent.trans (by decide +kernel)⟩
  · have heq := toText_exact.2 _ _ hnan hinfinite hnan' hinfinite' hd hd' htext
    exact absurd heq (by decide +kernel)

/-- Zeros before the digits, a point among them, and an exponent. -/
example : (ofFields true 6171 123).toText = "-0.00123" ∧ (ofFields false 6174 123).toText = "1.23" ∧
    (ofFields false 6178 123).toText = "1.23E+4" := by decide +kernel

/-! ### Coefficients of too many digits -/

/-- The coefficient that the bits encode. In the shifted form the three bits `100` stand before the lowest 111. -/
def encoded (d : Decimal128) : Nat :=
  if d.isShifted then Nat.pow 2 113 + d.bits % Nat.pow 2 111 else d.bits % Nat.pow 2 113

theorem encoded_lt (hd : d.isShifted = false) : d.encoded < Nat.pow 2 113 := by
  rw [encoded, hd]
  exact Nat.mod_lt _ (by decide)

theorem le_encoded (hd : d.isShifted = true) : Nat.pow 10 34 ≤ d.encoded := by
  rw [encoded, hd]
  exact Nat.le_trans (by decide) (Nat.le_add_right _ _)

theorem coefficient_of_isShifted (hd : d.isShifted = true) : d.coefficient = 0 := by
  rw [coefficient, hd]
  rfl

theorem coefficient_eq_encoded (hd : d.isShifted = false) : d.coefficient = d.encoded := by
  rw [coefficient, encoded, hd]
  rfl

theorem significant_eq {zeros n : Nat} {r : Reading} (hr : r.digits = List.replicate zeros '0' ++ Nat.toDigits 10 n) :
    r.significant = if n = 0 then [] else Nat.toDigits 10 n := by
  have hzeros : ∀ c ∈ List.replicate zeros '0', (c == '0') = true := by
    intro c hc
    rw [List.eq_of_mem_replicate hc]
    rfl
  rw [Reading.significant, hr, List.dropWhile_append_of_pos hzeros]
  by_cases hn : n = 0
  · rw [hn]
    rfl
  · rw [if_neg hn, Numeral.dropWhile_toDigits (Nat.pos_of_ne_zero hn)]

theorem length_significant_le_iff {zeros n : Nat} {r : Reading}
    (hr : r.digits = List.replicate zeros '0' ++ Nat.toDigits 10 n) {count : Nat} (hcount : 0 < count) :
    r.significant.length ≤ count ↔ n < 10 ^ count := by
  rw [significant_eq hr]
  by_cases hn : n = 0
  · rw [if_pos hn, hn]
    exact iff_of_true (Nat.zero_le _) (Nat.pow_pos (by decide))
  · rw [if_neg hn, Nat.length_toDigits_le_iff (by decide) hcount]

/-- A coefficient of more than thirty-four digits is read from the text as zero in the shifted form. In the other form all
its thirty-five digits are written, and these numbers are the only ones of which more than thirty-four are. -/
theorem toText_significant (hnan : d.isNaN = false) (hinfinite : d.isInfinite = false) :
    ∃ r, Reading.ofText? d.toText.toList = some r ∧
      ((r.coefficient = (if d.encoded < Nat.pow 10 34 then d.encoded else 0) ∧ r.significant.length ≤ 34) ↔
        ¬ (d.isShifted = false ∧ Nat.pow 10 34 ≤ d.encoded)) ∧
      (d.isShifted = false → Nat.pow 10 34 ≤ d.encoded →
        r.significant = Nat.toDigits 10 d.encoded ∧ r.significant.length = 35) := by
  obtain ⟨zeros, hread⟩ := ofText?_toText hnan hinfinite
  refine ⟨_, hread, ?_⟩
  generalize hr : Reading.mk d.isNegative (List.replicate zeros '0' ++ Nat.toDigits 10 d.coefficient) d.exponent = r
  have hdigits : r.digits = List.replicate zeros '0' ++ Nat.toDigits 10 d.coefficient := hr ▸ rfl
  have hcoefficient : r.coefficient = d.coefficient := by
    rw [Reading.coefficient, hdigits, Numeral.ofDigits_replicate_append]
  have hshort : r.significant.length ≤ 34 ↔ d.coefficient < Nat.pow 10 34 :=
    length_significant_le_iff hdigits (by decide)
  cases hd : d.isShifted with
  | true =>
      rw [hcoefficient, hshort, coefficient_of_isShifted hd, if_neg (Nat.not_lt.2 (le_encoded hd))]
      simp
  | false =>
      have hlt := encoded_lt hd
      rw [coefficient_eq_encoded hd] at hcoefficient hdigits hshort
      rw [hcoefficient, hshort]
      constructor
      · by_cases hcanonical : d.encoded < Nat.pow 10 34
        · simp [hcanonical]
        · simp [hcanonical, Nat.le_of_not_lt hcanonical]
      · intro _ hlong
        have hne : d.encoded ≠ 0 := Nat.ne_of_gt (Nat.lt_of_lt_of_le (by decide) hlong)
        have hmost : r.significant.length ≤ 35 :=
          (length_significant_le_iff hdigits (by decide)).2 (Nat.lt_trans hlt (by decide))
        have hleast : ¬ r.significant.length ≤ 34 := fun h => Nat.not_lt.2 hlong (hshort.1 h)
        exact ⟨(significant_eq hdigits).trans (if_neg hne), by omega⟩

/-- The greatest coefficient of the form that is not shifted. -/
def longest : Decimal128 := ofFields false 6176 (Nat.pow 2 113 - 1)

theorem toText_significant_longest :
    longest.isNaN = false ∧ longest.isInfinite = false ∧ longest.isShifted = false ∧
      Nat.pow 10 34 ≤ longest.encoded ∧
        ∃ r, Reading.ofText? longest.toText.toList = some r ∧
          r.significant = "10384593717069655257060992658440191".toList ∧ r.significant.length = 35 := by
  have hnan : longest.isNaN = false := by decide +kernel
  have hinfinite : longest.isInfinite = false := by decide +kernel
  have hd : longest.isShifted = false := by decide +kernel
  have hlong : Nat.pow 10 34 ≤ longest.encoded := by decide +kernel
  obtain ⟨r, hread, -, hdigits⟩ := toText_significant hnan hinfinite
  exact ⟨hnan, hinfinite, hd, hlong, r, hread, (hdigits hd hlong).1.trans (by decide +kernel), (hdigits hd hlong).2⟩

/-- Of a number whose coefficient is above the greatest canonical one, thirty-five digits are written, and not a zero. -/
theorem longest_ne_zero :
    ¬ ∀ d : Decimal128, d.isNaN = false → d.isInfinite = false →
      ∃ r, Reading.ofText? d.toText.toList = some r ∧
        (Nat.pow 10 34 - 1 < d.encoded → r.coefficient = 0) ∧ r.significant.length ≤ 34 := by
  intro h
  obtain ⟨r, hread, -, hshort⟩ := h longest (by decide +kernel) (by decide +kernel)
  have htext : Reading.ofText? longest.toText.toList =
      some ⟨false, "10384593717069655257060992658440191".toList, 0⟩ := by decide +kernel
  rw [htext, Option.some_inj] at hread
  rw [← hread] at hshort
  exact absurd hshort (by decide +kernel)

end Aggregation.Decimal128
