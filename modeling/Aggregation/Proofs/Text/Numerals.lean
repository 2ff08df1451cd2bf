import Aggregation.Text.Numeral
import Mathlib.Data.Nat.Digits.Defs

/-!
Numbers as decimal digits and back. The digits of a number spell it, leading zeros add nothing, and an integer is
recovered from its text.
-/

namespace Aggregation.Numeral

theorem ofDigits_eq (digits : List Char) : ofDigits digits = Nat.ofDigitChars 10 digits 0 :=
  Nat.ofDigitChars_eq_foldl.symm

theorem isDigit_of_mem_toDigits {n : Nat} {c : Char} (hc : c ∈ Nat.toDigits 10 n) : isDigit c = true := by
  have h := Nat.isDigit_of_mem_toDigits (by decide) (by decide) hc
  rw [Char.isDigit, Bool.and_eq_true, decide_eq_true_eq, decide_eq_true_eq] at h
  rw [isDigit, Bool.and_eq_true, decide_eq_true_eq, decide_eq_true_eq]
  exact h

theorem isDigit_of_mem_replicate {n : Nat} {c : Char} (hc : c ∈ List.replicate n '0') : isDigit c = true := by
  rw [List.eq_of_mem_replicate hc]
  rfl

/-- The digits of a number spell it, also after zeros. -/
theorem ofDigits_replicate_append (zeros n : Nat) :
    ofDigits (List.replicate zeros '0' ++ Nat.toDigits 10 n) = n := by
  calc ofDigits (List.replicate zeros '0' ++ Nat.toDigits 10 n)
    _ = Nat.ofDigitChars 10 (Nat.toDigits 10 n) (10 ^ zeros * 0) := by
      rw [ofDigits_eq, Nat.ofDigitChars_append, Nat.ofDigitChars_replicate_zero]
    _ = n := by rw [Nat.mul_zero, Nat.ofDigitChars_ten_toDigits]

theorem ofDigits_toDigits (n : Nat) : ofDigits (Nat.toDigits 10 n) = n := ofDigits_replicate_append 0 n

/-- The digits of a positive number do not start with a zero. -/
theorem dropWhile_toDigits {n : Nat} (hn : 0 < n) : (Nat.toDigits 10 n).dropWhile (· == '0') = Nat.toDigits 10 n := by
  induction n using Nat.strongRecOn with
  | ind n ih =>
      by_cases hsmall : n < 10
      · have hdigit : (Nat.digitChar n == '0') = false :=
          (by decide : ∀ n < 10, 0 < n → (Nat.digitChar n == '0') = false) n hsmall hn
        rw [Nat.toDigits_of_lt_base hsmall, List.dropWhile_cons, hdigit]
        rfl
      · have hlarge : 10 ≤ n := Nat.le_of_not_lt hsmall
        have hrest := ih (n / 10) (Nat.div_lt_self hn (by decide)) (Nat.div_pos hlarge (by decide))
        have hne : (Nat.toDigits 10 (n / 10)).isEmpty = false := List.isEmpty_eq_false_iff.2 Nat.toDigits_ne_nil
        rw [Nat.toDigits_of_base_le (by decide) hlarge, List.dropWhile_append, hrest, hne]
        rfl

theorem natural?_toDigits (n : Nat) : natural? (Nat.toDigits 10 n) = some n := by
  have hall : (Nat.toDigits 10 n).all isDigit = true := List.all_eq_true.2 fun c hc => isDigit_of_mem_toDigits hc
  have hne : (Nat.toDigits 10 n).isEmpty = false := List.isEmpty_eq_false_iff.2 Nat.toDigits_ne_nil
  rw [natural?, hall, hne, ofDigits_toDigits]
  rfl

theorem integer?_plus_toDigits (n : Nat) : integer? ('+' :: Nat.toDigits 10 n) = some (n : Int) := by
  rw [integer?, natural?_toDigits]
  rfl

theorem integer?_minus_toDigits (n : Nat) : integer? ('-' :: Nat.toDigits 10 n) = some (-(n : Int)) := by
  rw [integer?, natural?_toDigits]
  rfl

theorem integer?_toDigits (n : Nat) : integer? (Nat.toDigits 10 n) = some (n : Int) := by
  have hdigit {c : Char} {rest : List Char} (h : Nat.toDigits 10 n = c :: rest) : isDigit c = true :=
    isDigit_of_mem_toDigits (h ▸ List.mem_cons_self)
  unfold integer?
  split
  · next h => exact absurd (hdigit h) (by decide)
  · next h => exact absurd (hdigit h) (by decide)
  · rw [natural?_toDigits]
    rfl

/-- An integer is recovered from its text. -/
theorem integer?_toString (n : Int) : integer? (toString n).toList = some n := by
  cases n with
  | ofNat n =>
      show integer? (toString n).toList = some (n : Int)
      rw [Nat.toString_eq_repr, Nat.toList_repr, integer?_toDigits]
  | negSucc n =>
      have htext : (toString (Int.negSucc n)).toList = '-' :: Nat.toDigits 10 (n + 1) := by
        show ("-" ++ toString (n + 1)).toList = _
        rw [String.toList_append, Nat.toString_eq_repr, Nat.toList_repr]
        rfl
      rw [htext, integer?_minus_toDigits]
      rfl

theorem int64?_toString (n : Int64) : int64? (toString n.toInt) = some n := by
  have hrange : Int64.minValue.toInt ≤ n.toInt ∧ n.toInt ≤ Int64.maxValue.toInt :=
    ⟨n.minValue_le_toInt, n.toInt_le⟩
  rw [int64?, integer?_toString]
  show (if _ then _ else _) = _
  rw [if_pos hrange, Int64.ofInt_toInt]

end Aggregation.Numeral
