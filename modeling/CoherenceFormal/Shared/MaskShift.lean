import Mathlib.Data.Nat.Bitwise
import Mathlib.Data.Nat.Size

/-!
# Splitting a number by a mask and a shift

`x &&& (n - 1)` and `x >>> k`, where `k` counts the trailing zero bits of `n`. The two
parts determine `x` for every `n`, because the low `k` bits of `n - 1` are all set. They
are remainder and quotient, and the mask reaches every number below `n`, only when `n`
is a power of two.
-/

namespace CoherenceFormal.MaskShift

/-- `k` is the number of trailing zero bits of `x`. -/
structure TrailingZeros (k x : Nat) : Prop where
  dvd : 2 ^ k ∣ x
  not_dvd : ¬ 2 ^ (k + 1) ∣ x

theorem TrailingZeros.of_odd {x : Nat} (h : x % 2 = 1) : TrailingZeros 0 x := by
  refine ⟨Nat.one_dvd x, ?_⟩
  rw [zero_add, pow_one]
  omega

theorem TrailingZeros.double {k x : Nat} (h : TrailingZeros k x) :
    TrailingZeros (k + 1) (x * 2) := by
  refine ⟨?_, ?_⟩
  · rw [pow_succ]
    exact Nat.mul_dvd_mul_right h.dvd 2
  · intro hdvd
    rw [pow_succ] at hdvd
    exact h.not_dvd (Nat.dvd_of_mul_dvd_mul_right (by decide) hdvd)

theorem TrailingZeros.pos {k x : Nat} (h : TrailingZeros k x) : 0 < x := by
  apply Nat.pos_of_ne_zero
  intro h0
  apply h.not_dvd
  rw [h0]
  exact Nat.dvd_zero _

theorem TrailingZeros.two_pow_le {k x : Nat} (h : TrailingZeros k x) : 2 ^ k ≤ x :=
  Nat.le_of_dvd h.pos h.dvd

theorem TrailingZeros.two_pow_add_le {k j x y : Nat} (hx : TrailingZeros k x)
    (hy : TrailingZeros j y) : 2 ^ (k + j) ≤ x * y := by
  rw [pow_add]
  exact Nat.mul_le_mul hx.two_pow_le hy.two_pow_le

theorem TrailingZeros.of_two_pow {k j : Nat} (h : TrailingZeros k (2 ^ j)) : k = j := by
  have hle : k ≤ j := (Nat.pow_dvd_pow_iff_le_right (by decide)).mp h.dvd
  have hlt : ¬ k + 1 ≤ j := by
    intro hj
    exact h.not_dvd (Nat.pow_dvd_pow 2 hj)
  omega

section
variable {n k x y : Nat}

theorem testBit_pred (hn : 0 < n) (hdvd : 2 ^ k ∣ n) {i : Nat} (hi : i < k) :
    (n - 1).testBit i = true := by
  obtain ⟨q, rfl⟩ := hdvd
  obtain ⟨q, rfl⟩ : ∃ q', q = q' + 1 := by
    refine ⟨q - 1, ?_⟩
    have hq : 0 < q := Nat.pos_of_mul_pos_left hn
    omega
  have hpow := Nat.two_pow_pos k
  have hsplit : 2 ^ k * (q + 1) - 1 = 2 ^ k * q + (2 ^ k - 1) := by
    rw [Nat.mul_succ]
    omega
  rw [hsplit, Nat.testBit_two_pow_mul_add q (by omega), if_pos hi, Nat.testBit_two_pow_sub_one]
  exact decide_eq_true hi

/-- The mask keeps every bit that the shift drops. -/
theorem eq_of_mask_of_shift (hn : 0 < n) (hdvd : 2 ^ k ∣ n)
    (hmask : x &&& (n - 1) = y &&& (n - 1)) (hshift : x >>> k = y >>> k) : x = y := by
  apply Nat.eq_of_testBit_eq
  intro i
  by_cases hi : i < k
  · have hbit := congrArg (Nat.testBit · i) hmask
    simpa [testBit_pred hn hdvd hi] using hbit
  · have hbit := congrArg (Nat.testBit · (i - k)) hshift
    have hsum : k + (i - k) = i := by omega
    simpa [Nat.testBit_shiftRight, hsum] using hbit

theorem shift_mul_add_mask (k x : Nat) : (x >>> k) * 2 ^ k + (x &&& (2 ^ k - 1)) = x := by
  rw [Nat.shiftRight_eq_div_pow, Nat.and_two_pow_sub_one_eq_mod]
  exact Nat.div_add_mod' x (2 ^ k)

/-- A mask that reaches every number up to itself has all its bits set. -/
theorem exists_two_pow_of_mask_onto (hn : 0 < n) (honto : ∀ i < n, ∃ x, x &&& (n - 1) = i) :
    ∃ k, n = 2 ^ k := by
  refine ⟨(n - 1).size, ?_⟩
  have hones : n - 1 = 2 ^ (n - 1).size - 1 := by
    apply Nat.eq_of_testBit_eq
    intro i
    rw [Nat.testBit_two_pow_sub_one]
    by_cases hi : i < (n - 1).size
    · have hle := Nat.lt_size.mp hi
      obtain ⟨x, hx⟩ := honto (2 ^ i) (by omega)
      have hbit := congrArg (Nat.testBit · i) hx
      simp only [Nat.testBit_and, Nat.testBit_two_pow_self, Bool.and_eq_true] at hbit
      simp [hbit.2, hi]
    · have hlt : n - 1 < 2 ^ i := Nat.size_le.mp (by omega)
      simp [Nat.testBit_lt_two_pow hlt, hi]
  have hpow := Nat.two_pow_pos (n - 1).size
  omega

/-- Dropping the trailing zero bits of `n` is division by `n` only for a power of two: `0`
and `2 ^ k` are told apart by the shift, and by the division only when `2 ^ k` is all of `n`. -/
theorem eq_two_pow_of_shift (h : TrailingZeros k n)
    (hdiv : 0 / n = 2 ^ k / n → 0 >>> k = 2 ^ k >>> k) : n = 2 ^ k := by
  by_contra hne
  have hle := h.two_pow_le
  have hlt : 2 ^ k < n := by omega
  rw [Nat.zero_div, Nat.div_eq_of_lt hlt] at hdiv
  have hshift := hdiv rfl
  rw [Nat.zero_shiftRight, Nat.shiftRight_eq_div_pow, Nat.div_self (Nat.two_pow_pos k)] at hshift
  omega

end
end CoherenceFormal.MaskShift
