import Mathlib.Algebra.Order.Ring.Int
import Mathlib.Tactic

/-! @esp schemes | name:Cursor | scheme:arithmetic

    32-bit two's complement integers and the truncating remainder of C, as integers of unbounded
    range with an explicit wrap. A free-running cursor is such an integer; the slot it stands for is
    its remainder. The facts here say when two cursors share a slot: their difference is then a
    multiple of the capacity, so inside a window narrower than the capacity slots are distinct. -/

namespace Esp.Cursor

/-- The `int` that holds the low 32 bits of `i`. -/
def wrap32 (i : ℤ) : ℤ := (i + 2147483648) % 4294967296 - 2147483648

theorem wrap32_of_range {i : ℤ} (h0 : -2147483648 ≤ i) (h1 : i < 2147483648) : wrap32 i = i := by
  unfold wrap32
  omega

theorem dvd_sub_of_tmod_eq {a b n : ℤ} (h : a.tmod n = b.tmod n) : n ∣ a - b := by
  refine ⟨a.tdiv n - b.tdiv n, ?_⟩
  have ha := Int.mul_tdiv_add_tmod a n
  have hb := Int.mul_tdiv_add_tmod b n
  rw [mul_sub]
  omega

theorem tmod_eq_of_dvd_sub {a b n : ℤ} (ha : 0 ≤ a) (hb : 0 ≤ b) (h : n ∣ a - b) :
    a.tmod n = b.tmod n := by
  rw [Int.tmod_eq_emod_of_nonneg ha, Int.tmod_eq_emod_of_nonneg hb]
  exact (Int.emod_eq_emod_iff_emod_sub_eq_zero.mpr (Int.emod_eq_zero_of_dvd h))

/-- Two cursors less than a capacity apart share a slot only when they are equal. -/
theorem eq_of_tmod_eq {a b n : ℤ} (h : a.tmod n = b.tmod n) (h0 : b ≤ a) (h1 : a < b + n) :
    a = b := by
  have hd := dvd_sub_of_tmod_eq h
  have hz := Int.eq_zero_of_dvd_of_nonneg_of_lt (by omega) (by omega) hd
  omega

theorem tmod_lt {a n : ℤ} (ha : 0 ≤ a) (hn : 0 < n) : a.tmod n < n := by
  rw [Int.tmod_eq_emod_of_nonneg ha]
  exact Int.emod_lt_of_pos a hn

theorem tmod_nonneg {a n : ℤ} (ha : 0 ≤ a) : 0 ≤ a.tmod n := Int.tmod_nonneg n ha

/-- A successor computed in 32 bits that shares a slot with a nonnegative cursor is a whole number
    of laps away from it, also when the successor itself overflows. -/
theorem dvd_sub_of_wrap32_tmod_eq {f b n : ℤ} (hf : 0 ≤ f) (hf' : f < 2147483648) (hb : 0 ≤ b)
    (h : (wrap32 (f + 1)).tmod n = b.tmod n) : n ∣ f + 1 - b := by
  by_cases hlt : f + 1 < 2147483648
  · rw [wrap32_of_range (by omega) hlt] at h
    exact dvd_sub_of_tmod_eq h
  · have hf1 : f + 1 = 2147483648 := by omega
    have hw : wrap32 (f + 1) = -2147483648 := by rw [hf1]; decide
    rw [hw, Int.neg_tmod] at h
    have h1 : 0 ≤ (2147483648 : ℤ).tmod n := Int.tmod_nonneg n (by omega)
    have h2 : 0 ≤ b.tmod n := Int.tmod_nonneg n hb
    have hd1 : n ∣ 2147483648 := Int.dvd_of_tmod_eq_zero (by omega)
    have hd2 : n ∣ b := Int.dvd_of_tmod_eq_zero (by omega)
    rw [hf1]
    exact dvd_sub hd1 hd2

/-- A cursor wrapped by 2^32 stands for the remainder of what it lacks, the other way round. -/
theorem tmod_wrap32_of_ge {x n : ℤ} (h0 : 2147483648 ≤ x) (h1 : x < 4294967296 + 2147483648) :
    (wrap32 x).tmod n = -(4294967296 - x).tmod n := by
  have hw : wrap32 x = -(4294967296 - x) := by
    unfold wrap32
    omega
  rw [hw, Int.neg_tmod]

/-- Up to 2^31, and at 2^31 when it is a whole number of laps, the wrap does not show. -/
theorem tmod_wrap32 {x n : ℤ} (h0 : 0 ≤ x) (h : x < 2147483648 ∨ x = 2147483648 ∧ n ∣ 2147483648) :
    (wrap32 x).tmod n = x.tmod n := by
  rcases h with hlt | ⟨rfl, hdvd⟩
  · rw [wrap32_of_range (by omega) hlt]
  · rw [tmod_wrap32_of_ge (le_refl _) (by omega), show (4294967296 : ℤ) - 2147483648 = 2147483648 by
      norm_num, Int.tmod_eq_zero_of_dvd hdvd, neg_zero]

/-- Counting on from a wrapped cursor. -/
theorem wrap32_add (x k : ℤ) : wrap32 (wrap32 x + k) = wrap32 (x + k) := by
  unfold wrap32
  omega

/-- The slots of a run of cursors that does not reach the physical end are consecutive. -/
theorem tmod_add_of_lt {a n j : ℤ} (hn : 0 < n) (ha : 0 ≤ a) (hj : 0 ≤ j) (h : a.tmod n + j < n) :
    (a + j).tmod n = a.tmod n + j := by
  rw [Int.tmod_eq_emod_of_nonneg ha] at h ⊢
  have hr := Int.emod_nonneg a (ne_of_gt hn)
  rw [Int.tmod_eq_emod_of_nonneg (by omega), ← Int.emod_add_emod]
  exact Int.emod_eq_of_lt (by omega) h

end Esp.Cursor
