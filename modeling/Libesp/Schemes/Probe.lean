import Mathlib.Data.Nat.Basic
import Mathlib.Tactic

/-! @esp schemes | name:Probe | scheme:arithmetic

    Linear probing round a table of `n` slots. A probe starts at a slot of its own and visits the
    slots in cyclic order until it is back at the start. `Passed B i` says that it has reached `i`
    and that every slot before `i`, in its order, satisfies `B`. Two slots a probe stops at are the
    same slot (`passed_unique`), and a probe that never stops has seen `B` everywhere
    (`passed_all`). -/

namespace Esp.Probe

/-- The probe that started at `start` has reached slot `i`, and `B` holds of the slots before. -/
def Passed (n start : ℕ) (B : ℕ → Prop) (i : ℕ) : Prop :=
  ∃ j < n, i = (start + j) % n ∧ ∀ k < j, B ((start + k) % n)

variable {n start : ℕ} {B B' : ℕ → Prop} {i i' : ℕ}

theorem passed_start (h : start < n) : Passed n start B start :=
  ⟨0, by omega, by rw [add_zero, Nat.mod_eq_of_lt h], fun k hk => absurd hk (by omega)⟩

theorem Passed.mono (h : Passed n start B i) (hB : ∀ k, B k → B' k) : Passed n start B' i := by
  obtain ⟨j, hj, hi, hk⟩ := h
  exact ⟨j, hj, hi, fun k hlt => hB _ (hk k hlt)⟩

/-- Distinct places of one round are distinct slots. -/
theorem place_inj {j k : ℕ} (hj : j < n) (hk : k < n) (h : (start + j) % n = (start + k) % n) :
    j = k := by
  have hm : start + j ≡ start + k [MOD n] := h
  have hc := Nat.ModEq.add_left_cancel' start hm
  rwa [Nat.ModEq, Nat.mod_eq_of_lt hj, Nat.mod_eq_of_lt hk] at hc

/-- The slot after place `j` is the start exactly when `j` is the last place of the round. -/
theorem next_eq_start_iff (hs : start < n) {j : ℕ} (hj : j < n) :
    ((start + j) % n + 1) % n = start ↔ j + 1 = n := by
  rw [Nat.mod_add_mod, add_assoc]
  constructor
  · intro he
    by_contra hne
    have h0 : (start + (j + 1)) % n = (start + 0) % n := by
      rw [he, add_zero, Nat.mod_eq_of_lt hs]
    have := place_inj (by omega) (by omega) h0
    omega
  · intro he
    rw [he, Nat.add_mod_right, Nat.mod_eq_of_lt hs]

theorem Passed.next (hs : start < n) (h : Passed n start B i) (hB : B i)
    (hne : (i + 1) % n ≠ start) : Passed n start B ((i + 1) % n) := by
  obtain ⟨j, hj, rfl, hk⟩ := h
  have hlast : j + 1 ≠ n := fun he => hne ((next_eq_start_iff hs hj).mpr he)
  refine ⟨j + 1, by omega, by rw [Nat.mod_add_mod, add_assoc], ?_⟩
  intro k hlt
  rcases Nat.lt_succ_iff_lt_or_eq.mp hlt with hlt | rfl
  · exact hk k hlt
  · exact hB

/-- A probe that is back at its start has found `B` in every slot. -/
theorem Passed.all (hs : start < n) (h : Passed n start B i) (hB : B i)
    (he : (i + 1) % n = start) : ∀ k < n, B k := by
  obtain ⟨j, hj, rfl, hk⟩ := h
  have hlast := (next_eq_start_iff hs hj).mp he
  have hround : ∀ k < n, B ((start + k) % n) := by
    intro k hkn
    rcases Nat.lt_or_ge k j with hlt | hge
    · exact hk k hlt
    · obtain rfl : k = j := by omega
      exact hB
  intro k hkn
  rcases Nat.lt_or_ge k start with hlt | hge
  · have := hround (n - start + k) (by omega)
    rwa [show start + (n - start + k) = k + n by omega, Nat.add_mod_right,
      Nat.mod_eq_of_lt hkn] at this
  · have := hround (k - start) (by omega)
    rwa [show start + (k - start) = k by omega, Nat.mod_eq_of_lt hkn] at this

/-- A probe stops at one slot: the first where `B` fails. -/
theorem Passed.unique (h : Passed n start B i) (h' : Passed n start B i') (hi : ¬ B i)
    (hi' : ¬ B i') : i = i' := by
  obtain ⟨j, _, rfl, hk⟩ := h
  obtain ⟨j', _, rfl, hk'⟩ := h'
  rcases Nat.lt_trichotomy j j' with hlt | rfl | hlt
  · exact absurd (hk' j hlt) hi
  · rfl
  · exact absurd (hk j' hlt) hi'

/-- In the order of the probe, `i` is not behind `j`. -/
def Ahead (n start i j : ℕ) : Prop :=
  ∃ a b, a ≤ b ∧ b < n ∧ i = (start + a) % n ∧ j = (start + b) % n

theorem ahead_start (hs : start < n) (h : Passed n start B i) : Ahead n start start i := by
  obtain ⟨j, hj, hi, -⟩ := h
  exact ⟨0, j, Nat.zero_le j, hj, by rw [add_zero, Nat.mod_eq_of_lt hs], hi⟩

/-- A probe on its way to `i'` has not come round at a slot before it, and goes on to the next. -/
theorem Ahead.next (hs : start < n) (h : Ahead n start i i') (hne : i ≠ i') :
    (i + 1) % n ≠ start ∧ Ahead n start ((i + 1) % n) i' := by
  obtain ⟨a, b, hab, hb, rfl, rfl⟩ := h
  have hlt : a < b := lt_of_le_of_ne hab (by rintro rfl; exact hne rfl)
  refine ⟨?_, a + 1, b, hlt, hb, by rw [Nat.mod_add_mod, add_assoc], rfl⟩
  intro he
  have hlast := (next_eq_start_iff hs (by omega)).mp he
  omega

/-- The slots on the way to a slot the probe has reached satisfy `B`. -/
theorem Ahead.passed (h : Ahead n start i i') (hp : Passed n start B i') (hne : i ≠ i') : B i := by
  obtain ⟨a, b, hab, hb, rfl, rfl⟩ := h
  obtain ⟨j, hj, hij, hk⟩ := hp
  obtain rfl : b = j := place_inj hb hj hij
  exact hk a (lt_of_le_of_ne hab (by rintro rfl; exact hne rfl))

end Esp.Probe
