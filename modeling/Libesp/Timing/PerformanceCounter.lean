import Mathlib.Data.Rat.Floor
import Mathlib.Tactic

/-! @esp timing | name:update_timestamp_thread (ESP_WINDOWS) | scheme:fold | source:src/Timing.cpp

    The timer thread that counts ticks of the performance counter. Each round adds the ticks since the
    last reading to an accumulator; once it holds more than a microsecond's ticks they are turned into
    microseconds, rounded down, and the accumulator is cleared. What the rounding cuts off is gone.

        ticks:   ├── 2 ──┤├── 2 ──┤├── 2 ──┤      at 1.5 ticks a microsecond
        added:       1        1        1          1/3 µs lost each time

    So the published time falls behind by the sum of all that was cut off (`elapsed_eq`). -/

namespace Esp.Timing

/-- The published time and the variables of the loop; the numbers are `int64_t`, and no run that is
    looked at overflows them. -/
structure CounterLoop where
  currentTimestamp : ℤ
  currentSampledTime : ℤ
  tickAccumulator : ℤ
  deriving DecidableEq, Repr

variable (clockFrequency : ℤ)

def minTicks : ℤ := clockFrequency.tdiv 1000000

/-- One round of the loop, with the reading of the counter it makes. -/
def CounterLoop.round (s : CounterLoop) (counterTime : ℤ) : CounterLoop :=
  let lastSampledTime := s.currentSampledTime
  let tickAccumulator := s.tickAccumulator + (counterTime - lastSampledTime)
  if tickAccumulator > minTicks clockFrequency then
    ⟨s.currentTimestamp + (tickAccumulator * 1000000).tdiv clockFrequency, counterTime, 0⟩
  else ⟨s.currentTimestamp, counterTime, tickAccumulator⟩

/-- The timer thread after the first reading and the rounds with the others; `none` when it gives up
    on a counter that is too slow. -/
def updateTimestampThread (first : ℤ) (readings : List ℤ) : Option CounterLoop :=
  if clockFrequency = 0 ∨ minTicks clockFrequency = 0 then none
  else some (readings.foldl (CounterLoop.round clockFrequency) ⟨0, first, 0⟩)

/-- The published time does not run backwards, and after any number of rounds it is within two
    microseconds of the true time since the first reading. -/
structure NoDrift (first : ℤ) (readings : List ℤ) : Prop where
  nondecreasing : ∀ rs now, rs ++ [now] <+: readings → ∀ s s',
    updateTimestampThread clockFrequency first rs = some s →
    updateTimestampThread clockFrequency first (rs ++ [now]) = some s' →
    s.currentTimestamp ≤ s'.currentTimestamp
  close : ∀ rs, rs <+: readings → ∃ s, updateTimestampThread clockFrequency first rs = some s ∧
    |(s.currentTimestamp : ℚ) - ((rs.getLastD first - first : ℤ) : ℚ) * 1000000 / clockFrequency| ≤ 2

/-- What the readings leave behind, in parts of a microsecond that are `clockFrequency` to the whole:
    the remainder of each division, and the ticks still in the accumulator. `base` is the reading at
    the last division, `last` the one before. -/
def behind (base last : ℤ) : List ℤ → ℤ
  | [] => (last - base) * 1000000
  | now :: readings =>
    if now - base > minTicks clockFrequency then
      (now - base) * 1000000 % clockFrequency + behind now now readings
    else behind base now readings

variable {clockFrequency} {first last b now : ℤ} {readings : List ℤ}

theorem updateTimestampThread_some (hF : 1000000 ≤ clockFrequency) (first : ℤ) (readings : List ℤ) :
    updateTimestampThread clockFrequency first readings =
      some (readings.foldl (CounterLoop.round clockFrequency) ⟨0, first, 0⟩) := by
  have hmin : minTicks clockFrequency = clockFrequency / 1000000 :=
    Int.tdiv_eq_ediv_of_nonneg (by omega)
  rw [updateTimestampThread, if_neg (by rw [hmin]; omega)]

theorem minTicks_eq (hF : 1000000 ≤ clockFrequency) :
    minTicks clockFrequency = clockFrequency / 1000000 :=
  Int.tdiv_eq_ediv_of_nonneg (by omega)

/-- RUN: the time published, and what was left behind, are the time that passed. The induction is on
    the readings, from any state whose accumulator holds the ticks since the reading `b`. -/
theorem foldl_round (hF : 1000000 ≤ clockFrequency) (readings : List ℤ) (last b t : ℤ) :
    (readings.foldl (CounterLoop.round clockFrequency) ⟨t, last, last - b⟩).currentTimestamp *
        clockFrequency + behind clockFrequency b last readings =
      t * clockFrequency + (readings.getLastD last - b) * 1000000 := by
  induction readings generalizing last b t with
  | nil => rfl
  | cons now readings ih =>
    have hticks : last - b + (now - last) = now - b := by ring
    rw [List.foldl_cons, CounterLoop.round, behind, List.getLastD_cons]
    simp only [hticks]
    split
    · rename_i hgo
      have hpos : 0 ≤ (now - b) * 1000000 := by
        rw [minTicks_eq hF] at hgo
        omega
      have hrest := ih now now (t + (now - b) * 1000000 / clockFrequency)
      rw [sub_self] at hrest
      rw [Int.tdiv_eq_ediv_of_nonneg hpos]
      have hdiv := Int.mul_ediv_add_emod ((now - b) * 1000000) clockFrequency
      linarith
    · exact ih now b t

/-- What is left behind is the difference between the time that passed and the time published. -/
theorem elapsed_eq (hF : 1000000 ≤ clockFrequency) {s : CounterLoop}
    (hs : updateTimestampThread clockFrequency first readings = some s) :
    s.currentTimestamp * clockFrequency + behind clockFrequency first first readings =
      (readings.getLastD first - first) * 1000000 := by
  rw [updateTimestampThread_some hF] at hs
  obtain rfl := Option.some.inj hs
  have h := foldl_round hF readings first first 0
  rwa [sub_self, zero_mul, zero_add] at h

theorem behind_nonneg (hF : 1000000 ≤ clockFrequency) (hb : b ≤ last)
    (hsorted : (last :: readings).Pairwise (· ≤ ·)) :
    0 ≤ behind clockFrequency b last readings := by
  induction readings generalizing b last with
  | nil =>
    rw [behind]
    omega
  | cons now readings ih =>
    obtain ⟨hlast, hrest⟩ := List.pairwise_cons.mp hsorted
    have hnow : last ≤ now := hlast now List.mem_cons_self
    rw [behind]
    split
    · have hcut := Int.emod_nonneg ((now - b) * 1000000) (show clockFrequency ≠ 0 by omega)
      have := ih (le_refl now) hrest
      omega
    · exact ih (hb.trans hnow) hrest

/-- The distance from the true time, in microseconds, is what was left behind. -/
theorem distance_le_iff (hF : 1000000 ≤ clockFrequency)
    (hsorted : (first :: readings).Pairwise (· ≤ ·)) {s : CounterLoop}
    (hs : updateTimestampThread clockFrequency first readings = some s) :
    |(s.currentTimestamp : ℚ) -
        ((readings.getLastD first - first : ℤ) : ℚ) * 1000000 / clockFrequency| ≤ 2 ↔
      behind clockFrequency first first readings ≤ 2 * clockFrequency := by
  have hpos : (0 : ℚ) < clockFrequency := by exact_mod_cast (show 0 < clockFrequency by omega)
  have helapsed := elapsed_eq hF hs
  have hnonneg := behind_nonneg hF (le_refl first) hsorted
  have hq : ((readings.getLastD first - first : ℤ) : ℚ) * 1000000 =
      s.currentTimestamp * clockFrequency + behind clockFrequency first first readings := by
    exact_mod_cast helapsed.symm
  have hdiff : (s.currentTimestamp : ℚ) -
      ((readings.getLastD first - first : ℤ) : ℚ) * 1000000 / clockFrequency =
        -(behind clockFrequency first first readings / clockFrequency) := by
    rw [hq]
    field_simp
    ring
  have hq0 : (0 : ℚ) ≤ behind clockFrequency first first readings := by exact_mod_cast hnonneg
  rw [hdiff, abs_neg, abs_of_nonneg (div_nonneg hq0 hpos.le), div_le_iff₀ hpos]
  exact_mod_cast Iff.rfl

/-- STEP: a round adds to the published time, or leaves it. -/
theorem round_le (hF : 1000000 ≤ clockFrequency) (s : CounterLoop) (now : ℤ) :
    s.currentTimestamp ≤ (s.round clockFrequency now).currentTimestamp := by
  rw [CounterLoop.round]
  split
  · rename_i hgo
    rw [minTicks_eq hF] at hgo
    have := Int.tdiv_nonneg (show 0 ≤ (s.tickAccumulator + (now - s.currentSampledTime)) * 1000000 by
      omega) (show 0 ≤ clockFrequency by omega)
    simp only
    omega
  · exact le_refl _

theorem noDrift_of (hF : 1000000 ≤ clockFrequency) (hsorted : (first :: readings).Pairwise (· ≤ ·)) :
    NoDrift clockFrequency first readings ↔
      ∀ rs, rs <+: readings → behind clockFrequency first first rs ≤ 2 * clockFrequency := by
  have hsub : ∀ rs, rs <+: readings → (first :: rs).Pairwise (· ≤ ·) := fun rs hrs =>
    hsorted.sublist (hrs.sublist.cons_cons first)
  constructor
  · intro h rs hrs
    obtain ⟨s, hs, hclose⟩ := h.close rs hrs
    exact (distance_le_iff hF (hsub rs hrs) hs).mp hclose
  · intro h
    refine ⟨?_, ?_⟩
    · intro rs now _ s s' hs hs'
      rw [updateTimestampThread_some hF] at hs hs'
      obtain rfl := Option.some.inj hs
      obtain rfl := Option.some.inj hs'
      rw [List.foldl_append, List.foldl_cons, List.foldl_nil]
      exact round_le hF _ now
    · intro rs hrs
      have hs := updateTimestampThread_some hF first rs
      exact ⟨_, hs, (distance_le_iff hF (hsub rs hrs) hs).mpr (h rs hrs)⟩

/-! ### Which frequencies are exact -/

/-- At one tick a microsecond nothing is cut off, and one tick at most is pending. -/
theorem behind_exact (hpending : last - b ≤ 1) (rs : List ℤ) :
    behind 1000000 b last rs ≤ 2 * 1000000 := by
  induction rs generalizing b last with
  | nil =>
    rw [behind]
    omega
  | cons now rs ih =>
    have hmin : minTicks 1000000 = 1 := rfl
    rw [behind, hmin]
    split
    · rw [Int.mul_emod_left, zero_add]
      exact ih (by omega)
    · rename_i hwait
      exact ih (by omega)

/-- `n` readings, `ticks` apart. -/
def evenly (ticks : ℤ) : ℤ → ℕ → List ℤ
  | _, 0 => []
  | base, n + 1 => (base + ticks) :: evenly ticks (base + ticks) n

theorem le_of_mem_evenly {ticks : ℤ} (hticks : 0 ≤ ticks) :
    ∀ {n : ℕ} {b x : ℤ}, x ∈ evenly ticks b n → b ≤ x
  | n + 1, b, x, hx => by
    rcases List.mem_cons.mp hx with rfl | hx
    · omega
    · have := le_of_mem_evenly hticks hx
      omega

theorem evenly_sorted {ticks : ℤ} (hticks : 0 ≤ ticks) :
    ∀ (n : ℕ) (b : ℤ), (b :: evenly ticks b n).Pairwise (· ≤ ·)
  | 0, b => List.pairwise_singleton _ b
  | n + 1, b => by
    refine List.pairwise_cons.mpr ⟨fun x hx => le_of_mem_evenly hticks hx, ?_⟩
    exact evenly_sorted hticks n (b + ticks)

/-- Readings far enough apart for a division each lose the same remainder every time. -/
theorem behind_evenly {ticks : ℤ} (hgo : ticks > minTicks clockFrequency) (n : ℕ) (b : ℤ) :
    behind clockFrequency b b (evenly ticks b n) = n * (ticks * 1000000 % clockFrequency) := by
  induction n generalizing b with
  | zero =>
    rw [evenly, behind]
    push_cast
    ring
  | succ n ih =>
    have hstep : b + ticks - b = ticks := by ring
    rw [evenly, behind, hstep, if_pos hgo, ih]
    push_cast
    ring

/-- At any other frequency the least number of ticks that is divided has a remainder. -/
theorem minTicks_remainder (hF : 1000000 < clockFrequency) :
    0 < (minTicks clockFrequency + 1) * 1000000 % clockFrequency := by
  rw [minTicks_eq hF.le]
  have hsplit : (clockFrequency / 1000000 + 1) * 1000000 =
      (1000000 - clockFrequency % 1000000) + clockFrequency := by omega
  have hlow : 0 < 1000000 - clockFrequency % 1000000 := by omega
  have hlt : 1000000 - clockFrequency % 1000000 < clockFrequency := by omega
  rw [hsplit, Int.add_emod_right, Int.emod_eq_of_lt hlow.le hlt]
  exact hlow

theorem evenly_drifts (hF : 1000000 < clockFrequency) :
    ¬ NoDrift clockFrequency 0
      (evenly (minTicks clockFrequency + 1) 0 (2 * clockFrequency + 1).toNat) := by
  have hmin : 0 ≤ minTicks clockFrequency + 1 := by
    rw [minTicks_eq hF.le]
    omega
  rw [noDrift_of hF.le (evenly_sorted hmin _ 0)]
  intro h
  have hbound := h _ (List.prefix_refl _)
  have hrem := minTicks_remainder hF
  rw [behind_evenly (by omega), Int.toNat_of_nonneg (by omega)] at hbound
  nlinarith

/-- EXACT: the time does not drift on a run of readings exactly when what its divisions cut off and
    what is pending never come to more than two microseconds; and the frequencies at which it never
    drifts are the one of a tick a microsecond. -/
theorem noDrift_iff (hF : 1000000 ≤ clockFrequency) :
    (∀ first readings, (first :: readings).Pairwise (· ≤ ·) →
      (NoDrift clockFrequency first readings ↔
        ∀ rs, rs <+: readings → behind clockFrequency first first rs ≤ 2 * clockFrequency)) ∧
    ((∀ first readings, (first :: readings).Pairwise (· ≤ ·) →
      NoDrift clockFrequency first readings) ↔ clockFrequency = 1000000) := by
  refine ⟨fun first readings hsorted => noDrift_of hF hsorted, ?_⟩
  constructor
  · intro h
    by_contra hne
    have hlt : 1000000 < clockFrequency := lt_of_le_of_ne hF (Ne.symm hne)
    have hmin : 0 ≤ minTicks clockFrequency + 1 := by
      rw [minTicks_eq hF]
      omega
    exact evenly_drifts hlt (h _ _ (evenly_sorted hmin _ 0))
  · rintro rfl first readings hsorted
    rw [noDrift_of hF hsorted]
    exact fun rs _ => behind_exact (by omega) rs

/-- A counter of 3 MHz, read every microsecond and a third: six rounds lose two microseconds. -/
theorem noDrift_iff_sixRounds : NoDrift 3000000 100 [104, 108, 112, 116, 120, 124] := by
  have hlost : ∀ rs ∈ [104, 108, 112, 116, 120, 124].inits,
      behind 3000000 100 100 rs ≤ 2 * 3000000 := by decide
  refine ((noDrift_iff (by decide)).1 100 [104, 108, 112, 116, 120, 124] (by decide)).mpr ?_
  exact fun rs hrs => hlost rs ((List.mem_inits ..).mpr hrs)

/-- REFUTED: the seventh such round puts the published time more than two microseconds behind. -/
theorem sevenRounds_drift : ([100, 104, 108, 112, 116, 120, 124, 128] : List ℤ).Pairwise (· ≤ ·) ∧
    ¬ NoDrift 3000000 100 [104, 108, 112, 116, 120, 124, 128] := by
  refine ⟨by decide, ?_⟩
  rw [noDrift_of (by decide) (by decide)]
  intro h
  exact absurd (h _ (List.prefix_refl _)) (by decide)

end Esp.Timing
