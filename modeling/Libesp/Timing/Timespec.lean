import Libesp.Schemes.Cursor

/-! @esp timing | name:AddMicroseconds, TimespecToLinearMicroseconds | scheme:arithmetic |
    source:src/Timing.cpp

    The time arithmetic of the Linux timer thread. `AddMicroseconds` adds to the nanoseconds and then
    carries whole seconds over; the loop goes on while there are more than a second's nanoseconds, so
    exactly one second is left as it is.

        tv_nsec    0 ··· 999999999 │ 1000000000 │ 1000000001 ···
                   done            │ done       │ tv_sec++, tv_nsec -= 1000000000 -/

namespace Esp.Timing
open Cursor

/-- The value is an `int64_t`; what is not is undefined. -/
def Fits64 (n : ℤ) : Prop := -9223372036854775808 ≤ n ∧ n < 9223372036854775808

instance (n : ℤ) : Decidable (Fits64 n) :=
  inferInstanceAs (Decidable (-9223372036854775808 ≤ n ∧ n < 9223372036854775808))

/-- `struct timespec`. Both fields are `int64_t`, and are integers here; `addMicroseconds_inRange_iff`
    says when nothing of what is computed with them overflows. -/
structure Timespec where
  tvSec : ℤ
  tvNsec : ℤ
  deriving DecidableEq, Repr

def oneBillion : ℤ := 1000000000

def timespecToLinearMicroseconds (spec : Timespec) : ℤ :=
  spec.tvSec * 1000000 + spec.tvNsec.tdiv 1000

/-- The loop of `AddMicroseconds`; `none` when it is still running after the rounds of the first
    argument. -/
def carryLoop : ℕ → Timespec → Option Timespec
  | 0, _ => none
  | n + 1, spec =>
    if spec.tvNsec > oneBillion then carryLoop n ⟨spec.tvSec + 1, spec.tvNsec - oneBillion⟩
    else some spec

def addMicroseconds (fuel : ℕ) (spec : Timespec) (nMicroseconds : ℤ) : Option Timespec :=
  carryLoop fuel { spec with tvNsec := spec.tvNsec + wrap32 (nMicroseconds * 1000) }

/-- The whole in nanoseconds. -/
def Timespec.nanos (spec : Timespec) : ℤ := spec.tvSec * oneBillion + spec.tvNsec

/-- A `timespec` that the clock functions accept. -/
def Timespec.Normalised (spec : Timespec) : Prop := 0 ≤ spec.tvNsec ∧ spec.tvNsec < oneBillion

instance (spec : Timespec) : Decidable spec.Normalised :=
  inferInstanceAs (Decidable (0 ≤ spec.tvNsec ∧ spec.tvNsec < oneBillion))

/-- Adding `n` microseconds ends, in a valid `timespec` that is `n` microseconds later in both
    counts. -/
def Advances (spec : Timespec) (n : ℤ) : Prop :=
  ∃ spec', (∃ rounds, ∀ fuel, rounds ≤ fuel → addMicroseconds fuel spec n = some spec') ∧
    spec'.Normalised ∧ spec'.nanos = spec.nanos + n * 1000 ∧
    timespecToLinearMicroseconds spec' = timespecToLinearMicroseconds spec + n

variable {spec spec' : Timespec} {n : ℤ}

/-- Microseconds are whole thousands of nanoseconds. -/
theorem linear_eq (h : 0 ≤ spec.tvNsec) :
    timespecToLinearMicroseconds spec = spec.nanos / 1000 := by
  rw [timespecToLinearMicroseconds, Timespec.nanos, Int.tdiv_eq_ediv_of_nonneg h, oneBillion]
  omega

/-- What the carry loop makes of `spec`. -/
structure Carried (spec spec' : Timespec) : Prop where
  nanos_eq : spec'.nanos = spec.nanos
  later : spec.tvSec ≤ spec'.tvSec
  nonneg : 0 ≤ spec'.tvNsec
  le_billion : spec'.tvNsec ≤ oneBillion
  pos_of_carry : spec' = spec ∨ 0 < spec'.tvNsec

/-- RETURNS: each round takes a second off, so the loop ends within as many rounds as there are
    seconds in `tv_nsec`. -/
theorem carryLoop_returns (rounds : ℕ) (spec : Timespec) (h0 : 0 ≤ spec.tvNsec)
    (h : spec.tvNsec ≤ rounds * oneBillion) :
    ∃ spec', (∀ fuel, rounds + 1 ≤ fuel → carryLoop fuel spec = some spec') ∧
      Carried spec spec' := by
  induction rounds generalizing spec with
  | zero =>
    have hstop : ¬ spec.tvNsec > oneBillion := by
      simp only [oneBillion] at h ⊢
      omega
    refine ⟨spec, ?_, ⟨rfl, le_refl _, h0, not_lt.mp hstop, Or.inl rfl⟩⟩
    intro fuel hfuel
    obtain ⟨m, rfl⟩ : ∃ m, fuel = m + 1 := ⟨fuel - 1, by omega⟩
    rw [carryLoop, if_neg hstop]
  | succ rounds ih =>
    by_cases hgo : spec.tvNsec > oneBillion
    · obtain ⟨spec', hrun, hc⟩ := ih ⟨spec.tvSec + 1, spec.tvNsec - oneBillion⟩
        (by simp only [oneBillion] at hgo ⊢; omega)
        (by simp only [oneBillion] at h ⊢; push_cast at h; omega)
      have hsame := hc.nanos_eq
      have hlater := hc.later
      refine ⟨spec', ?_, ⟨?_, ?_, hc.nonneg, hc.le_billion, Or.inr ?_⟩⟩
      · intro fuel hfuel
        obtain ⟨m, rfl⟩ : ∃ m, fuel = m + 1 := ⟨fuel - 1, by omega⟩
        rw [carryLoop, if_pos hgo]
        exact hrun m (by omega)
      · rw [hsame]
        simp only [Timespec.nanos]
        ring
      · simp only at hlater
        omega
      · -- what is left after a carry is more than nothing, since more than a second was there
        rcases hc.pos_of_carry with rfl | hpos
        · simp only
          omega
        · exact hpos
    · refine ⟨spec, ?_, ⟨rfl, le_refl _, h0, not_lt.mp hgo, Or.inl rfl⟩⟩
      intro fuel hfuel
      obtain ⟨m, rfl⟩ : ∃ m, fuel = m + 1 := ⟨fuel - 1, by omega⟩
      rw [carryLoop, if_neg hgo]

/-- The loop leaves a whole second exactly when it was given one or more, and nothing else. -/
theorem Carried.billion_iff (h : Carried spec spec') (h0 : 0 ≤ spec.tvNsec) :
    spec'.tvNsec = oneBillion ↔ oneBillion ≤ spec.tvNsec ∧ oneBillion ∣ spec.tvNsec := by
  have hsame := h.nanos_eq
  have hlater := h.later
  have hnonneg := h.nonneg
  have hle := h.le_billion
  have hpos := h.pos_of_carry
  simp only [Timespec.nanos, oneBillion] at hsame hle ⊢
  constructor
  · intro he
    exact ⟨by omega, by omega⟩
  · rintro ⟨hge, hdvd⟩
    rcases hpos with rfl | hpos
    · omega
    · omega

/-- What `AddMicroseconds` does, wherever the nanoseconds end up. -/
theorem addMicroseconds_spec (hspec : spec.Normalised) (hn : 0 ≤ n) (hint : n * 1000 < 2147483648) :
    ∃ spec', (∀ fuel, 5 ≤ fuel → addMicroseconds fuel spec n = some spec') ∧
      spec'.nanos = spec.nanos + n * 1000 ∧
      timespecToLinearMicroseconds spec' = timespecToLinearMicroseconds spec + n ∧
      (spec'.Normalised ↔
        ¬ (oneBillion ≤ spec.tvNsec + n * 1000 ∧ oneBillion ∣ spec.tvNsec + n * 1000)) := by
  obtain ⟨h0, hlt⟩ := hspec
  have hw : wrap32 (n * 1000) = n * 1000 := wrap32_of_range (by omega) hint
  have hsum : 0 ≤ spec.tvNsec + n * 1000 := by omega
  obtain ⟨spec', hrun, hc⟩ := carryLoop_returns 4 ⟨spec.tvSec, spec.tvNsec + n * 1000⟩ hsum
    (by simp only [oneBillion] at hlt ⊢; push_cast; omega)
  have hnanos : spec'.nanos = spec.nanos + n * 1000 := by
    rw [hc.nanos_eq]
    simp only [Timespec.nanos]
    ring
  refine ⟨spec', ?_, hnanos, ?_, ?_⟩
  · intro fuel hfuel
    rw [addMicroseconds, hw]
    exact hrun fuel hfuel
  · rw [linear_eq hc.nonneg, linear_eq h0, hnanos]
    omega
  · have hbillion : spec'.tvNsec = oneBillion ↔
        oneBillion ≤ spec.tvNsec + n * 1000 ∧ oneBillion ∣ spec.tvNsec + n * 1000 :=
      hc.billion_iff hsum
    rw [← hbillion]
    have hnonneg := hc.nonneg
    have hle := hc.le_billion
    simp only [Timespec.Normalised]
    omega

/-- The sum that `Advances` speaks of is the one that is computed. -/
theorem Advances.normalised (h : Advances spec n)
    (hrun : ∀ fuel, 5 ≤ fuel → addMicroseconds fuel spec n = some spec') : spec'.Normalised := by
  obtain ⟨spec'', ⟨rounds, hrounds⟩, hvalid, -, -⟩ := h
  have hsame := hrounds (rounds + 5) (by omega)
  rw [hrun (rounds + 5) (by omega)] at hsame
  rwa [Option.some.inj hsame]

/-- EXACT: the sum is a valid `timespec` unless the nanoseconds come to a whole number of seconds, at
    least one. -/
theorem advances_iff (hspec : spec.Normalised) (hn : 0 ≤ n) (hint : n * 1000 < 2147483648) :
    Advances spec n ↔
      ¬ (oneBillion ≤ spec.tvNsec + n * 1000 ∧ oneBillion ∣ spec.tvNsec + n * 1000) := by
  obtain ⟨spec', hrun, hnanos, hlinear, hnormal⟩ := addMicroseconds_spec hspec hn hint
  rw [← hnormal]
  constructor
  · intro h
    exact h.normalised hrun
  · intro hvalid
    exact ⟨spec', ⟨5, hrun⟩, hvalid, hnanos, hlinear⟩

/-- Half a microsecond before the full second, and one more. -/
theorem advances_iff_halfway : Advances ⟨7, 999999500⟩ 1 :=
  (advances_iff (by decide) (by decide) (by decide)).mpr (by decide)

/-- REFUTED: a microsecond before the full second, the deadline of the timer loop has a whole second
    of nanoseconds. -/
theorem fullSecond_refused : Timespec.Normalised ⟨7, 999999000⟩ ∧ ¬ Advances ⟨7, 999999000⟩ 1 := by
  refine ⟨by decide, ?_⟩
  have hspec : Timespec.Normalised ⟨7, 999999000⟩ := by decide
  obtain ⟨spec', hrun, -, -, hnormal⟩ := addMicroseconds_spec hspec (n := 1) (by decide) (by decide)
  intro h
  exact absurd (by decide) (hnormal.mp (h.normalised hrun))

/-! ### Overflow -/

/-- The fields fit their types, and so does all that `TimespecToLinearMicroseconds` computes. -/
structure Timespec.InRange (spec : Timespec) : Prop where
  sec : Fits64 spec.tvSec
  nsec : Fits64 spec.tvNsec
  product : Fits64 (spec.tvSec * 1000000)
  linear : Fits64 (timespecToLinearMicroseconds spec)

/-- What `*spec` is at the tests of the loop. -/
def carryTests : ℕ → Timespec → List Timespec
  | 0, _ => []
  | n + 1, spec =>
    spec :: if spec.tvNsec > oneBillion then
      carryTests n ⟨spec.tvSec + 1, spec.tvNsec - oneBillion⟩
    else []

/-- The loop ends with a value that it has tested. -/
theorem carryLoop_mem {fuel : ℕ} (h : carryLoop fuel spec = some spec') :
    spec' ∈ carryTests fuel spec := by
  induction fuel generalizing spec with
  | zero => cases h
  | succ fuel ih =>
    rw [carryLoop] at h
    rw [carryTests]
    split at h
    · rename_i hgo
      rw [if_pos hgo]
      exact List.mem_cons_of_mem _ (ih h)
    · cases h
      exact List.mem_cons_self

/-- Every tested value is the first one with some of its seconds carried over. -/
theorem carryTests_spec {fuel : ℕ} {x : Timespec} (h0 : 0 ≤ spec.tvNsec)
    (hx : x ∈ carryTests fuel spec) :
    x.nanos = spec.nanos ∧ spec.tvSec ≤ x.tvSec ∧ 0 ≤ x.tvNsec := by
  induction fuel generalizing spec with
  | zero => cases hx
  | succ fuel ih =>
    rw [carryTests] at hx
    rcases List.mem_cons.mp hx with rfl | hx
    · exact ⟨rfl, le_refl _, h0⟩
    · split at hx
      · rename_i hgo
        obtain ⟨hsame, hlater, hnonneg⟩ := ih (by simp only; omega) hx
        refine ⟨?_, ?_, hnonneg⟩
        · rw [hsame]
          simp only [Timespec.nanos]
          ring
        · simp only at hlater
          omega
      · cases hx

/-- EXACT: nothing overflows in the call, nor in the linear counts before it, after it and on the way,
    as long as the microseconds of the whole seconds and of the sum fit. -/
theorem addMicroseconds_inRange_iff (hspec : spec.Normalised) (hn : 0 ≤ n)
    (hint : n * 1000 < 2147483648) :
    (spec.InRange ∧ ∀ fuel, ∀ x ∈ carryTests fuel
        { spec with tvNsec := spec.tvNsec + wrap32 (n * 1000) }, x.InRange) ↔
      Fits64 (spec.tvSec * 1000000) ∧ Fits64 (timespecToLinearMicroseconds spec + n) := by
  obtain ⟨h0, hlt⟩ := hspec
  rw [wrap32_of_range (by omega) hint]
  have hsum : (0 : ℤ) ≤ spec.tvNsec + n * 1000 := by omega
  have hlinear := linear_eq h0
  -- every value on the way counts the same microseconds
  have hsame : ∀ fuel, ∀ x ∈ carryTests fuel { spec with tvNsec := spec.tvNsec + n * 1000 },
      timespecToLinearMicroseconds x = timespecToLinearMicroseconds spec + n ∧
        spec.tvSec ≤ x.tvSec ∧ 0 ≤ x.tvNsec ∧ x.nanos = spec.nanos + n * 1000 := by
    intro fuel x hx
    obtain ⟨hnanos, hlater, hnonneg⟩ := carryTests_spec (by exact hsum) hx
    have hsum' : x.nanos = spec.nanos + n * 1000 := by
      rw [hnanos]
      simp only [Timespec.nanos]
      ring
    refine ⟨?_, hlater, hnonneg, hsum'⟩
    rw [linear_eq hnonneg, hlinear, hsum']
    omega
  constructor
  · rintro ⟨hspec, hall⟩
    have hfirst := hall 1 _ (by rw [carryTests]; exact List.mem_cons_self)
    refine ⟨hspec.product, ?_⟩
    rw [← (hsame 1 _ (by rw [carryTests]; exact List.mem_cons_self)).1]
    exact hfirst.linear
  · rintro ⟨⟨hlow, hhigh⟩, -, hfits⟩
    have hnanos : spec.nanos = spec.tvSec * oneBillion + spec.tvNsec := rfl
    simp only [oneBillion] at hlt hnanos
    refine ⟨?_, ?_⟩
    · constructor <;> unfold Fits64 <;> omega
    · intro fuel x hx
      obtain ⟨hcount, hlater, hnonneg, hnext⟩ := hsame fuel x hx
      have hx' : x.nanos = x.tvSec * oneBillion + x.tvNsec := rfl
      have hxlinear := linear_eq hnonneg
      simp only [oneBillion] at hx'
      constructor <;> unfold Fits64 <;> omega

/-- Within that range the sum is in range too. -/
theorem addMicroseconds_inRange {fuel : ℕ} (hspec : spec.Normalised) (hn : 0 ≤ n)
    (hint : n * 1000 < 2147483648) (hproduct : Fits64 (spec.tvSec * 1000000))
    (hsum : Fits64 (timespecToLinearMicroseconds spec + n))
    (hrun : addMicroseconds fuel spec n = some spec') : spec'.InRange := by
  obtain ⟨-, hall⟩ := (addMicroseconds_inRange_iff hspec hn hint).mpr ⟨hproduct, hsum⟩
  exact hall fuel spec' (carryLoop_mem hrun)

end Esp.Timing
