import Libesp.Event
import Libesp.Queue.LocklessRing

/-! @esp queue | name:LocklessRingQueue | scheme:arithmetic |
    source:src/queue/lockless_ring.h (modcap, modcap_eq, TryEnqueue, TryDequeue)

    Sequences of calls of any length. The cursors are never reduced, so after 2^31 accepted enqueues
    they are negative, and the remainder of a negative `int` is not a slot.

        accepted      … 2^31 - 2   2^31 - 1       2^31        2^31 + 1
        front         … 2^31 - 2   2^31 - 1      -2^31       -2^31 + 1
        modcap front      a slot     a slot    0 if cap ∣ 2^31   negative

    `Sound` is what a state owes its next call, `Within` says how far the counts may go
    (`soundThroughout_iff`). -/

namespace Esp.LocklessRing
open Cursor Memory

/-- The queue with the numbers of enqueues accepted and of entries handed out so far. -/
structure Counted (α : Type) where
  ring : RingQueue α
  accepted : ℕ
  taken : ℕ

inductive Op (α : Type) where
  | enqueue (value : α)
  | dequeue
  | dequeueBulk (maxOut : ℕ)

variable {α : Type} (cap : ℕ)

def Counted.op (s : Counted α) : Op α → Counted α
  | .enqueue value =>
    let got := s.ring.tryEnqueue cap value
    { s with ring := got.2, accepted := s.accepted + if got.1 then 1 else 0 }
  | .dequeue =>
    let got := s.ring.tryDequeue cap
    { s with ring := got.2, taken := s.taken + if got.1.isSome then 1 else 0 }
  | .dequeueBulk maxOut =>
    let got := s.ring.tryDequeueBulk cap maxOut
    { s with ring := got.2, taken := s.taken + got.1.length }

/-- A new queue after the calls `ops`. -/
def after (junk : ℤ → α) (ops : List (Op α)) : Counted α :=
  ops.foldl (Counted.op cap) ⟨RingQueue.new junk, 0, 0⟩

/-- The true number of stored entries. -/
def Counted.stored (s : Counted α) : ℤ := s.accepted - s.taken

/-- What the next call does is right: the tests agree with the number of stored entries, the slots it
    uses are slots of the ring, and a block is no longer than what is stored. -/
structure Sound (s : Counted α) : Prop where
  empty_iff : s.ring.empty cap = true ↔ s.stored = 0
  full_iff : s.ring.full cap = true ↔ s.stored + 1 = cap
  enqueue_slot : ¬ s.ring.full cap = true →
    0 ≤ modcap cap s.ring.front ∧ modcap cap s.ring.front < cap
  dequeue_iff : modcapEq cap s.ring.readfront s.ring.back = true ↔ s.stored = 0
  dequeue_slot : ¬ modcapEq cap s.ring.readfront s.ring.back = true →
    0 ≤ modcap cap s.ring.back ∧ modcap cap s.ring.back < cap
  block : ¬ modcapEq cap s.ring.readfront s.ring.back = true → ∀ maxOut : ℕ,
    let k := blockCopySize cap (modcap cap s.ring.readfront) (modcap cap s.ring.back) maxOut
    0 ≤ k ∧ k ≤ s.stored ∧ modcap cap s.ring.back + k ≤ cap

/-- Fewer than 2^31 - 1 enqueues have been accepted; or 2^31 - 1, and the capacity divides 2^31 or the
    queue is not full; or 2^31, and both. -/
def Within (s : Counted α) : Prop :=
  s.accepted + 1 < 2147483648 ∨
  (s.accepted + 1 = 2147483648 ∧ ((cap : ℤ) ∣ 2147483648 ∨ s.stored + 1 ≠ cap)) ∨
  (s.accepted = 2147483648 ∧ (cap : ℤ) ∣ 2147483648 ∧ s.stored + 1 ≠ cap)

/-- `p` holds before, between and after the calls. -/
def Throughout (p : Counted α → Prop) (junk : ℤ → α) (ops : List (Op α)) : Prop :=
  ∀ ops', ops' <+: ops → p (after cap junk ops')

/-- INVARIANT: the cursors are the counts in 32 bits, and the counts have not gone past the first
    negative slot. -/
structure Tracks (s : Counted α) : Prop where
  front_eq : s.ring.front = wrap32 s.accepted
  readfront_eq : s.ring.readfront = s.ring.front
  back_eq : s.ring.back = wrap32 s.taken
  taken_le : s.taken ≤ s.accepted
  room : s.accepted < s.taken + cap
  accepted_le : s.accepted ≤ 2147483649
  lapped : 2147483648 < s.accepted → (cap : ℤ) ∣ 2147483648
  idle : cap = 1 → s.accepted = 0

variable {cap} {s : Counted α}

theorem tracks_new (hcap : 0 < cap) (junk : ℤ → α) :
    Tracks cap (⟨RingQueue.new junk, 0, 0⟩ : Counted α) := by
  have hzero : wrap32 ((0 : ℕ) : ℤ) = 0 := wrap32_of_range (by omega) (by omega)
  refine ⟨hzero.symm, rfl, hzero.symm, le_refl _, ?_, ?_, ?_, fun _ => rfl⟩
  · rwa [Nat.zero_add]
  · show 0 ≤ 2147483649
    omega
  · intro h
    change 2147483648 < 0 at h
    omega

/-- A whole number of laps is 2^31 and 2^31 - 1 only for a ring of one slot. -/
theorem cap_eq_one (h : (cap : ℤ) ∣ 2147483648) (h' : (cap : ℤ) ∣ 2147483647) : cap = 1 := by
  have hone : (cap : ℤ) ∣ (1 : ℕ) := by
    have hsub := dvd_sub h h'
    rwa [show (2147483648 : ℤ) - 2147483647 = (1 : ℕ) by norm_num] at hsub
  exact Nat.dvd_one.mp (Int.natCast_dvd_natCast.mp hone)

/-- The remainder of a negative cursor is a slot only for a whole number of laps. -/
theorem dvd_of_tmod_wrap32_nonneg {x n : ℤ} (h0 : 2147483648 ≤ x) (h1 : x ≤ 4294967296)
    (h : 0 ≤ (wrap32 x).tmod n) : n ∣ 4294967296 - x := by
  rw [tmod_wrap32_of_ge h0 (by omega)] at h
  have hpos : 0 ≤ (4294967296 - x).tmod n := tmod_nonneg (by omega)
  exact Int.dvd_of_tmod_eq_zero (by omega)

/-! ### Within the counts -/

/-- Within the counts, the cursors still read as the counts do. -/
theorem Within.accepted_reads (hw : Within cap s) :
    s.accepted < 2147483648 ∨ s.accepted = 2147483648 ∧ (cap : ℤ) ∣ 2147483648 := by
  rcases hw with hlt | ⟨heq, -⟩ | ⟨heq, hdvd, -⟩
  · exact Or.inl (by omega)
  · exact Or.inl (by omega)
  · exact Or.inr ⟨heq, hdvd⟩

theorem Tracks.slot_back (h : Tracks cap s)
    (hF : s.accepted < 2147483648 ∨ s.accepted = 2147483648 ∧ (cap : ℤ) ∣ 2147483648) :
    modcap cap s.ring.back = (s.taken : ℤ).tmod cap := by
  have hle := h.taken_le
  rw [modcap, h.back_eq, tmod_wrap32 (by omega)]
  rcases hF with hlt | ⟨heq, hdvd⟩
  · exact Or.inl (by omega)
  · rcases Nat.lt_or_ge s.taken 2147483648 with hlt | hge
    · exact Or.inl (by omega)
    · exact Or.inr ⟨by omega, hdvd⟩

theorem Tracks.slot_front (h : Tracks cap s)
    (hF : s.accepted < 2147483648 ∨ s.accepted = 2147483648 ∧ (cap : ℤ) ∣ 2147483648) :
    modcap cap s.ring.front = (s.accepted : ℤ).tmod cap := by
  rw [modcap, h.front_eq, tmod_wrap32 (by omega)]
  rcases hF with hlt | ⟨heq, hdvd⟩
  · exact Or.inl (by omega)
  · exact Or.inr ⟨by omega, hdvd⟩

/-- The slot the full test looks at. -/
theorem Tracks.slot_next (h : Tracks cap s) :
    modcap cap (wrap32 (s.ring.front + 1)) = (wrap32 (s.accepted + 1)).tmod cap := by
  rw [modcap, h.front_eq, wrap32_add]

/-- Two counts less than a lap apart share a slot only when they are equal. -/
theorem tmod_counts_iff {F B : ℕ} (h0 : B ≤ F) (h1 : F < B + cap) :
    (F : ℤ).tmod cap = (B : ℤ).tmod cap ↔ (F : ℤ) - B = 0 := by
  constructor
  · intro h
    have heq := eq_of_tmod_eq h (by omega) (by omega)
    omega
  · intro h
    rw [show (F : ℤ) = B by omega]

theorem Tracks.full_within (h : Tracks cap s) (hw : Within cap s) :
    s.ring.full cap = true ↔ s.stored + 1 = cap := by
  have hle := h.taken_le
  have hroom := h.room
  have hF := hw.accepted_reads
  have hB0 : 0 ≤ (s.taken : ℤ).tmod cap := tmod_nonneg (by omega)
  rw [RingQueue.full, modcapEq_iff, h.slot_next, h.slot_back hF, Counted.stored]
  -- below the first wrap that shows, full is one lap; past it the test says no
  have hlap : s.accepted + 1 < 2147483648 ∨ s.accepted + 1 = 2147483648 ∧ (cap : ℤ) ∣ 2147483648 →
      ((wrap32 (s.accepted + 1)).tmod cap = (s.taken : ℤ).tmod cap ↔
        (s.accepted : ℤ) - s.taken + 1 = cap) := by
    intro hnext
    rw [tmod_wrap32 (by omega) (by omega)]
    constructor
    · intro heq
      by_contra hne
      have := eq_of_tmod_eq heq (by omega) (by omega)
      omega
    · intro heq
      exact tmod_eq_of_dvd_sub (by omega) (by omega) ⟨1, by omega⟩
  rcases hw with hlt | ⟨heq, hor⟩ | ⟨heq, hdvd, hne⟩
  · exact hlap (Or.inl hlt)
  · by_cases hdvd : (cap : ℤ) ∣ 2147483648
    · exact hlap (Or.inr ⟨heq, hdvd⟩)
    · have hne := hor.resolve_left hdvd
      refine ⟨fun hc => ?_, fun hc => absurd hc hne⟩
      have hd := dvd_of_tmod_wrap32_nonneg (by omega) (by omega)
        (le_of_le_of_eq hB0 hc.symm)
      rw [show (4294967296 : ℤ) - (s.accepted + 1) = 2147483648 by omega] at hd
      exact absurd hd hdvd
  · refine ⟨fun hc => ?_, fun hc => absurd hc hne⟩
    have hd := dvd_of_tmod_wrap32_nonneg (by omega) (by omega)
        (le_of_le_of_eq hB0 hc.symm)
    rw [show (4294967296 : ℤ) - (s.accepted + 1) = 2147483647 by omega] at hd
    have hidle := h.idle (cap_eq_one hdvd hd)
    omega

theorem Tracks.sound (h : Tracks cap s) (hw : Within cap s) : Sound cap s := by
  have hle := h.taken_le
  have hroom := h.room
  have hF := hw.accepted_reads
  have hpos : (0 : ℤ) < cap := by omega
  have hempty := tmod_counts_iff hle hroom
  have hfront := h.slot_front hF
  have hback := h.slot_back hF
  have hF0 : 0 ≤ (s.accepted : ℤ).tmod cap := tmod_nonneg (by omega)
  have hB0 : 0 ≤ (s.taken : ℤ).tmod cap := tmod_nonneg (by omega)
  have hFc : (s.accepted : ℤ).tmod cap < cap := tmod_lt (by omega) hpos
  have hBc : (s.taken : ℤ).tmod cap < cap := tmod_lt (by omega) hpos
  refine ⟨?_, h.full_within hw, ?_, ?_, ?_, ?_⟩
  · rw [RingQueue.empty, modcapEq_iff, hfront, hback]
    exact hempty
  · intro _
    rw [hfront]
    exact ⟨hF0, hFc⟩
  · rw [modcapEq_iff, h.readfront_eq, hfront, hback]
    exact hempty
  · intro _
    rw [hback]
    exact ⟨hB0, hBc⟩
  · intro hne maxOut k
    rw [modcapEq_iff, h.readfront_eq, hfront, hback, hempty] at hne
    have hk : k = min (maxOut : ℤ) (min ((s.accepted : ℤ) - s.taken)
        (cap - modcap cap (s.taken : ℤ))) := by
      rw [← blockCopySize_eq (by omega) (by omega) (by omega) maxOut]
      simp only [k, h.readfront_eq, hfront, hback]
      rfl
    rw [hback, Counted.stored]
    simp only [modcap] at hk
    omega

/-! ### Past the counts -/

/-- The full test of a queue that is full while its oldest entry is below the last `int`. -/
theorem Tracks.full_slot (h : Tracks cap s) (hs : Sound cap s) (hge : 2147483648 ≤ s.accepted + 1)
    (hfull : s.stored + 1 = cap) (htaken : s.taken < 2147483648) :
    (cap : ℤ) ∣ 4294967296 - (s.accepted + 1) ∧ (cap : ℤ) ∣ s.taken := by
  have hacc := h.accepted_le
  have htest := hs.full_iff.mpr hfull
  have hB0 : 0 ≤ (s.taken : ℤ).tmod cap := tmod_nonneg (by omega)
  have hback : modcap cap s.ring.back = (s.taken : ℤ).tmod cap := by
    rw [modcap, h.back_eq, tmod_wrap32 (by omega) (Or.inl (by omega))]
  rw [RingQueue.full, modcapEq_iff, h.slot_next, hback] at htest
  have hd := dvd_of_tmod_wrap32_nonneg (by omega) (by omega) (le_of_le_of_eq hB0 htest.symm)
  rw [tmod_wrap32_of_ge (by omega) (by omega), Int.tmod_eq_zero_of_dvd hd, neg_zero] at htest
  exact ⟨hd, Int.dvd_of_tmod_eq_zero htest.symm⟩

/-- A queue with a negative front is full, or its front stands for slot 0. -/
theorem Tracks.front_slot (h : Tracks cap s) (hs : Sound cap s) (hge : 2147483648 ≤ s.accepted) :
    s.stored + 1 = cap ∨ (cap : ℤ) ∣ 4294967296 - s.accepted := by
  have hacc := h.accepted_le
  by_cases hfull : s.ring.full cap = true
  · exact Or.inl (hs.full_iff.mp hfull)
  · have hslot := (hs.enqueue_slot hfull).1
    rw [modcap, h.front_eq] at hslot
    exact Or.inr (dvd_of_tmod_wrap32_nonneg (by omega) (by omega) hslot)

/-- With two slots and a last entry in slot 0, a block is a whole lap. -/
theorem Tracks.block_two (h : Tracks 2 s) (ha : s.accepted = 2147483649) (ht : s.taken = 2147483648) :
    ¬ Sound 2 s := by
  intro hs
  have hfront : modcap 2 s.ring.readfront = -1 := by
    rw [modcap, h.readfront_eq, h.front_eq, ha]
    decide
  have hback : modcap 2 s.ring.back = 0 := by
    rw [modcap, h.back_eq, ht]
    decide
  have hne : ¬ modcapEq 2 s.ring.readfront s.ring.back = true := by
    rw [modcapEq_iff, hfront, hback]
    decide
  have hblock := (hs.block hne 2).2.1
  rw [hfront, hback, Counted.stored, ha, ht] at hblock
  exact absurd hblock (by decide)

theorem Tracks.within (h : Tracks cap s) (hs : Sound cap s) : Within cap s := by
  have hacc := h.accepted_le
  have hle := h.taken_le
  have hstored : s.stored = s.accepted - s.taken := rfl
  rcases Nat.lt_or_ge (s.accepted + 1) 2147483648 with hlt | hge
  · exact Or.inl hlt
  rcases Nat.lt_or_ge s.accepted 2147483648 with hlast | hge
  · -- the last `int`: a full queue shows only for whole laps
    refine Or.inr (Or.inl ⟨by omega, ?_⟩)
    by_contra hnot
    rw [not_or, not_not] at hnot
    obtain ⟨hd, -⟩ := h.full_slot hs (by omega) hnot.2 (by omega)
    rw [show (4294967296 : ℤ) - (s.accepted + 1) = 2147483648 by omega] at hd
    exact hnot.1 hd
  have hcap : 1 < cap := by
    have hroom := h.room
    have hidle := h.idle
    by_contra hsmall
    have := hidle (by omega)
    omega
  rcases Nat.lt_or_ge 2147483648 s.accepted with hover | hat
  · exfalso
    have hlaps := h.lapped hover
    rcases h.front_slot hs hge with hfull | hd
    · -- the queue is full: its test shows that only with two slots
      rcases Nat.lt_or_ge 2 cap with hmore | htwo
      · obtain ⟨hd, -⟩ := h.full_slot hs (by omega) hfull (by omega)
        rw [show (4294967296 : ℤ) - (s.accepted + 1) = 2147483646 by omega] at hd
        have hdvd : (cap : ℤ) ∣ 2 := by
          have hdiff := dvd_sub hlaps hd
          rwa [show (2147483648 : ℤ) - 2147483646 = 2 by norm_num] at hdiff
        have := Int.le_of_dvd (by omega) hdvd
        omega
      · obtain rfl : cap = 2 := by omega
        exact h.block_two (by omega) (by omega) hs
    · rw [show (4294967296 : ℤ) - s.accepted = 2147483647 by omega] at hd
      have := cap_eq_one hlaps hd
      omega
  · -- a full queue does not show, and the front stands for a slot only for whole laps
    have hnotfull : s.stored + 1 ≠ cap := by
      intro hfull
      obtain ⟨hd, hdt⟩ := h.full_slot hs (by omega) hfull (by omega)
      rw [show (4294967296 : ℤ) - (s.accepted + 1) = 2147483647 by omega] at hd
      have hdiff := dvd_sub hd hdt
      rw [show (2147483647 : ℤ) - s.taken = cap - 2 by omega] at hdiff
      have hzero := Int.eq_zero_of_dvd_of_nonneg_of_lt (by omega) (by omega) hdiff
      rw [show (cap : ℤ) = 2 by omega] at hd
      omega
    refine Or.inr (Or.inr ⟨by omega, ?_, hnotfull⟩)
    have hd := (h.front_slot hs hge).resolve_left hnotfull
    rwa [show (4294967296 : ℤ) - s.accepted = 2147483648 by omega] at hd

/-- EXACT: a state whose cursors follow the counts is sound as long as the counts allow. -/
theorem Tracks.sound_iff (h : Tracks cap s) : Sound cap s ↔ Within cap s :=
  ⟨h.within, h.sound⟩

/-! ### Calls -/

theorem Tracks.enqueue (h : Tracks cap s) (hw : Within cap s) (v : α) :
    Tracks cap (s.op cap (.enqueue v)) := by
  have hle := h.taken_le
  have hroom := h.room
  have hfull := h.full_within hw
  have hstored : s.stored = s.accepted - s.taken := rfl
  by_cases hf : s.ring.full cap = true
  · rw [Counted.op, tryEnqueue_full hf]
    exact h
  · have hne : s.stored + 1 ≠ cap := fun he => hf (hfull.mpr he)
    rw [Counted.op, tryEnqueue_room hf]
    refine ⟨?_, ?_, h.back_eq, ?_, ?_, ?_, ?_, ?_⟩
    · simp only [h.front_eq, wrap32_add, if_true, Nat.cast_add, Nat.cast_one]
    · simp only [h.readfront_eq]
    · simp only [if_true]
      omega
    · simp only [if_true]
      omega
    · simp only [if_true]
      rcases hw with hlt | ⟨heq, -⟩ | ⟨heq, -⟩ <;> omega
    · simp only [if_true]
      intro hover
      rcases hw with hlt | ⟨heq, -⟩ | ⟨-, hdvd, -⟩
      · omega
      · omega
      · exact hdvd
    · intro hone
      have hidle := h.idle hone
      omega

theorem Tracks.dequeue (h : Tracks cap s) (hs : Sound cap s) : Tracks cap (s.op cap .dequeue) := by
  have hle := h.taken_le
  have hroom := h.room
  have hstored : s.stored = s.accepted - s.taken := rfl
  by_cases he : modcapEq cap s.ring.readfront s.ring.back = true
  · have hnone : s.ring.tryDequeue cap = (none, s.ring) := by
      rw [RingQueue.tryDequeue, if_pos he]
    rw [Counted.op, hnone]
    exact h
  · have hne : s.stored ≠ 0 := fun hz => he (hs.dequeue_iff.mpr hz)
    rw [Counted.op, RingQueue.tryDequeue, if_neg he]
    refine ⟨h.front_eq, h.readfront_eq, ?_, ?_, ?_, h.accepted_le, h.lapped, h.idle⟩
    · simp only [h.back_eq, wrap32_add, Option.isSome_some, if_true, Nat.cast_add, Nat.cast_one]
    · simp only [Option.isSome_some, if_true]
      omega
    · simp only [Option.isSome_some, if_true]
      omega

theorem Tracks.dequeueBulk (h : Tracks cap s) (hs : Sound cap s) (maxOut : ℕ) :
    Tracks cap (s.op cap (.dequeueBulk maxOut)) := by
  have hle := h.taken_le
  have hroom := h.room
  have hstored : s.stored = s.accepted - s.taken := rfl
  by_cases he : modcapEq cap s.ring.readfront s.ring.back = true
  · rw [Counted.op, RingQueue.tryDequeueBulk]
    simp only [if_pos (modcapEq_iff.mp he)]
    exact h
  · obtain ⟨hk0, hk, -⟩ := hs.block he maxOut
    rw [Counted.op, RingQueue.tryDequeueBulk]
    simp only [if_neg fun hz => he (modcapEq_iff.mpr hz), length_slice]
    generalize blockCopySize cap (modcap cap s.ring.readfront) (modcap cap s.ring.back) maxOut = k
      at hk0 hk
    refine ⟨h.front_eq, h.readfront_eq, ?_, ?_, ?_, h.accepted_le, h.lapped, h.idle⟩
    · simp only [h.back_eq, wrap32_add, Nat.cast_add, Int.toNat_of_nonneg hk0]
    · simp only
      omega
    · simp only
      omega

/-- STEP: from a sound state the cursors follow the counts. -/
theorem tracks_op (h : Tracks cap s) (hs : Sound cap s) (o : Op α) : Tracks cap (s.op cap o) := by
  cases o with
  | enqueue v => exact h.enqueue (h.within hs) v
  | dequeue => exact h.dequeue hs
  | dequeueBulk maxOut => exact h.dequeueBulk hs maxOut

/-! ### Sequences of calls -/

variable {p : Counted α → Prop} {junk : ℤ → α} {ops : List (Op α)}

theorem after_concat (cap : ℕ) (junk : ℤ → α) (ops : List (Op α)) (o : Op α) :
    after cap junk (ops ++ [o]) = (after cap junk ops).op cap o := by
  rw [after, List.foldl_append]
  rfl

theorem throughout_nil : Throughout cap p junk [] ↔ p (after cap junk []) := by
  constructor
  · intro h
    exact h [] (List.prefix_refl [])
  · intro h ops' hpre
    rwa [List.prefix_nil.mp hpre]

theorem throughout_concat {o : Op α} : Throughout cap p junk (ops ++ [o]) ↔
    Throughout cap p junk ops ∧ p (after cap junk (ops ++ [o])) := by
  constructor
  · intro h
    exact ⟨fun ops' hpre => h ops' (hpre.trans (List.prefix_append ops [o])), h _ (List.prefix_refl _)⟩
  · rintro ⟨h, hlast⟩ ops' hpre
    rcases List.prefix_concat_iff.mp hpre with rfl | hpre
    · exact hlast
    · exact h ops' hpre

theorem Throughout.last (h : Throughout cap p junk ops) : p (after cap junk ops) :=
  h ops (List.prefix_refl ops)

/-- RUN: the induction is on the calls; the cursors follow the counts up to and including the state
    after the last sound one. -/
theorem tracks_run (hcap : 0 < cap) (junk : ℤ → α) (ops : List (Op α)) :
    (Throughout cap (Sound cap) junk ops ↔ Throughout cap (Within cap) junk ops) ∧
      (Throughout cap (Within cap) junk ops → Tracks cap (after cap junk ops)) := by
  induction ops using List.reverseRecOn with
  | nil =>
    have hnew := tracks_new hcap junk
    refine ⟨?_, fun _ => hnew⟩
    rw [throughout_nil, throughout_nil]
    exact hnew.sound_iff
  | append_singleton ops o ih =>
    obtain ⟨hiff, htracks⟩ := ih
    have hstep : Throughout cap (Within cap) junk ops → Tracks cap (after cap junk (ops ++ [o])) := by
      intro hw
      rw [after_concat]
      exact tracks_op (htracks hw) (hiff.mpr hw).last o
    refine ⟨?_, fun hw => hstep (throughout_concat.mp hw).1⟩
    rw [throughout_concat, throughout_concat, hiff]
    exact and_congr_right fun hw => (hstep hw).sound_iff

/-- EXACT: in every sequence of calls, every state is sound exactly when every state is within the
    counts. -/
theorem soundThroughout_iff (hcap : 0 < cap) (junk : ℤ → α) (ops : List (Op α)) :
    Throughout cap (Sound cap) junk ops ↔ Throughout cap (Within cap) junk ops :=
  (tracks_run hcap junk ops).1

/-- Every call accepts one entry at most, so a short sequence stays within the counts. -/
theorem accepted_le_length (cap : ℕ) (junk : ℤ → α) (ops : List (Op α)) :
    (after cap junk ops).accepted ≤ ops.length := by
  induction ops using List.reverseRecOn with
  | nil => exact le_refl 0
  | append_singleton ops o ih =>
    rw [after_concat, List.length_append, List.length_singleton]
    rcases o with v | _ | maxOut
    · rw [Counted.op]
      simp only
      split <;> omega
    · exact ih.trans (Nat.le_succ _)
    · exact ih.trans (Nat.le_succ _)

theorem within_of_length (cap : ℕ) (junk : ℤ → α) (hlen : ops.length + 1 < 2147483648) :
    Throughout cap (Within cap) junk ops := by
  intro ops' hpre
  have hacc := accepted_le_length cap junk ops'
  have hle := hpre.length_le
  exact Or.inl (by omega)

/-- A ring of three slots, filled, refused and emptied across its end. -/
def fillAndDrain : List (Op ℕ) :=
  [.enqueue 1, .enqueue 2, .enqueue 3, .dequeue, .enqueue 4, .dequeueBulk 5, .dequeueBulk 5, .dequeue]

theorem soundThroughout_iff_fillAndDrain :
    Throughout 3 (Sound 3) (fun _ => 0) fillAndDrain ∧ (after 3 (fun _ => 0) fillAndDrain).taken = 3 :=
  ⟨(soundThroughout_iff (by decide) (fun _ => 0) fillAndDrain).mpr
    (within_of_length 3 _ (by decide)), by decide⟩

/-- `n` entries, each handed out before the next comes. -/
def passThrough (v : α) : ℕ → List (Op α)
  | 0 => []
  | n + 1 => passThrough v n ++ [.enqueue v] ++ [.dequeue]

theorem passThrough_counts (hcap : 1 < cap) (junk : ℤ → α) (v : α) (n : ℕ)
    (hs : Throughout cap (Sound cap) junk (passThrough v n)) :
    (after cap junk (passThrough v n)).accepted = n ∧ (after cap junk (passThrough v n)).taken = n := by
  induction n with
  | zero => exact ⟨rfl, rfl⟩
  | succ n ih =>
    obtain ⟨hs₁, -⟩ := throughout_concat.mp hs
    obtain ⟨hs₀, -⟩ := throughout_concat.mp hs₁
    obtain ⟨hacc, htaken⟩ := ih hs₀
    have hsound := hs₀.last
    have hsound₁ := hs₁.last
    rw [passThrough, after_concat]
    rw [after_concat] at hsound₁ ⊢
    generalize after cap junk (passThrough v n) = s at hacc htaken hsound hsound₁
    have hroom : ¬ s.ring.full cap = true := by
      rw [hsound.full_iff, Counted.stored, hacc, htaken]
      omega
    have hacc₁ : (s.op cap (.enqueue v)).accepted = n + 1 := by
      rw [Counted.op, tryEnqueue_room hroom, hacc]
      rfl
    have htaken₁ : (s.op cap (.enqueue v)).taken = n := htaken
    generalize s.op cap (.enqueue v) = s₁ at hacc₁ htaken₁ hsound₁
    have hsome : ¬ modcapEq cap s₁.ring.readfront s₁.ring.back = true := by
      rw [hsound₁.dequeue_iff, Counted.stored, hacc₁, htaken₁]
      omega
    rw [Counted.op, RingQueue.tryDequeue, if_neg hsome]
    exact ⟨hacc₁, congrArg (· + 1) htaken₁⟩

/-- REFUTED: after 2^31 + 1 events have passed through the event ring, the next one goes to a negative
    slot. -/
theorem passThrough_unsound : ¬ Throughout Event.espMaxEventBuffer (Sound Event.espMaxEventBuffer)
    (fun _ => 0) (passThrough 0 2147483649 : List (Op ℕ)) := by
  intro hs
  have hcap : 1 < Event.espMaxEventBuffer := by decide
  obtain ⟨hacc, -⟩ := passThrough_counts hcap _ 0 2147483649 hs
  have hw := ((tracks_run (Nat.lt_of_succ_lt hcap) _ _).1.mp hs).last
  rw [Within, hacc] at hw
  omega

end Esp.LocklessRing
