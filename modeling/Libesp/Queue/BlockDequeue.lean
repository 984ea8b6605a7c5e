import Libesp.Schemes.Objects
import Libesp.Queue.RingCursors
import Libesp.Queue.RingOverflow

/-! @esp queue | name:LocklessRingQueue | scheme:equivalence | source:src/queue/lockless_ring.h

    The two forms of `TryDequeue` against each other. The block form works on reduced cursors and stops
    at the physical end of the array; so many single calls hand out the same entries and leave the same
    queue behind.

        slot       0   1   2   3   4   5
                 │ c │ d │   │   │ a │ b │      first block a b, second block c d

    All that is needed of a state is that the consumer's two cursors are in order and less than a
    capacity apart, which every sequence of calls and every run of the threads keeps. -/

namespace Esp.LocklessRing
open Cursor Memory Objects

variable {α : Type} (cap : ℕ)

/-- The entries the consumer may take: those from `back` up to `readfront`, in order. -/
def RingQueue.stored (r : RingQueue α) : List α :=
  (List.range (r.readfront - r.back).toNat).map fun i : ℕ => r.buffer (modcap cap (r.back + i))

/-- `k` calls of `TryDequeue(T*)`. -/
def RingQueue.dequeues (r : RingQueue α) (k : ℕ) : List (Option α) × RingQueue α :=
  (answers (fun (r : RingQueue α) (_ : Unit) => r.tryDequeue cap) r (List.replicate k ()),
    final (fun (r : RingQueue α) (_ : Unit) => r.tryDequeue cap) r (List.replicate k ()))

/-- A block is what so many single calls take, and its length is the request, unless less is stored
    before the physical end of the array; two blocks of any sufficient size empty the queue. -/
structure BlockAgrees (r : RingQueue α) : Prop where
  singles : ∀ maxOut, r.dequeues cap (r.tryDequeueBulk cap maxOut).1.length =
    ((r.tryDequeueBulk cap maxOut).1.map some, (r.tryDequeueBulk cap maxOut).2)
  le_request : ∀ maxOut, (r.tryDequeueBulk cap maxOut).1.length ≤ maxOut
  length_eq : ∀ maxOut, ((r.tryDequeueBulk cap maxOut).1.length : ℤ) =
    min (maxOut : ℤ) (min ((r.stored cap).length : ℤ) (cap - modcap cap r.back))
  none_only : ∀ maxOut, (r.tryDequeueBulk cap maxOut).1.length = 0 → r.stored cap = [] ∨ maxOut = 0
  two_empty : ∀ maxOut, (r.stored cap).length ≤ maxOut →
    (r.tryDequeueBulk cap maxOut).1 ++ ((r.tryDequeueBulk cap maxOut).2.tryDequeueBulk cap maxOut).1 =
      r.stored cap ∧
    ((r.tryDequeueBulk cap maxOut).2.tryDequeueBulk cap maxOut).2.stored cap = []

/-- The consumer's cursors are in order and less than a capacity apart, and have not overflowed. -/
structure Window (r : RingQueue α) : Prop where
  back_nonneg : 0 ≤ r.back
  back_le : r.back ≤ r.readfront
  readfront_lt : r.readfront < r.back + cap
  no_overflow : r.readfront < 2147483648

variable {cap} {r : RingQueue α}

theorem Window.cap_pos (h : Window cap r) : (0 : ℤ) < cap := by
  have := h.back_le
  have := h.readfront_lt
  omega

variable (cap) in
theorem length_stored (r : RingQueue α) :
    (r.stored cap).length = (r.readfront - r.back).toNat := by
  rw [RingQueue.stored, List.length_map, List.length_range]

/-- Moving `back` up by `k` keeps the window. -/
theorem Window.advance (h : Window cap r) {k : ℤ} (h0 : 0 ≤ k) (hk : r.back + k ≤ r.readfront) :
    Window cap { r with back := r.back + k } := by
  have hback := h.back_nonneg
  have hlt := h.readfront_lt
  refine ⟨?_, hk, ?_, h.no_overflow⟩
  · simp only
    omega
  · simp only
    omega

/-- What is left after the first `k` entries. -/
theorem Window.stored_advance (h : Window cap r) {k : ℕ} (hk : r.back + k ≤ r.readfront) :
    ({ r with back := r.back + k } : RingQueue α).stored cap = (r.stored cap).drop k := by
  have hback := h.back_nonneg
  apply List.ext_getElem
  · rw [List.length_drop, length_stored, length_stored]
    simp only
    omega
  · intro i h1 h2
    rw [List.getElem_drop]
    simp only [RingQueue.stored, List.getElem_map, List.getElem_range, Nat.cast_add]
    rw [add_assoc]

theorem Window.tryDequeue_empty (h : r.back = r.readfront) : r.tryDequeue cap = (none, r) := by
  rw [RingQueue.tryDequeue, if_pos (by rw [modcapEq_iff, h])]

/-- STEP: a single call takes the first entry of those stored. -/
theorem Window.tryDequeue (h : Window cap r) (hlt : r.back < r.readfront) :
    r.tryDequeue cap =
      (some (r.buffer (modcap cap r.back)), { r with back := r.back + 1 }) := by
  have hback := h.back_nonneg
  have hmax := h.no_overflow
  have hne : ¬ modcapEq cap r.readfront r.back = true := by
    rw [modcapEq_iff]
    intro he
    have := eq_of_tmod_eq he hlt.le h.readfront_lt
    omega
  rw [RingQueue.tryDequeue, if_neg hne, wrap32_of_range (by omega) (by omega)]

/-- The first of the entries stored, and the others. -/
theorem Window.stored_cons (h : Window cap r) (hlt : r.back < r.readfront) :
    r.stored cap =
      r.buffer (modcap cap r.back) :: ({ r with back := r.back + 1 } : RingQueue α).stored cap := by
  have hback := h.back_nonneg
  apply List.ext_getElem
  · rw [List.length_cons, length_stored, length_stored]
    simp only
    omega
  · intro i h1 h2
    cases i with
    | zero => simp [RingQueue.stored]
    | succ i =>
      rw [List.getElem_cons_succ]
      simp only [RingQueue.stored, List.getElem_map, List.getElem_range, Nat.cast_add, Nat.cast_one]
      rw [show r.back + ((i : ℤ) + 1) = r.back + 1 + i by ring]

theorem dequeues_succ (r : RingQueue α) (k : ℕ) :
    r.dequeues cap (k + 1) = ((r.tryDequeue cap).1 :: ((r.tryDequeue cap).2.dequeues cap k).1,
      ((r.tryDequeue cap).2.dequeues cap k).2) := rfl

/-- RUN: `k` single calls take the first `k` entries. The induction is on `k`, from any state. -/
theorem Window.dequeues (h : Window cap r) {k : ℕ} (hk : r.back + k ≤ r.readfront) :
    r.dequeues cap k =
      (((r.stored cap).take k).map some, { r with back := r.back + k }) := by
  induction k generalizing r with
  | zero => simp [RingQueue.dequeues]
  | succ k ih =>
    push_cast at hk
    have hlt : r.back < r.readfront := by omega
    have hrest := ih (h.advance zero_le_one (by omega)) (by simp only; omega)
    rw [dequeues_succ, h.tryDequeue hlt, hrest, h.stored_cons hlt, List.take_succ_cons,
      List.map_cons]
    simp only [Nat.cast_add, Nat.cast_one]
    rw [show r.back + 1 + (k : ℤ) = r.back + (k + 1) by ring]

/-- A block is the first entries of those stored, as many as are asked for, stored, and before the
    physical end of the array. -/
theorem Window.tryDequeueBulk (h : Window cap r) (maxOut : ℕ) :
    ∃ k : ℕ, r.tryDequeueBulk cap maxOut = ((r.stored cap).take k, { r with back := r.back + k }) ∧
      k ≤ (r.stored cap).length ∧
      (k : ℤ) = min (maxOut : ℤ) (min ((r.stored cap).length : ℤ) (cap - modcap cap r.back)) := by
  have hback := h.back_nonneg
  have hmax := h.no_overflow
  have hpos := h.cap_pos
  have hslot : modcap cap r.back < cap := tmod_lt hback hpos
  have hlen := length_stored cap r
  have hle := h.back_le
  rcases hle.lt_or_eq with hlt | heq
  · have hne : modcap cap r.readfront ≠ modcap cap r.back := by
      intro he
      have := eq_of_tmod_eq he hlt.le h.readfront_lt
      omega
    have hblock := blockCopySize_eq hback hlt h.readfront_lt maxOut
    have hdist : r.readfront - r.back = ((r.stored cap).length : ℤ) := by omega
    rw [hdist] at hblock
    obtain ⟨k, hk⟩ : ∃ k : ℕ, (k : ℤ) =
        min (maxOut : ℤ) (min ((r.stored cap).length : ℤ) (cap - modcap cap r.back)) :=
      ⟨_, Int.toNat_of_nonneg (by omega)⟩
    rw [← hk] at hblock
    refine ⟨k, ?_, by omega, hk⟩
    rw [RingQueue.tryDequeueBulk]
    simp only [if_neg hne, hblock, Int.toNat_natCast]
    rw [wrap32_of_range (by omega) (by omega), Prod.mk.injEq]
    refine ⟨?_, rfl⟩
    apply List.ext_getElem
    · rw [length_slice, List.length_take]
      omega
    · intro i h1 h2
      rw [length_slice] at h1
      -- the block does not come round the array's end, so its cells are one after the other
      have hcell : modcap cap (r.back + i) = modcap cap r.back + i :=
        tmod_add_of_lt hpos hback (by omega) (by simp only [modcap] at hk hslot; omega)
      rw [getElem_slice, List.getElem_take]
      simp only [RingQueue.stored, List.getElem_map, List.getElem_range, hcell]
  · have hnil : r.stored cap = [] := by
      apply List.eq_nil_of_length_eq_zero
      omega
    refine ⟨0, ?_, Nat.zero_le _, ?_⟩
    · rw [RingQueue.tryDequeueBulk]
      rw [if_pos (by rw [heq]), List.take_zero, Nat.cast_zero, add_zero]
    · rw [hnil, List.length_nil]
      push_cast
      omega

/-- After a block that took less than what is stored, the next one starts at slot 0. -/
theorem Window.blockAgrees (h : Window cap r) : BlockAgrees cap r := by
  have hback := h.back_nonneg
  have hpos := h.cap_pos
  have hslot0 : 0 ≤ modcap cap r.back := tmod_nonneg hback
  have hslot : modcap cap r.back < cap := tmod_lt hback hpos
  have hstored := length_stored cap r
  have hle := h.back_le
  have hlt := h.readfront_lt
  refine ⟨?_, ?_, ?_, ?_, ?_⟩
  · intro maxOut
    obtain ⟨k, hbulk, hk, -⟩ := h.tryDequeueBulk maxOut
    rw [hbulk, List.length_take, min_eq_left hk]
    exact h.dequeues (by omega)
  · intro maxOut
    obtain ⟨k, hbulk, -, hlen⟩ := h.tryDequeueBulk maxOut
    rw [hbulk, List.length_take]
    omega
  · intro maxOut
    obtain ⟨k, hbulk, hk, hlen⟩ := h.tryDequeueBulk maxOut
    rw [hbulk, List.length_take, min_eq_left hk]
    exact hlen
  · intro maxOut hzero
    obtain ⟨k, hbulk, hk, hlen⟩ := h.tryDequeueBulk maxOut
    rw [hbulk, List.length_take, min_eq_left hk] at hzero
    rcases Nat.eq_zero_or_pos maxOut with h0 | hmax
    · exact Or.inr h0
    · left
      apply List.eq_nil_of_length_eq_zero
      omega
  · intro maxOut hmax
    obtain ⟨k, hbulk, hk, hlen⟩ := h.tryDequeueBulk maxOut
    have hadv : r.back + k ≤ r.readfront := by omega
    have hnext := h.advance (by omega) hadv
    have hrest := h.stored_advance hadv
    obtain ⟨k', hbulk', hk', hlen'⟩ := hnext.tryDequeueBulk maxOut
    rw [hrest, List.length_drop] at hk' hlen'
    -- the second block starts at slot 0, unless the first one took all
    have hall : k + k' = (r.stored cap).length := by
      by_cases hdone : (k : ℤ) = (r.stored cap).length
      · omega
      · have hend : (k : ℤ) = cap - modcap cap r.back := by omega
        have hwrap : modcap cap (r.back + k) = 0 := by
          rw [hend, modcap, Int.tmod_eq_emod_of_nonneg (by omega)]
          have hmod : modcap cap r.back = r.back % cap := Int.tmod_eq_emod_of_nonneg hback
          rw [hmod]
          have hdiv := Int.mul_ediv_add_emod r.back cap
          rw [show r.back + (cap - r.back % cap) = cap * (r.back / cap + 1) by linarith]
          exact Int.mul_emod_right _ _
        simp only [hwrap] at hlen'
        omega
    rw [hbulk]
    simp only [hbulk', hrest]
    refine ⟨?_, ?_⟩
    · rw [← List.take_add, hall, List.take_length]
    · rw [hnext.stored_advance (by simp only; omega), hrest, List.drop_drop, hall, List.drop_length]

/-! ### Reachable states -/

variable (cap) in
/-- A longer sequence of calls has accepted no less. -/
theorem accepted_mono (junk : ℤ → α) {ops ops' : List (Op α)} (h : ops' <+: ops) :
    (after cap junk ops').accepted ≤ (after cap junk ops).accepted := by
  obtain ⟨rest, rfl⟩ := h
  induction rest using List.reverseRecOn with
  | nil => rw [List.append_nil]
  | append_singleton rest o ih =>
    rw [← List.append_assoc, after_concat]
    refine ih.trans ?_
    rcases o with v | _ | maxOut
    · exact Nat.le_add_right _ _
    · exact le_refl _
    · exact le_refl _

theorem window_after (hcap : 0 < cap) (junk : ℤ → α) (ops : List (Op α))
    (hN : (after cap junk ops).accepted < 2147483647) : Window cap (after cap junk ops).ring := by
  have hwithin : Throughout cap (Within cap) junk ops := by
    intro ops' hpre
    have := accepted_mono cap junk hpre
    exact Or.inl (by omega)
  have h := (tracks_run hcap junk ops).2 hwithin
  have hfront := h.front_eq
  have hback := h.back_eq
  have htaken := h.taken_le
  have hroom := h.room
  rw [wrap32_of_range (by omega) (by omega)] at hfront hback
  refine ⟨by omega, ?_, ?_, ?_⟩
  · rw [h.readfront_eq]
    omega
  · rw [h.readfront_eq]
    omega
  · rw [h.readfront_eq]
    omega

theorem window_run {P : Type} [DecidableEq P] (hcap : 0 < cap) (junk : ℤ → α)
    {as : List (RingThreads.Action P α)} {s : RingThreads.State P α}
    (hr : Machine.run (RingThreads.step cap) (RingThreads.State.new junk) as = some s)
    (hN : s.claims.length < 2147483647) : Window cap s.ring := by
  have h := RingThreads.cursorInv_run hcap junk hr (by omega)
  have hread := h.readfront_le
  have hfront := h.front_eq
  have hwindow := h.window
  exact ⟨h.back_nonneg, h.back_le, by omega, by omega⟩

/-- EQUIVALENCE: in every state that calls one after the other reach, and in every state that any
    interleaving of producers and a consumer reaches, with fewer than 2^31 - 1 enqueues, a block is
    what single dequeues take. -/
theorem blockAgrees_reached (hcap : 1 ≤ cap) (junk : ℤ → α) :
    (∀ ops : List (Op α), (after cap junk ops).accepted < 2147483647 →
      BlockAgrees cap (after cap junk ops).ring) ∧
    ∀ (P : Type) [DecidableEq P] (as : List (RingThreads.Action P α)) (s : RingThreads.State P α),
      Machine.run (RingThreads.step cap) (RingThreads.State.new junk) as = some s →
      s.claims.length < 2147483647 → BlockAgrees cap s.ring :=
  ⟨fun ops hN => (window_after hcap junk ops hN).blockAgrees,
    fun _ _ _ _ hr hN => (window_run hcap junk hr hN).blockAgrees⟩

/-- Entries in slots 4, 5, 0 and 1 of six. -/
def wrapped : List (Op ℕ) :=
  [.enqueue 1, .enqueue 2, .enqueue 3, .enqueue 4, .dequeueBulk 4, .enqueue 5, .enqueue 6, .enqueue 7,
    .enqueue 8]

theorem blockAgrees_reached_wrapped : BlockAgrees 6 (after 6 (fun _ => 0) wrapped).ring ∧
    ((after 6 (fun _ => 0) wrapped).ring.tryDequeueBulk 6 9).1 = [5, 6] :=
  ⟨(blockAgrees_reached (by decide) fun _ => 0).1 wrapped (by decide), by decide⟩

end Esp.LocklessRing
