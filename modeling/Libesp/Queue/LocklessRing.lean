import Libesp.Schemes.Cursor
import Libesp.Schemes.Memory

/-! @esp queue | name:LocklessRingQueue | scheme:refinement | source:src/queue/lockless_ring.h

    The ring buffer with each operation run from start to end. Three `int` cursors only ever grow
    (`back` ≤ `readfront` ≤ `front`); the slot of a cursor is its remainder modulo the capacity, and
    one slot stays free so that full and empty differ. `Holds` is the abstraction: the stored
    entries, oldest first, as a list. Every operation is specified against that list.

        back                readfront = front
         │ q₀ │ q₁ │ … │ qₙ₋₁ │
        slot i of the array is cursor position back + i, modulo the capacity -/

namespace Esp.LocklessRing
open Cursor Memory

/-- The shared memory of the queue: the array and its three cursors. -/
structure RingQueue (α : Type) where
  buffer : ℤ → α
  back : ℤ
  front : ℤ
  readfront : ℤ

variable {α : Type}

/-- A new queue; the array still holds whatever was in that memory. -/
def RingQueue.new (junk : ℤ → α) : RingQueue α := ⟨junk, 0, 0, 0⟩

variable (cap : ℕ)

def modcap (i : ℤ) : ℤ := i.tmod cap

def modcapEq (a b : ℤ) : Bool := modcap cap a == modcap cap b

def RingQueue.empty (r : RingQueue α) : Bool := modcapEq cap r.front r.back

def RingQueue.full (r : RingQueue α) : Bool := modcapEq cap (wrap32 (r.front + 1)) r.back

def RingQueue.getSize (r : RingQueue α) : ℤ := wrap32 (r.front - r.back)

/-- `TryEnqueue` undisturbed: claim a slot, fill it, publish it. -/
def RingQueue.tryEnqueue (r : RingQueue α) (value : α) : Bool × RingQueue α :=
  if modcapEq cap (wrap32 (r.front + 1)) r.back then (false, r)
  else (true, { r with
    front := wrap32 (r.front + 1)
    buffer := Function.update r.buffer (modcap cap r.front) value
    readfront := wrap32 (r.readfront + 1) })

/-- `TryDequeue(T*)`. -/
def RingQueue.tryDequeue (r : RingQueue α) : Option α × RingQueue α :=
  if modcapEq cap r.readfront r.back then (none, r)
  else (some (r.buffer (modcap cap r.back)), { r with back := wrap32 (r.back + 1) })

/-- The block `TryDequeue(T*, int)` copies from reduced cursors `f ≠ b`: it stops at the physical
    end of the array. -/
def blockCopySize (f b : ℤ) (maxOut : ℕ) : ℤ :=
  let top := if f < b then (cap : ℤ) else f
  if top - b > maxOut then maxOut else top - b

/-- `TryDequeue(T*, int)`: the copied block and the queue left behind. -/
def RingQueue.tryDequeueBulk (r : RingQueue α) (maxOut : ℕ) : List α × RingQueue α :=
  let f := modcap cap r.readfront
  let b := modcap cap r.back
  if f = b then ([], r)
  else
    let k := blockCopySize cap f b maxOut
    (slice r.buffer b k.toNat, { r with back := wrap32 (r.back + k) })

/-- REFINEMENT: the queue stores exactly the list `q`, oldest entry first. -/
structure Holds (r : RingQueue α) (q : List α) : Prop where
  back_nonneg : 0 ≤ r.back
  front_eq : r.front = r.back + q.length
  readfront_eq : r.readfront = r.front
  room : q.length < cap
  slots : ∀ (i : ℕ) (h : i < q.length), r.buffer (modcap cap (r.back + i)) = q[i]

/-- The entries stored, oldest first, read off the array. -/
def RingQueue.contents (r : RingQueue α) : List α :=
  (List.range (r.front - r.back).toNat).map fun i : ℕ => r.buffer (modcap cap (r.back + i))

variable {cap} {r : RingQueue α} {q : List α}

/-- The list a queue stores is the one its array and cursors show. -/
theorem Holds.contents_eq (h : Holds cap r q) : r.contents cap = q := by
  have hlen : (r.front - r.back).toNat = q.length := by
    rw [h.front_eq]; omega
  rw [RingQueue.contents, hlen]
  apply List.ext_getElem (by simp)
  intro i h1 h2
  rw [List.getElem_map, List.getElem_range, h.slots i h2]

@[simp] theorem modcapEq_iff {a b : ℤ} : modcapEq cap a b = true ↔ modcap cap a = modcap cap b := by
  simp [modcapEq]

theorem holds_new (hcap : 0 < cap) (junk : ℤ → α) : Holds cap (RingQueue.new junk) [] :=
  ⟨le_refl _, rfl, rfl, hcap, fun _ h => absurd h (by simp)⟩

/-! ### The empty and the full test -/

theorem empty_iff (h : Holds cap r q) : modcapEq cap r.front r.back = true ↔ q = [] := by
  rw [modcapEq_iff]
  constructor
  · intro he
    have hroom := h.room
    have := eq_of_tmod_eq he (by rw [h.front_eq]; omega) (by rw [h.front_eq]; omega)
    rw [h.front_eq] at this
    exact List.eq_nil_of_length_eq_zero (by omega)
  · rintro rfl
    rw [h.front_eq]
    simp

theorem full_iff (h : Holds cap r q) (hf : r.front < 2147483647) :
    modcapEq cap (wrap32 (r.front + 1)) r.back = true ↔ q.length + 1 = cap := by
  have hroom := h.room
  have hback := h.back_nonneg
  have hfront := h.front_eq
  rw [modcapEq_iff, wrap32_of_range (by omega) (by omega)]
  constructor
  · intro he
    by_contra hne
    have := eq_of_tmod_eq he (by omega) (by omega)
    omega
  · intro he
    have hlap : r.front + 1 - r.back = (cap : ℤ) := by omega
    exact tmod_eq_of_dvd_sub (by omega) hback (hlap ▸ dvd_refl _)

/-! ### TryEnqueue -/

theorem tryEnqueue_accepts (h : Holds cap r q) (hf : r.front < 2147483647) (v : α) :
    (r.tryEnqueue cap v).1 = true ↔ q.length + 1 < cap := by
  have hroom := h.room
  have hfull := full_iff h hf
  unfold RingQueue.tryEnqueue
  split
  · rename_i hc
    have := hfull.mp hc
    simp only [Bool.false_eq_true, false_iff]
    omega
  · rename_i hc
    have : q.length + 1 ≠ cap := fun he => hc (hfull.mpr he)
    simp only [true_iff]
    omega

theorem tryEnqueue_full (hf : r.full cap = true) (v : α) : r.tryEnqueue cap v = (false, r) :=
  if_pos hf

theorem tryEnqueue_room (hf : ¬ r.full cap = true) (v : α) :
    r.tryEnqueue cap v = (true, { r with
      front := wrap32 (r.front + 1)
      buffer := Function.update r.buffer (modcap cap r.front) v
      readfront := wrap32 (r.readfront + 1) }) :=
  if_neg hf

theorem tryEnqueue_refused {v : α} (hr : (r.tryEnqueue cap v).1 = false) :
    (r.tryEnqueue cap v).2 = r := by
  unfold RingQueue.tryEnqueue at hr ⊢
  split
  · rfl
  · rename_i hc
    rw [if_neg hc] at hr
    cases hr

theorem tryEnqueue_back (r : RingQueue α) (v : α) : (r.tryEnqueue cap v).2.back = r.back := by
  unfold RingQueue.tryEnqueue
  split <;> rfl

/-- An accepted entry goes to the end of the list and disturbs no other slot. -/
theorem holds_enqueue {v : α} (h : Holds cap r q) (hf : r.front < 2147483647)
    (ha : (r.tryEnqueue cap v).1 = true) :
    Holds cap (r.tryEnqueue cap v).2 (q ++ [v]) ∧ (r.tryEnqueue cap v).2.front = r.front + 1 := by
  have hlen := (tryEnqueue_accepts h hf v).mp ha
  have hback := h.back_nonneg
  have hfront := h.front_eq
  have hwf : wrap32 (r.front + 1) = r.front + 1 := wrap32_of_range (by omega) (by omega)
  have hnot : ¬ modcapEq cap (wrap32 (r.front + 1)) r.back = true := by
    rw [full_iff h hf]; omega
  have he : r.tryEnqueue cap v = (true, ⟨Function.update r.buffer (modcap cap r.front) v, r.back,
      r.front + 1, r.front + 1⟩) := by
    rw [RingQueue.tryEnqueue, if_neg hnot, h.readfront_eq, hwf]
  rw [he]
  refine ⟨⟨hback, ?_, rfl, by simpa using hlen, ?_⟩, rfl⟩
  · simp only [List.length_append, List.length_singleton, Nat.cast_add, Nat.cast_one]
    omega
  · intro i hi
    simp only [List.length_append, List.length_singleton] at hi
    by_cases hlast : i = q.length
    · subst hlast
      simp [← hfront]
    · -- an older slot lies less than a capacity below the claimed one
      have hne : modcap cap (r.back + i) ≠ modcap cap r.front := by
        intro he
        have := eq_of_tmod_eq he.symm (by omega) (by omega)
        omega
      simp only [Function.update_of_ne hne]
      rw [h.slots i (by omega), List.getElem_append_left (by omega)]

/-! ### TryDequeue -/

theorem tryDequeue_nil (h : Holds cap r []) : r.tryDequeue cap = (none, r) := by
  rw [RingQueue.tryDequeue, h.readfront_eq, if_pos ((empty_iff h).mpr rfl)]

/-- The oldest entry is handed out and the others move up one place. -/
theorem tryDequeue_cons {x : α} (h : Holds cap r (x :: q)) (hf : r.front < 2147483647) :
    ∃ r', r.tryDequeue cap = (some x, r') ∧ Holds cap r' q ∧ r'.front = r.front := by
  have hne : ¬ modcapEq cap r.readfront r.back = true := by
    rw [h.readfront_eq, empty_iff h]; simp
  have hback := h.back_nonneg
  have hfront := h.front_eq
  have hroom := h.room
  simp only [List.length_cons, Nat.cast_add, Nat.cast_one] at hfront hroom
  have hw : wrap32 (r.back + 1) = r.back + 1 := wrap32_of_range (by omega) (by omega)
  have hx : r.buffer (modcap cap r.back) = x := by
    have := h.slots 0 (by simp)
    simpa using this
  refine ⟨{ r with back := r.back + 1 }, ?_, ⟨?_, ?_, h.readfront_eq, ?_, ?_⟩, rfl⟩
  · rw [RingQueue.tryDequeue, if_neg hne, hx, hw]
  · simp only; omega
  · simp only; omega
  · omega
  · intro i hi
    have := h.slots (i + 1) (by simpa using hi)
    simpa [add_assoc, add_comm (1 : ℤ)] using this

/-! ### TryDequeue with a block -/

/-- The block length, on cursors `back ≤ readfront` less than a capacity apart: what is asked for,
    what is stored and what lies before the physical end all bound it. -/
theorem blockCopySize_eq {rf b : ℤ} (hb : 0 ≤ b) (hlt : b < rf) (hcap : rf < b + cap) (maxOut : ℕ) :
    blockCopySize cap (modcap cap rf) (modcap cap b) maxOut =
      min (maxOut : ℤ) (min (rf - b) (cap - modcap cap b)) := by
  have hpos : (0 : ℤ) < cap := by omega
  have hf0 : 0 ≤ modcap cap rf := tmod_nonneg (by omega)
  have hb0 : 0 ≤ modcap cap b := tmod_nonneg hb
  have hfc : modcap cap rf < cap := tmod_lt (by omega) hpos
  have hbc : modcap cap b < cap := tmod_lt hb hpos
  -- the two reduced cursors are rf - b apart, or one capacity less when the block wraps
  have hd : (modcap cap b < modcap cap rf ∧ modcap cap rf - modcap cap b = rf - b) ∨
      (modcap cap rf < modcap cap b ∧ modcap cap rf - modcap cap b = rf - b - cap) := by
    by_cases hw : modcap cap b + (rf - b) < cap
    · have := tmod_add_of_lt hpos hb (j := rf - b) (by omega) hw
      rw [show b + (rf - b) = rf by ring] at this
      left
      simp only [modcap] at this ⊢
      omega
    · right
      have hwrap : modcap cap rf = modcap cap b + (rf - b) - cap := by
        have h1 : ((modcap cap b + (rf - b) - cap).tmod cap : ℤ) = modcap cap b + (rf - b) - cap :=
          by rw [Int.tmod_eq_emod_of_nonneg (by omega)]; exact Int.emod_eq_of_lt (by omega) (by omega)
        rw [← h1]
        refine tmod_eq_of_dvd_sub (by omega) (by omega) ?_
        have hdb : (cap : ℤ) ∣ b - modcap cap b := by
          refine ⟨b.tdiv cap, ?_⟩
          have := Int.mul_tdiv_add_tmod b cap
          simp only [modcap]
          omega
        have he : rf - (modcap cap b + (rf - b) - cap) = (b - modcap cap b) + cap := by ring
        rw [he]
        exact dvd_add hdb (dvd_refl _)
      omega
  unfold blockCopySize
  simp only
  rcases hd with ⟨h1, h2⟩ | ⟨h1, h2⟩
  · rw [if_neg (by omega : ¬ modcap cap rf < modcap cap b)]
    split <;> omega
  · rw [if_pos h1]
    split <;> omega

/-- The copied block is a prefix of the list, as long as the request, the entries stored and the
    physical end of the array allow. -/
theorem tryDequeueBulk_spec (h : Holds cap r q) (hf : r.front < 2147483647) (maxOut : ℕ) :
    ∃ k r', r.tryDequeueBulk cap maxOut = (q.take k, r') ∧ Holds cap r' (q.drop k) ∧
      r'.front = r.front ∧ (k : ℤ) = min (maxOut : ℤ) (min (q.length : ℤ) (cap - modcap cap r.back)) := by
  have hback := h.back_nonneg
  have hfront := h.front_eq
  have hroom := h.room
  have hread := h.readfront_eq
  have hpos : (0 : ℤ) < cap := by omega
  have hbc : modcap cap r.back < cap := tmod_lt hback hpos
  by_cases hq : q = []
  · have he : modcap cap r.readfront = modcap cap r.back := by
      rw [hread]; exact modcapEq_iff.mp ((empty_iff h).mpr hq)
    refine ⟨0, r, by simp [RingQueue.tryDequeueBulk, he], by simpa using h, rfl, ?_⟩
    simp only [hq, List.length_nil, Nat.cast_zero]
    omega
  · have hne : modcap cap r.readfront ≠ modcap cap r.back := by
      rw [hread]; exact fun he => hq ((empty_iff h).mp (modcapEq_iff.mpr he))
    have hlen : 0 < q.length := List.length_pos_iff.mpr hq
    have hk : blockCopySize cap (modcap cap r.readfront) (modcap cap r.back) maxOut = _ :=
      blockCopySize_eq hback (by omega) (by omega) maxOut
    have hdist : r.readfront - r.back = (q.length : ℤ) := by omega
    rw [hdist] at hk
    obtain ⟨k, hkk⟩ : ∃ k : ℕ, (k : ℤ) =
        min (maxOut : ℤ) (min (q.length : ℤ) (cap - modcap cap r.back)) :=
      ⟨(min (maxOut : ℤ) (min (q.length : ℤ) (cap - modcap cap r.back))).toNat, by omega⟩
    rw [← hkk] at hk
    have hkq : k ≤ q.length := by omega
    have hw : wrap32 (r.back + k) = r.back + k := wrap32_of_range (by omega) (by omega)
    refine ⟨k, { r with back := r.back + k }, ?_, ⟨?_, ?_, hread, ?_, ?_⟩, rfl, hkk⟩
    · simp only [RingQueue.tryDequeueBulk, if_neg hne, hk, hw, Int.toNat_natCast]
      congr 1
      apply List.ext_getElem (by simp [hkq])
      intro i h1 h2
      simp only [length_slice] at h1
      have hs : modcap cap (r.back + i) = modcap cap r.back + i :=
        tmod_add_of_lt hpos hback (by omega) (by simp only [modcap] at hkk hbc; omega)
      rw [getElem_slice, List.getElem_take, ← h.slots i (by omega), hs]
    · simp only; omega
    · simp only [List.length_drop]; omega
    · simp only [List.length_drop]; omega
    · intro i hi
      simp only [List.length_drop] at hi
      have := h.slots (k + i) (by omega)
      simpa [add_assoc] using this

end Esp.LocklessRing
