import Mathlib.Logic.Function.Basic
import Mathlib.Tactic

/-! @esp stack | name:SlabStack | scheme:refinement | source:src/stack/slabstack.h

    The stack that hands out pointers into a slab allocated once. A pointer is the index of its slot.
    `Push` does not clear the slot it returns, and `Pop` leaves the slot's contents where they are
    until the next `Push`. `contents` is the abstraction: the slots in use, top first.

        slab      │ x₀ │ x₁ │ … │ xₙ₋₁ │ junk │ … │        contents = [xₙ₋₁, …, x₁, x₀]
                                        ▲ topIndex -/

namespace Esp.Slab

/-- A slab, its size, and how many of its slots are in use. -/
structure SlabStack (α : Type) where
  slab : ℕ → α
  capacity : ℕ
  topIndex : ℕ
  topIndex_le : topIndex ≤ capacity

variable {α : Type}

/-- `SlabStack(maxSize)`; the slab is `malloc`ed and holds whatever was there. -/
def SlabStack.new (maxSize : ℕ) (junk : ℕ → α) : SlabStack α := ⟨junk, maxSize, 0, Nat.zero_le _⟩

/-- `Push`: a pointer to the new top, or `none` on a full stack. -/
def SlabStack.push (s : SlabStack α) : Option (ℕ × SlabStack α) :=
  if h : s.topIndex = s.capacity then none
  else some (s.topIndex, { s with
    topIndex := s.topIndex + 1
    topIndex_le := Nat.succ_le_of_lt (lt_of_le_of_ne s.topIndex_le h) })

/-- `Pop`: a pointer to the old top, or `none` on an empty stack. -/
def SlabStack.pop (s : SlabStack α) : Option (ℕ × SlabStack α) :=
  if s.topIndex = 0 then none
  else some (s.topIndex - 1, { s with
    topIndex := s.topIndex - 1
    topIndex_le := (Nat.sub_le _ _).trans s.topIndex_le })

/-- `Peek`: a pointer to the top, or `none` on an empty stack. -/
def SlabStack.peek (s : SlabStack α) : Option ℕ :=
  if s.topIndex = 0 then none else some (s.topIndex - 1)

/-- Write through a pointer. -/
def SlabStack.store (s : SlabStack α) (slot : ℕ) (v : α) : SlabStack α :=
  { s with slab := Function.update s.slab slot v }

/-- The first `n` slots, the last of them first. -/
def topDown (slab : ℕ → α) : ℕ → List α
  | 0 => []
  | n + 1 => slab n :: topDown slab n

/-- REFINEMENT: the elements of the stack, top first. -/
def SlabStack.contents (s : SlabStack α) : List α := topDown s.slab s.topIndex

@[simp] theorem length_topDown (slab : ℕ → α) (n : ℕ) : (topDown slab n).length = n := by
  induction n with
  | zero => rfl
  | succ n ih => rw [topDown, List.length_cons, ih]

/-- A write above the slots in use does not show. -/
theorem topDown_update (slab : ℕ → α) (v : α) {n slot : ℕ} (h : n ≤ slot) :
    topDown (Function.update slab slot v) n = topDown slab n := by
  induction n with
  | zero => rfl
  | succ n ih => rw [topDown, topDown, ih (by omega), Function.update_of_ne (by omega)]

variable {s : SlabStack α}

theorem contents_new (maxSize : ℕ) (junk : ℕ → α) : (SlabStack.new maxSize junk).contents = [] :=
  rfl

theorem contents_length_le (s : SlabStack α) : s.contents.length ≤ s.capacity := by
  rw [SlabStack.contents, length_topDown]
  exact s.topIndex_le

theorem push_full (h : s.contents.length = s.capacity) : s.push = none := by
  rw [SlabStack.contents, length_topDown] at h
  rw [SlabStack.push, dif_pos h]

/-- What is stored through the pointer `Push` returns is the new top. -/
theorem push_room (h : s.contents.length < s.capacity) :
    ∃ slot s', s.push = some (slot, s') ∧ s'.capacity = s.capacity ∧
      ∀ v, (s'.store slot v).contents = v :: s.contents := by
  rw [SlabStack.contents, length_topDown] at h
  have hlt : ¬ s.topIndex = s.capacity := by omega
  rw [SlabStack.push, dif_neg hlt]
  refine ⟨_, _, rfl, rfl, ?_⟩
  intro v
  simp only [SlabStack.contents, SlabStack.store, topDown, Function.update_self,
    topDown_update _ _ (le_refl _)]

theorem pop_empty (h : s.contents = []) : s.pop = none := by
  have hlen := congrArg List.length h
  rw [SlabStack.contents, length_topDown, List.length_nil] at hlen
  rw [SlabStack.pop, if_pos hlen]

/-- `Pop` returns a pointer to the top, and a write through it does not disturb the rest. -/
theorem pop_cons {x : α} {xs : List α} (h : s.contents = x :: xs) :
    ∃ slot s', s.pop = some (slot, s') ∧ s'.slab slot = x ∧ s'.capacity = s.capacity ∧
      ∀ v, (s'.store slot v).contents = xs := by
  rcases hn : s.topIndex with _ | n
  · rw [SlabStack.contents, hn] at h
    cases h
  · rw [SlabStack.contents, hn, topDown] at h
    injection h with hx hxs
    rw [SlabStack.pop, if_neg (by omega)]
    refine ⟨_, _, rfl, ?_, rfl, ?_⟩
    · simp only [hn, Nat.add_sub_cancel, hx]
    · intro v
      simp only [SlabStack.contents, SlabStack.store, hn, Nat.add_sub_cancel,
        topDown_update _ _ (le_refl _), hxs]

theorem peek_nil (h : s.contents = []) : s.peek = none := by
  have hlen := congrArg List.length h
  rw [SlabStack.contents, length_topDown, List.length_nil] at hlen
  rw [SlabStack.peek, if_pos hlen]

theorem peek_cons {x : α} {xs : List α} (h : s.contents = x :: xs) :
    ∃ slot, s.peek = some slot ∧ s.slab slot = x := by
  rcases hn : s.topIndex with _ | n
  · rw [SlabStack.contents, hn] at h
    cases h
  · rw [SlabStack.contents, hn, topDown] at h
    injection h with hx _
    exact ⟨n, by rw [SlabStack.peek, if_neg (by omega), hn, Nat.add_sub_cancel], hx⟩

end Esp.Slab
