import Mathlib.Logic.Function.Basic
import Mathlib.Algebra.Order.Ring.Int
import Mathlib.Tactic

/-! @esp schemes | name:Memory | scheme:arithmetic

    A block of memory as a function from addresses (C `int` offsets, so also negative ones) to
    values. `slice` reads a run of cells into a list and `blit` is the `memcpy` that writes a list
    into consecutive cells. A log that only grows is a list of which earlier states are prefixes
    (`prefix_entry`). -/

namespace Esp.Memory

variable {α : Type*}

/-- The `n` cells from address `i` on. -/
def slice (buf : ℤ → α) (i : ℤ) (n : ℕ) : List α := (List.range n).map fun j : ℕ => buf (i + j)

/-- Copy `vs` over the cells from address `i` on. -/
def blit (buf : ℤ → α) (i : ℤ) (vs : List α) : ℤ → α := fun a =>
  if i ≤ a then vs[(a - i).toNat]?.getD (buf a) else buf a

@[simp] theorem slice_zero (buf : ℤ → α) (i : ℤ) : slice buf i 0 = [] := rfl

@[simp] theorem length_slice (buf : ℤ → α) (i : ℤ) (n : ℕ) : (slice buf i n).length = n := by
  simp [slice]

@[simp] theorem getElem_slice (buf : ℤ → α) (i : ℤ) (n j : ℕ) (h : j < (slice buf i n).length) :
    (slice buf i n)[j] = buf (i + j) := by
  simp [slice]

theorem slice_add (buf : ℤ → α) (i : ℤ) (m n : ℕ) :
    slice buf i (m + n) = slice buf i m ++ slice buf (i + m) n := by
  rw [slice, List.range_add, List.map_append, List.map_map]
  congr 1
  refine List.map_congr_left ?_
  intro j _
  rw [Function.comp_apply, Nat.cast_add, add_assoc]

/-- Two runs of cells are equal when the cells are. -/
theorem slice_congr {buf buf' : ℤ → α} {i i' : ℤ} {n : ℕ}
    (h : ∀ j : ℕ, j < n → buf (i + j) = buf' (i' + j)) : slice buf i n = slice buf' i' n := by
  simp only [slice]
  exact List.map_congr_left fun j hj => h j (List.mem_range.mp hj)

/-- What was copied is read back. -/
theorem slice_blit_self (buf : ℤ → α) (i : ℤ) (vs : List α) {n : ℕ} (h : vs.length = n) :
    slice (blit buf i vs) i n = vs := by
  subst h
  apply List.ext_getElem (by simp)
  intro j h1 h2
  have hj : (i + (j : ℤ) - i).toNat = j := by omega
  rw [getElem_slice, blit, if_pos (by omega), hj, List.getElem?_eq_getElem h2, Option.getD_some]

/-- A copy leaves the cells below its start alone. -/
theorem slice_blit_below (buf : ℤ → α) (i k : ℤ) (n : ℕ) (vs : List α) (h : i + n ≤ k) :
    slice (blit buf k vs) i n = slice buf i n := by
  refine slice_congr ?_
  intro j hj
  rw [blit, if_neg (by omega)]

/-- An entry of a prefix is an entry of the whole. -/
theorem prefix_entry {l l' : List α} (h : l <+: l') {i : ℕ} {x : α} (hx : l[i]? = some x) :
    l'[i]? = some x := by
  obtain ⟨rest, rfl⟩ := h
  rwa [List.getElem?_append_left (List.getElem?_eq_some_iff.mp hx).1]

end Esp.Memory
