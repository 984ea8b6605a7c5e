import Mathlib.Data.Finset.Insert
import Mathlib.Data.Set.Function
import Mathlib.Data.List.Nodup
import Mathlib.Data.Finset.Dedup
import Mathlib.Tactic

/-! @esp schemes | name:Keyed | scheme:fold

    A table is a set of rows, each with a key. Inserting a row whose key is taken is refused and changes
    nothing, so a sequence of inserts keeps what was there and adds what was not: the table that comes
    of it is the sequence exactly when what was there is part of it (`insertAll_eq_iff`). -/

namespace Esp.Keyed

variable {α κ : Type*} [DecidableEq α] [DecidableEq κ] (key : α → κ)

/-- Some row has the key of `x`. -/
def Taken (s : Finset α) (x : α) : Prop := ∃ y ∈ s, key y = key x

instance (s : Finset α) (x : α) : Decidable (Taken key s x) :=
  inferInstanceAs (Decidable (∃ y ∈ s, key y = key x))

/-- Insert a row, unless its key is taken. -/
def insertNew (s : Finset α) (x : α) : Finset α := if Taken key s x then s else insert x s

/-- Insert the rows one after the other. -/
def insertAll (s : Finset α) (xs : List α) : Finset α := xs.foldl (insertNew key) s

variable {key} {s : Finset α} {x y : α} {xs : List α}

theorem mem_insertNew : y ∈ insertNew key s x ↔ y ∈ s ∨ y = x ∧ ¬ Taken key s x := by
  rw [insertNew]
  split
  · rename_i htaken
    exact ⟨Or.inl, fun h => h.resolve_right fun hx => hx.2 htaken⟩
  · rename_i hfree
    rw [Finset.mem_insert, or_comm]
    exact or_congr_right ⟨fun h => ⟨h, hfree⟩, And.left⟩

@[simp] theorem insertAll_nil (s : Finset α) : insertAll key s [] = s := rfl

@[simp] theorem insertAll_cons (s : Finset α) (x : α) (xs : List α) :
    insertAll key s (x :: xs) = insertAll key (insertNew key s x) xs := rfl

/-- Nothing is taken out. -/
theorem subset_insertAll (s : Finset α) (xs : List α) : s ⊆ insertAll key s xs := by
  induction xs generalizing s with
  | nil => exact Finset.Subset.refl s
  | cons x xs ih => exact fun y hy => ih _ (mem_insertNew.mpr (Or.inl hy))

theorem insertAll_subset {u : Finset α} (hs : s ⊆ u) (hxs : ∀ x ∈ xs, x ∈ u) :
    insertAll key s xs ⊆ u := by
  induction xs generalizing s with
  | nil => exact hs
  | cons x xs ih =>
    refine ih (fun y hy => ?_) fun y hy => hxs y (List.mem_cons_of_mem x hy)
    rcases mem_insertNew.mp hy with hy | ⟨rfl, -⟩
    · exact hs hy
    · exact hxs y List.mem_cons_self

/-- Rows with distinct keys: each is in the table in the end if it was, or its key was free. -/
theorem mem_insertAll (hxs : (xs.map key).Nodup) :
    y ∈ insertAll key s xs ↔ y ∈ s ∨ y ∈ xs ∧ ¬ Taken key s y := by
  induction xs generalizing s with
  | nil =>
    rw [insertAll_nil]
    exact ⟨Or.inl, fun h => h.resolve_right fun hy => absurd hy.1 List.not_mem_nil⟩
  | cons x xs ih =>
    obtain ⟨hx, hrest⟩ := List.nodup_cons.mp hxs
    have hne : y ∈ xs → key x ≠ key y := by
      intro hy he
      exact hx (he ▸ List.mem_map_of_mem hy)
    rw [insertAll_cons, ih hrest, mem_insertNew, List.mem_cons]
    -- the row just inserted does not take the key of a later one
    have hlater : y ∈ xs → (Taken key (insertNew key s x) y ↔ Taken key s y) := by
      intro hy
      constructor
      · rintro ⟨z, hz, hkey⟩
        rcases mem_insertNew.mp hz with hz | ⟨rfl, -⟩
        · exact ⟨z, hz, hkey⟩
        · exact absurd hkey (hne hy)
      · rintro ⟨z, hz, hkey⟩
        exact ⟨z, mem_insertNew.mpr (Or.inl hz), hkey⟩
    constructor
    · rintro ((hs | ⟨rfl, hfree⟩) | ⟨hy, hfree⟩)
      · exact Or.inl hs
      · exact Or.inr ⟨Or.inl rfl, hfree⟩
      · exact Or.inr ⟨Or.inr hy, fun h => hfree ((hlater hy).mpr h)⟩
    · rintro (hs | ⟨rfl | hy, hfree⟩)
      · exact Or.inl (Or.inl hs)
      · exact Or.inl (Or.inr ⟨rfl, hfree⟩)
      · exact Or.inr ⟨hy, fun h => hfree ((hlater hy).mp h)⟩

theorem mem_of_insertAll (h : y ∈ insertAll key s xs) : y ∈ s ∨ y ∈ xs := by
  have hsub : insertAll key s xs ⊆ s ∪ xs.toFinset :=
    insertAll_subset Finset.subset_union_left fun x hx =>
      Finset.mem_union_right s (List.mem_toFinset.mpr hx)
  exact (Finset.mem_union.mp (hsub h)).imp_right List.mem_toFinset.mp

/-- A row that was to be inserted is in the table in the end, or one with its key is. -/
theorem taken_insertAll (hy : y ∈ xs) : Taken key (insertAll key s xs) y := by
  induction xs generalizing s with
  | nil => cases hy
  | cons x xs ih =>
    rcases List.mem_cons.mp hy with rfl | hy
    · have htaken : Taken key (insertNew key s y) y := by
        by_cases h : Taken key s y
        · obtain ⟨z, hz, hkey⟩ := h
          exact ⟨z, mem_insertNew.mpr (Or.inl hz), hkey⟩
        · exact ⟨y, mem_insertNew.mpr (Or.inr ⟨rfl, h⟩), rfl⟩
      obtain ⟨z, hz, hkey⟩ := htaken
      exact ⟨z, subset_insertAll _ xs hz, hkey⟩
    · exact ih hy

/-- The keys of a table stay distinct. -/
theorem injOn_insertAll (h : Set.InjOn key (s : Set α)) (xs : List α) :
    Set.InjOn key (insertAll key s xs : Set α) := by
  induction xs generalizing s with
  | nil => exact h
  | cons x xs ih =>
    refine ih ?_
    intro y hy z hz hkey
    rcases mem_insertNew.mp hy with hold | ⟨hnew, hfree⟩ <;>
      rcases mem_insertNew.mp hz with hold' | ⟨hnew', hfree'⟩
    · exact h hold hold' hkey
    · exact absurd ⟨y, hold, hkey.trans (congrArg key hnew')⟩ hfree'
    · exact absurd ⟨z, hold', hkey.symm.trans (congrArg key hnew)⟩ hfree
    · exact hnew.trans hnew'.symm

/-- EXACT: rows with distinct keys make up the table in the end exactly when all that was there before
    is among them. -/
theorem insertAll_eq_iff (hxs : (xs.map key).Nodup) :
    insertAll key s xs = xs.toFinset ↔ s ⊆ xs.toFinset := by
  constructor
  · intro h y hy
    rw [← h]
    exact (mem_insertAll hxs).mpr (Or.inl hy)
  · intro h
    ext y
    rw [mem_insertAll hxs, List.mem_toFinset]
    constructor
    · rintro (hs | ⟨hy, -⟩)
      · exact List.mem_toFinset.mp (h hs)
      · exact hy
    · intro hy
      by_cases htaken : Taken key s y
      · -- the row with its key is one of the inserted ones, and so the same
        obtain ⟨z, hz, hkey⟩ := htaken
        have hzy : z = y :=
          List.inj_on_of_nodup_map hxs (List.mem_toFinset.mp (h hz)) hy hkey
        exact Or.inl (hzy ▸ hz)
      · exact Or.inr ⟨hy, htaken⟩

end Esp.Keyed
