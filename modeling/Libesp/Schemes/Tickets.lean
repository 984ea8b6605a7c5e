import Mathlib.Data.List.Range
import Mathlib.Tactic

/-! @esp schemes | name:Tickets | scheme:counter

    Tickets drawn from one counter by any number of holders. The counter hands out 1, 2, 3, … in the
    order of the draws, whoever draws; a holder sees its tickets through `f`, which keeps only so
    many bits of the number.

        draws       (t, 1) (u, 2) (t, 3) …
        own t       1, 3, …           read as f 1, f 3, …

    Below the number `M` at which `f` starts over, the tickets tell all draws apart and each holder's
    increase; the `M`-th ticket reads as the one that stands for none (`separate_iff`). -/

namespace Esp.Tickets

variable {T α : Type*} [DecidableEq T]

/-- The numbers drawn by `t`, in order. -/
def own (draws : List (T × ℕ)) (t : T) : List ℕ :=
  draws.filterMap fun d => if d.1 = t then some d.2 else none

/-- The counter started at 1 and each draw took the next number. -/
def InTurn (draws : List (T × ℕ)) : Prop := draws.map Prod.snd = List.range' 1 draws.length

/-- The holders' tickets increase, none of them is `bad`, and no two holders share one. -/
structure Separate [LT α] (bad : α) (ids : T → List α) : Prop where
  increasing : ∀ t, (ids t).Pairwise (· < ·)
  proper : ∀ t, bad ∉ ids t
  apart : ∀ t u, t ≠ u → (ids t).Disjoint (ids u)

variable {draws : List (T × ℕ)}

theorem own_concat (draws : List (T × ℕ)) (t u : T) (n : ℕ) :
    own (draws ++ [(t, n)]) u = own draws u ++ if t = u then [n] else [] := by
  rw [own, List.filterMap_append]
  by_cases htu : t = u <;> simp [own, htu]

omit [DecidableEq T] in
theorem inTurn_nil : InTurn ([] : List (T × ℕ)) := rfl

omit [DecidableEq T] in
/-- STEP: the next draw. -/
theorem InTurn.draw (h : InTurn draws) (t : T) : InTurn (draws ++ [(t, draws.length + 1)]) := by
  rw [InTurn, List.map_append, h, List.length_append, List.length_singleton, List.range'_1_concat,
    List.map_singleton, Nat.add_comm 1]

theorem own_sublist (draws : List (T × ℕ)) (t : T) : (own draws t).Sublist (draws.map Prod.snd) := by
  induction draws with
  | nil => exact List.Sublist.refl _
  | cons d draws ih =>
    rcases d with ⟨u, n⟩
    rw [own, List.filterMap_cons]
    by_cases hut : u = t
    · simp only [hut, if_true, List.map_cons]
      exact ih.cons_cons n
    · simp only [hut, if_false, List.map_cons]
      exact ih.cons n

theorem mem_own {t : T} {n : ℕ} : n ∈ own draws t ↔ (t, n) ∈ draws := by
  rw [own, List.mem_filterMap]
  constructor
  · rintro ⟨⟨u, m⟩, hmem, heq⟩
    split at heq
    · rename_i hut
      obtain rfl := Option.some.inj heq
      obtain rfl : u = t := hut
      exact hmem
    · cases heq
  · intro hmem
    exact ⟨(t, n), hmem, if_pos rfl⟩

theorem InTurn.increasing (h : InTurn draws) (t : T) : (own draws t).Pairwise (· < ·) := by
  have hall : (draws.map Prod.snd).Pairwise (· < ·) := by
    rw [h]
    exact List.pairwise_lt_range'
  exact hall.sublist (own_sublist draws t)

theorem InTurn.bounds (h : InTurn draws) {t : T} {n : ℕ} (hn : n ∈ own draws t) :
    1 ≤ n ∧ n ≤ draws.length := by
  have hmem := (own_sublist draws t).subset hn
  rw [h, List.mem_range'_1] at hmem
  omega

/-- Every number up to the last is somebody's. -/
theorem InTurn.drawn (h : InTurn draws) {n : ℕ} (h1 : 1 ≤ n) (hn : n ≤ draws.length) :
    ∃ t, n ∈ own draws t := by
  have hmem : n ∈ draws.map Prod.snd := by
    rw [h, List.mem_range'_1]
    omega
  obtain ⟨⟨t, m⟩, hd, rfl⟩ := List.mem_map.mp hmem
  exact ⟨t, mem_own.mpr hd⟩

omit [DecidableEq T] in
/-- A number is drawn once. -/
theorem InTurn.unique (h : InTurn draws) {t u : T} {n : ℕ} (ht : (t, n) ∈ draws)
    (hu : (u, n) ∈ draws) : t = u := by
  have hnodup : (draws.map Prod.snd).Nodup := by
    rw [h]
    exact List.nodup_range'
  exact congrArg Prod.fst (List.inj_on_of_nodup_map hnodup ht hu rfl)

/-- EXACT: the tickets tell the draws apart as long as the counter has not come to `M`. -/
theorem separate_iff [LT α] {f : ℕ → α} {bad : α} {M : ℕ} (hirrefl : ∀ a : α, ¬ a < a)
    (hM : 1 ≤ M) (hbad : f M = bad) (hmono : ∀ i j, i < j → j < M → f i < f j)
    (hproper : ∀ i, 1 ≤ i → i < M → f i ≠ bad) (h : InTurn draws) :
    Separate bad (fun t => (own draws t).map f) ↔ draws.length < M := by
  constructor
  · intro hsep
    by_contra hge
    obtain ⟨t, ht⟩ := h.drawn hM (not_lt.mp hge)
    exact hsep.proper t (List.mem_map.mpr ⟨M, ht, hbad⟩)
  · intro hlt
    refine ⟨?_, ?_, ?_⟩
    · intro t
      rw [List.pairwise_map]
      refine (h.increasing t).imp_of_mem ?_
      intro i j hi hj hij
      exact hmono i j hij (lt_of_le_of_lt (h.bounds hj).2 hlt)
    · intro t hmem
      obtain ⟨i, hi, heq⟩ := List.mem_map.mp hmem
      obtain ⟨h1, hle⟩ := h.bounds hi
      exact hproper i h1 (lt_of_le_of_lt hle hlt) heq
    · intro t u htu a hat hau
      obtain ⟨i, hi, rfl⟩ := List.mem_map.mp hat
      obtain ⟨j, hj, heq⟩ := List.mem_map.mp hau
      rcases lt_trichotomy i j with hij | rfl | hji
      · have hless := hmono i j hij (lt_of_le_of_lt (h.bounds hj).2 hlt)
        exact hirrefl _ (heq ▸ hless)
      · exact htu (h.unique (mem_own.mp hi) (mem_own.mp hj))
      · have hless := hmono j i hji (lt_of_le_of_lt (h.bounds hi).2 hlt)
        exact hirrefl _ (heq ▸ hless)

end Esp.Tickets
