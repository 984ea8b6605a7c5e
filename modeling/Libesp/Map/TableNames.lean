import Libesp.Map.PointerHash

/-! @esp map | name:PointerHash | scheme:refinement | source:src/map/pointer_hash.h

    The table as the list of the pointers in it, in the order they were put: the index of a pointer is
    its place in the list. What makes `Get` find every pointer is that the slots between the hash
    position of a pointer and its own slot are taken, so no free slot stops the probe before it.

        start k ─▶ │ a │ b │ k │   │        Get k passes a and b; a later Put of c may take the
                                            free slot behind k, never one before it -/

namespace Esp.PointerHash
open Probe

variable {K : Type} [DecidableEq K] {sh : Shape K}

/-- The slots a probe of `k` goes past: taken, and by another pointer. -/
def Blocks (T : Table K) (k : K) (i : ℕ) : Prop := T.ptr i ≠ none ∧ T.ptr i ≠ some k

/-- REFINEMENT: the table holds the pointers `names`, put in this order. -/
structure Lists (sh : Shape K) (T : Table K) (names : List K) : Prop where
  slot : ∀ i k, names[i]? = some k → ∃ idx, T.ptr idx = some k ∧ T.value idx = i
  key : ∀ idx k, T.ptr idx = some k → k ∈ names ∧
    Passed sh.capacity (sh.start (some k)) (Blocks T k) idx
  nodup : names.Nodup
  nextIndex_eq : T.nextIndex = names.length

omit [DecidableEq K] in
theorem lists_new (sh : Shape K) : Lists sh Table.new [] where
  slot := nofun
  key := nofun
  nodup := List.nodup_nil
  nextIndex_eq := rfl

variable {T : Table K} {names : List K} {k : K}

omit [DecidableEq K] in
theorem Shape.next_of_lt {p : Option K} {j : ℕ} (h : j + 1 < sh.capacity) :
    sh.next p ((sh.start p + j) % sh.capacity) = some ((sh.start p + (j + 1)) % sh.capacity) := by
  rcases hn : sh.next p ((sh.start p + j) % sh.capacity) with _ | idx
  · have hlast := (next_eq_start_iff (sh.start_lt p) (by omega)).mp (sh.next_none hn)
    omega
  · rw [(Shape.next_place (by omega) hn).1]

/-- A `Get` goes past the slots that block it. -/
theorem getLoop_skip {i j n : ℕ} (hij : i + j < sh.capacity)
    (hB : ∀ l, i ≤ l → l < i + j → Blocks T k ((sh.start (some k) + l) % sh.capacity)) :
    getLoop sh (some k) T (j + n) ((sh.start (some k) + i) % sh.capacity) =
      getLoop sh (some k) T n ((sh.start (some k) + (i + j)) % sh.capacity) := by
  induction j generalizing i with
  | zero => rw [zero_add, add_zero]
  | succ j ih =>
    obtain ⟨hfree, hother⟩ := hB i (le_refl _) (by omega)
    rw [Nat.add_right_comm, getLoop, if_neg hother, if_neg hfree, sh.next_of_lt (by omega)]
    have hnext := ih (i := i + 1) (by omega) fun l hl hlt => hB l (by omega) (by omega)
    rw [show i + (j + 1) = i + 1 + j by omega]
    exact hnext

/-- `Get` of a pointer in the list answers its place. -/
theorem Lists.get_of_getElem? (h : Lists sh T names) {i : ℕ} (hi : names[i]? = some k) :
    T.get sh (some k) = UInt32.ofNat i := by
  obtain ⟨idx, hptr, hval⟩ := h.slot i k hi
  obtain ⟨-, j, hj, rfl, hblocks⟩ := h.key idx k hptr
  have hskip := getLoop_skip (i := 0) (j := j) (n := sh.capacity - j) (T := T) (by omega)
    fun l _ hl => hblocks l (by omega)
  have hstart : (sh.start (some k) + 0) % sh.capacity = sh.start (some k) := by
    rw [add_zero, Nat.mod_eq_of_lt (sh.start_lt _)]
  obtain ⟨m, hm⟩ : ∃ m, sh.capacity - j = m + 1 := ⟨sh.capacity - j - 1, by omega⟩
  rw [Nat.add_sub_cancel' hj.le, hstart, zero_add, hm, getLoop, if_pos hptr, hval] at hskip
  exact hskip

theorem getLoop_absent (h : ∀ idx, T.ptr idx ≠ some k) (n idx : ℕ) :
    getLoop sh (some k) T n idx = noRef := by
  induction n generalizing idx with
  | zero => rfl
  | succ n ih =>
    rw [getLoop, if_neg (h idx)]
    split
    · rfl
    · split
      · rfl
      · exact ih _

/-- `Get` of any other pointer answers -1. -/
theorem Lists.get_of_notMem (h : Lists sh T names) (hk : k ∉ names) :
    T.get sh (some k) = noRef :=
  getLoop_absent (fun idx hidx => hk (h.key idx k hidx).1) _ _

omit [DecidableEq K] in
theorem Lists.slot_lt (h : Lists sh T names) {idx : ℕ} (hidx : T.ptr idx = some k) :
    idx < sh.capacity := by
  obtain ⟨-, j, -, rfl, -⟩ := h.key idx k hidx
  exact Nat.mod_lt _ (lt_of_le_of_lt (Nat.zero_le _) (sh.start_lt (some k)))

omit [DecidableEq K] in
/-- The places of the list are places of the table. -/
theorem Lists.length_le (h : Lists sh T names) : names.length ≤ sh.capacity := by
  have hslot : ∀ i : Fin names.length, ∃ idx : Fin sh.capacity, T.value idx = i := by
    intro i
    obtain ⟨idx, hptr, hval⟩ := h.slot i _ (List.getElem?_eq_getElem i.isLt)
    exact ⟨⟨idx, h.slot_lt hptr⟩, hval⟩
  choose f hf using hslot
  have hinj : Function.Injective f := by
    intro i j hij
    apply Fin.ext
    rw [← hf i, ← hf j, hij]
  simpa using Fintype.card_le_of_injective f hinj

omit [DecidableEq K] in
theorem Lists.index_lt (h : Lists sh T names) {i : ℕ} (hi : i < names.length) : i < 2147483648 := by
  have hlen := h.length_le
  have hcap := sh.capacity_int
  omega

/-- `Get` answers an index for the pointers of the list and no others. -/
theorem Lists.isIndex_get (h : Lists sh T names) : isIndex (T.get sh (some k)) = true ↔ k ∈ names := by
  constructor
  · intro hidx
    by_contra hk
    rw [h.get_of_notMem hk] at hidx
    cases hidx
  · intro hk
    obtain ⟨i, hi, hget⟩ := List.mem_iff_getElem.mp hk
    rw [h.get_of_getElem? (List.getElem?_eq_some_iff.mpr ⟨hi, hget⟩)]
    exact isIndex_ofNat (h.index_lt hi)

/-- `Put` of a pointer the table does not hold takes the first free slot of its probe, or finds the
    table full. -/
theorem putLoop_absent (hk : ∀ idx, T.ptr idx ≠ some k) :
    ∀ n j, j + n = sh.capacity → j < sh.capacity →
      Passed sh.capacity (sh.start (some k)) (fun i => T.ptr i ≠ none)
        ((sh.start (some k) + j) % sh.capacity) →
      (putLoop sh (some k) T n ((sh.start (some k) + j) % sh.capacity) = (noRef, T) ∧ Full sh T) ∨
        ∃ idx, T.ptr idx = none ∧
          Passed sh.capacity (sh.start (some k)) (fun i => T.ptr i ≠ none) idx ∧
          putLoop sh (some k) T n ((sh.start (some k) + j) % sh.capacity) =
            (UInt32.ofNat T.nextIndex, ⟨Function.update T.ptr idx (some k),
              Function.update T.value idx T.nextIndex, T.nextIndex + 1⟩)
  | 0, j, hn, hj, _ => absurd hn (by omega)
  | n + 1, j, hn, hj, hp => by
    rw [putLoop, if_neg (hk _)]
    split
    · rename_i hfree
      exact Or.inr ⟨_, hfree, hp, rfl⟩
    · rename_i htaken
      rcases hnext : sh.next (some k) ((sh.start (some k) + j) % sh.capacity) with _ | idx'
      · exact Or.inl ⟨rfl, hp.all (sh.start_lt _) htaken (sh.next_none hnext)⟩
      · obtain ⟨hidx, hlt⟩ := Shape.next_place hj hnext
        have hp' := hp.next (sh.start_lt _) htaken (sh.next_some hnext).2
        rw [← (sh.next_some hnext).1, hidx] at hp'
        rw [hidx]
        exact putLoop_absent hk n (j + 1) (by omega) hlt hp'

theorem getElem?_concat {α : Type} {l : List α} {i : ℕ} {a b : α} (h : (l ++ [a])[i]? = some b) :
    l[i]? = some b ∨ i = l.length ∧ a = b := by
  rcases Nat.lt_or_ge i l.length with hlt | hge
  · exact Or.inl (by rwa [List.getElem?_append_left hlt] at h)
  · rw [List.getElem?_append_right hge] at h
    obtain ⟨hi, ha⟩ := List.getElem?_eq_some_iff.mp h
    rw [List.length_singleton] at hi
    exact Or.inr ⟨by omega, by simpa using ha⟩

omit [DecidableEq K] in
/-- Taking the first free slot of its probe puts a new pointer at the end of the list. -/
theorem Lists.insert (h : Lists sh T names) (hk : k ∉ names) {idx : ℕ} (hfree : T.ptr idx = none)
    (hpassed : Passed sh.capacity (sh.start (some k)) (fun i => T.ptr i ≠ none) idx) :
    Lists sh ⟨Function.update T.ptr idx (some k), Function.update T.value idx T.nextIndex,
      T.nextIndex + 1⟩ (names ++ [k]) := by
  have hidx : ∀ j q, T.ptr j = some q → j ≠ idx := by
    rintro j q hj rfl
    rw [hfree] at hj
    cases hj
  have hold : ∀ j, T.ptr j ≠ none → Function.update T.ptr idx (some k) j = T.ptr j := by
    intro j hj
    obtain ⟨q, hq⟩ := Option.ne_none_iff_exists'.mp hj
    exact Function.update_of_ne (hidx j q hq) _ _
  refine ⟨?_, ?_, ?_, ?_⟩
  · intro i q hq
    rcases getElem?_concat hq with hq | ⟨rfl, rfl⟩
    · obtain ⟨slot, hptr, hval⟩ := h.slot i q hq
      have hslot := hidx slot q hptr
      exact ⟨slot, (Function.update_of_ne hslot _ _).trans hptr,
        (Function.update_of_ne hslot _ _).trans hval⟩
    · exact ⟨idx, Function.update_self .., (Function.update_self ..).trans h.nextIndex_eq⟩
  · intro i q hq
    by_cases hi : i = idx
    · subst hi
      simp only [Function.update_self, Option.some.injEq] at hq
      subst hq
      refine ⟨List.mem_append_right _ List.mem_cons_self, hpassed.mono ?_⟩
      intro j hj
      simp only [Blocks, hold j hj]
      exact ⟨hj, fun hjk => hk (h.key j k hjk).1⟩
    · simp only [Function.update_of_ne hi] at hq
      obtain ⟨hmem, hblocks⟩ := h.key i q hq
      refine ⟨List.mem_append_left _ hmem, hblocks.mono ?_⟩
      intro j hj
      simp only [Blocks, hold j hj.1]
      exact hj
  · exact List.concat_eq_append ▸ h.nodup.concat hk
  · simp only [h.nextIndex_eq, List.length_append, List.length_singleton]

/-- `Put` of a new pointer adds it at the end of the list, or finds the table full. -/
theorem Lists.put (h : Lists sh T names) (hk : k ∉ names) :
    (T.put sh (some k) = (noRef, T) ∧ Full sh T) ∨
      ((T.put sh (some k)).1 = UInt32.ofNat names.length ∧
        Lists sh (T.put sh (some k)).2 (names ++ [k])) := by
  have hstart : (sh.start (some k) + 0) % sh.capacity = sh.start (some k) := by
    rw [add_zero, Nat.mod_eq_of_lt (sh.start_lt _)]
  have hloop := putLoop_absent (fun idx hidx => hk (h.key idx k hidx).1) sh.capacity 0 (zero_add _)
    (lt_of_le_of_lt (Nat.zero_le _) (sh.start_lt (some k)))
    (by rw [hstart]; exact passed_start (sh.start_lt _))
  rw [hstart] at hloop
  rcases hloop with hfull | ⟨idx, hfree, hpassed, hput⟩
  · exact Or.inl hfull
  · have heq : T.put sh (some k) = _ := hput
    rw [heq]
    exact Or.inr ⟨by rw [h.nextIndex_eq], h.insert hk hfree hpassed⟩

omit [DecidableEq K] in
/-- A full table holds as many pointers as it has slots. -/
theorem Lists.length_of_full (h : Lists sh T names) (hfull : Full sh T) :
    sh.capacity ≤ names.length := by
  have hname : ∀ idx : Fin sh.capacity, ∃ i : Fin names.length, T.ptr idx = some names[i] := by
    intro idx
    obtain ⟨k, hk⟩ := Option.ne_none_iff_exists'.mp (hfull idx idx.isLt)
    obtain ⟨i, hi, hik⟩ := List.mem_iff_getElem.mp (h.key idx k hk).1
    exact ⟨⟨i, hi⟩, hk.trans (congrArg some hik.symm)⟩
  choose f hf using hname
  have hinj : Function.Injective f := by
    intro a b hab
    have ha := hf a
    rw [hab] at ha
    have hstop : ∀ j, T.ptr j = some names[f b] → ¬ Blocks T names[f b] j := fun j hj hB => hB.2 hj
    exact Fin.ext ((h.key a _ ha).2.unique (h.key b _ (hf b)).2 (hstop a ha) (hstop b (hf b)))
  simpa using Fintype.card_le_of_injective f hinj

end Esp.PointerHash
