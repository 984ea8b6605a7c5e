import Libesp.Schemes.Objects
import Libesp.Map.TableNames

/-! @esp map | name:PointerHash | scheme:refinement | source:src/map/pointer_hash.h

    What the table is for, one caller at a time: a map that numbers its keys in the order they come,
    as many as there are slots. `Put`, `Get` and `Lookup` answer as that map does, on an empty table
    and on a full one. A probe goes past no slot twice; `Put` and `Get` are one probe each, and `Lookup`
    of a key that is not there is two. -/

namespace Esp.PointerHash
open Probe Objects

variable {K : Type} [DecidableEq K]

/-! ### The map -/

/-- A call with a pointer that is not null. -/
inductive MapCall (K : Type) where
  | put (k : K)
  | get (k : K)
  | lookup (k : K)
  deriving DecidableEq, Repr

/-- A map that gives its keys the numbers 0, 1, 2, …, with room for `capacity` of them: the keys, in
    order. -/
def numberOf (names : List K) (k : K) : Option ℕ :=
  if k ∈ names then some (names.idxOf k) else none

/-- Insert a key that is not there yet, if there is room. -/
def insertNew (capacity : ℕ) (names : List K) (k : K) : Option ℕ × List K :=
  if k ∈ names ∨ capacity ≤ names.length then (none, names)
  else (some names.length, names ++ [k])

/-- An answer of the map as a reference: no number is -1. -/
def reference : Option ℕ → UInt32
  | none => noRef
  | some i => UInt32.ofNat i

def orderedMap (capacity : ℕ) (names : List K) : MapCall K → UInt32 × List K
  | .put k => (reference (insertNew capacity names k).1, (insertNew capacity names k).2)
  | .get k => (reference (numberOf names k), names)
  | .lookup k =>
    match numberOf names k with
    | some i => (reference (some i), names)
    | none => (reference (insertNew capacity names k).1, (insertNew capacity names k).2)

/-! ### The table -/

variable (sh : Shape K)

def Table.call (T : Table K) : MapCall K → UInt32 × Table K
  | .put k => T.put sh (some k)
  | .get k => (T.get sh (some k), T)
  | .lookup k => T.lookup sh (some k)

/-- The loop of `Get` with the slots it looks at. -/
def getVisiting (p : Option K) (T : Table K) : ℕ → ℕ → UInt32 × List ℕ
  | 0, _ => (noRef, [])
  | n + 1, idx =>
    if T.ptr idx = p then (UInt32.ofNat (T.value idx), [idx])
    else if T.ptr idx = none then (noRef, [idx])
    else match sh.next p idx with
      | none => (noRef, [idx])
      | some idx' => ((getVisiting p T n idx').1, idx :: (getVisiting p T n idx').2)

/-- The loop of `Put` with the slots it looks at. -/
def putVisiting (p : Option K) (T : Table K) : ℕ → ℕ → (UInt32 × Table K) × List ℕ
  | 0, _ => ((noRef, T), [])
  | n + 1, idx =>
    if T.ptr idx = p then ((noRef, T), [idx])
    else if T.ptr idx = none then
      ((UInt32.ofNat T.nextIndex,
        ⟨Function.update T.ptr idx p, Function.update T.value idx T.nextIndex, T.nextIndex + 1⟩), [idx])
    else match sh.next p idx with
      | none => ((noRef, T), [idx])
      | some idx' => ((putVisiting p T n idx').1, idx :: (putVisiting p T n idx').2)

/-- The slots from `idx` on to where the probe of `p` stops. -/
def probed (p : Option K) (T : Table K) : ℕ → ℕ → List ℕ
  | 0, _ => []
  | n + 1, idx =>
    if T.ptr idx = p then [idx]
    else if T.ptr idx = none then [idx]
    else match sh.next p idx with
      | none => [idx]
      | some idx' => idx :: probed p T n idx'

/-- A probe of `p` on `T` ends, whatever bound is put on its rounds, and goes past no slot twice. -/
structure Ends (T : Table K) (p : Option K) : Prop where
  get_visits : getVisiting sh p T sh.capacity (sh.start p) =
    (T.get sh p, probed sh p T sh.capacity (sh.start p))
  put_visits : putVisiting sh p T sh.capacity (sh.start p) =
    (T.put sh p, probed sh p T sh.capacity (sh.start p))
  once : (probed sh p T sh.capacity (sh.start p)).Nodup
  in_table : ∀ i ∈ probed sh p T sh.capacity (sh.start p), i < sh.capacity
  get_rounds : ∀ m, getLoop sh p T (sh.capacity + m) (sh.start p) = T.get sh p
  put_rounds : ∀ m, putLoop sh p T (sh.capacity + m) (sh.start p) = T.put sh p

/-- A call with the slots it looks at, in order. -/
def Table.visiting (T : Table K) : MapCall K → (UInt32 × Table K) × List ℕ
  | .put k => putVisiting sh (some k) T sh.capacity (sh.start (some k))
  | .get k =>
    let found := getVisiting sh (some k) T sh.capacity (sh.start (some k))
    ((found.1, T), found.2)
  | .lookup k =>
    let found := getVisiting sh (some k) T sh.capacity (sh.start (some k))
    if isIndex found.1 then ((found.1, T), found.2)
    else
      let drawn := putVisiting sh (some k) T sh.capacity (sh.start (some k))
      (drawn.1, found.2 ++ drawn.2)

/-- The probes that a call makes at most. -/
def MapCall.probes : MapCall K → ℕ
  | .put _ | .get _ => 1
  | .lookup _ => 2

/-- A call looks at slots of the table, at each no more often than it probes. -/
structure Looks (T : Table K) (c : MapCall K) : Prop where
  answer : (T.visiting sh c).1 = T.call sh c
  often : ∀ i, (T.visiting sh c).2.count i ≤ c.probes
  in_table : ∀ i ∈ (T.visiting sh c).2, i < sh.capacity

variable {sh} {T : Table K} {p : Option K} {names : List K} {k : K}

theorem getVisiting_eq (n idx : ℕ) :
    getVisiting sh p T n idx = (getLoop sh p T n idx, probed sh p T n idx) := by
  induction n generalizing idx with
  | zero => rfl
  | succ n ih =>
    rw [getVisiting, getLoop, probed]
    split
    · rfl
    · split
      · rfl
      · rcases hnext : sh.next p idx with _ | idx'
        · rfl
        · simp only [ih]

theorem putVisiting_eq (n idx : ℕ) :
    putVisiting sh p T n idx = (putLoop sh p T n idx, probed sh p T n idx) := by
  induction n generalizing idx with
  | zero => rfl
  | succ n ih =>
    rw [putVisiting, putLoop, probed]
    split
    · rfl
    · split
      · rfl
      · rcases hnext : sh.next p idx with _ | idx'
        · rfl
        · simp only [ih]

/-- The probed slots are the places from `j` on of one round. -/
theorem probed_places (n j : ℕ) (hn : j + n = sh.capacity) : ∃ len, j + len ≤ sh.capacity ∧
    probed sh p T n ((sh.start p + j) % sh.capacity) =
      (List.range' j len).map fun l => (sh.start p + l) % sh.capacity := by
  induction n generalizing j with
  | zero => exact ⟨0, by omega, rfl⟩
  | succ n ih =>
    rw [probed]
    split
    · exact ⟨1, by omega, rfl⟩
    · split
      · exact ⟨1, by omega, rfl⟩
      · split
        · exact ⟨1, by omega, rfl⟩
        · rename_i idx' hnext
          obtain ⟨hidx, hlt⟩ := Shape.next_place (by omega) hnext
          obtain ⟨len, hlen, hprobed⟩ := ih (j + 1) (by omega)
          refine ⟨len + 1, by omega, ?_⟩
          rw [hidx, hprobed, List.range'_succ, List.map_cons]

/-- RETURNS: every call goes once round the table at most. -/
theorem ends (sh : Shape K) (T : Table K) (p : Option K) : Ends sh T p := by
  have hstart : (sh.start p + 0) % sh.capacity = sh.start p := by
    rw [add_zero, Nat.mod_eq_of_lt (sh.start_lt p)]
  have hpos : 0 < sh.capacity := lt_of_le_of_lt (Nat.zero_le _) (sh.start_lt p)
  obtain ⟨len, hlen, hprobed⟩ := probed_places (p := p) (T := T) sh.capacity 0 (zero_add _)
  rw [hstart] at hprobed
  refine ⟨getVisiting_eq _ _, putVisiting_eq _ _, ?_, ?_, ?_, ?_⟩
  · rw [hprobed]
    refine List.Nodup.map_on ?_ List.nodup_range'
    intro a ha b hb hab
    rw [List.mem_range'_1] at ha hb
    exact place_inj (by omega) (by omega) hab
  · intro i hi
    rw [hprobed] at hi
    obtain ⟨l, -, rfl⟩ := List.mem_map.mp hi
    exact Nat.mod_lt _ hpos
  · intro m
    have h := getLoop_rounds (p := p) (T := T) sh.capacity 0 m (zero_add _) hpos
    rwa [hstart] at h
  · intro m
    have h := putLoop_rounds (p := p) (T := T) sh.capacity 0 m (zero_add _) hpos
    rwa [hstart] at h

theorem Ends.count_le (h : Ends sh T p) (i : ℕ) :
    (probed sh p T sh.capacity (sh.start p)).count i ≤ 1 :=
  List.nodup_iff_count_le_one.mp h.once i

/-- A `Lookup` that finds its key looks at what `Get` looks at; otherwise `Put` looks at it again. -/
theorem visiting_lookup (T : Table K) (k : K) : T.visiting sh (.lookup k) =
    (T.call sh (.lookup k),
      if isIndex (T.get sh (some k)) then probed sh (some k) T sh.capacity (sh.start (some k))
      else probed sh (some k) T sh.capacity (sh.start (some k)) ++
        probed sh (some k) T sh.capacity (sh.start (some k))) := by
  have h := ends sh T (some k)
  rw [Table.visiting, h.get_visits, h.put_visits, Table.call, Table.lookup]
  split <;> rfl

/-- Every call, by the probes it makes. -/
theorem looks (sh : Shape K) (T : Table K) (c : MapCall K) : Looks sh T c := by
  cases c with
  | put k =>
    have h := ends sh T (some k)
    refine ⟨?_, ?_, ?_⟩ <;> rw [Table.visiting, h.put_visits]
    · rfl
    · exact h.count_le
    · exact h.in_table
  | get k =>
    have h := ends sh T (some k)
    refine ⟨?_, ?_, ?_⟩ <;> simp only [Table.visiting, h.get_visits]
    · rfl
    · exact h.count_le
    · exact h.in_table
  | lookup k =>
    have h := ends sh T (some k)
    refine ⟨?_, ?_, ?_⟩ <;> rw [visiting_lookup]
    · intro i
      have hcount := h.count_le i
      simp only [MapCall.probes]
      split
      · omega
      · rw [List.count_append]
        omega
    · intro i hi
      split at hi
      · exact h.in_table i hi
      · exact h.in_table i ((List.mem_append.mp hi).elim id id)

/-! ### The table as the map -/

/-- A `Put` goes past the slots that block it. -/
theorem putLoop_skip {i j n : ℕ} (hij : i + j < sh.capacity)
    (hB : ∀ l, i ≤ l → l < i + j → Blocks T k ((sh.start (some k) + l) % sh.capacity)) :
    putLoop sh (some k) T (j + n) ((sh.start (some k) + i) % sh.capacity) =
      putLoop sh (some k) T n ((sh.start (some k) + (i + j)) % sh.capacity) := by
  induction j generalizing i with
  | zero => rw [zero_add, add_zero]
  | succ j ih =>
    obtain ⟨hfree, hother⟩ := hB i (le_refl _) (by omega)
    rw [Nat.add_right_comm, putLoop, if_neg hother, if_neg hfree, sh.next_of_lt (by omega)]
    have hnext := ih (i := i + 1) (by omega) fun l hl hlt => hB l (by omega) (by omega)
    rw [show i + (j + 1) = i + 1 + j by omega]
    exact hnext

/-- `Put` of a pointer the table holds finds it and changes nothing. -/
theorem Lists.put_mem (h : Lists sh T names) (hk : k ∈ names) : T.put sh (some k) = (noRef, T) := by
  obtain ⟨i, hi, hik⟩ := List.mem_iff_getElem.mp hk
  obtain ⟨idx, hptr, -⟩ := h.slot i k (List.getElem?_eq_some_iff.mpr ⟨hi, hik⟩)
  obtain ⟨-, j, hj, rfl, hblocks⟩ := h.key idx k hptr
  have hskip := putLoop_skip (i := 0) (j := j) (n := sh.capacity - j) (T := T) (by omega)
    fun l _ hl => hblocks l (by omega)
  have hstart : (sh.start (some k) + 0) % sh.capacity = sh.start (some k) := by
    rw [add_zero, Nat.mod_eq_of_lt (sh.start_lt _)]
  obtain ⟨m, hm⟩ : ∃ m, sh.capacity - j = m + 1 := ⟨sh.capacity - j - 1, by omega⟩
  rw [Nat.add_sub_cancel' hj.le, hstart, zero_add, hm, putLoop, if_pos hptr] at hskip
  exact hskip

theorem Lists.get_eq (h : Lists sh T names) (k : K) :
    T.get sh (some k) = reference (numberOf names k) := by
  rw [numberOf]
  split
  · rename_i hk
    exact h.get_of_getElem? (List.getElem?_idxOf hk)
  · rename_i hk
    exact h.get_of_notMem hk

/-- STEP: `Put` is `insertNew`; when that refuses, the table stays as it is. -/
theorem Lists.put_eq (h : Lists sh T names) (k : K) :
    (T.put sh (some k)).1 = reference (insertNew sh.capacity names k).1 ∧
      Lists sh (T.put sh (some k)).2 (insertNew sh.capacity names k).2 ∧
      ((insertNew sh.capacity names k).1 = none → (T.put sh (some k)).2 = T) := by
  rw [insertNew]
  split
  · rename_i hrefuse
    have hput : T.put sh (some k) = (noRef, T) := by
      rcases hrefuse with hk | hfull
      · exact h.put_mem hk
      · by_cases hk : k ∈ names
        · exact h.put_mem hk
        · rcases h.put hk with ⟨hput, -⟩ | ⟨-, hlists⟩
          · exact hput
          · have hlen := hlists.length_le
            rw [List.length_append, List.length_singleton] at hlen
            omega
    rw [hput]
    exact ⟨rfl, h, fun _ => rfl⟩
  · rename_i hroom
    rw [not_or, not_le] at hroom
    rcases h.put hroom.1 with ⟨-, hfull⟩ | ⟨hput, hlists⟩
    · have hlen := h.length_of_full hfull
      omega
    · exact ⟨hput, hlists, nofun⟩

/-- STEP: every call on a table that lists `names` answers as the map does. -/
theorem Lists.call (h : Lists sh T names) (c : MapCall K) :
    (T.call sh c).1 = (orderedMap sh.capacity names c).1 ∧
      Lists sh (T.call sh c).2 (orderedMap sh.capacity names c).2 := by
  cases c with
  | put k =>
    obtain ⟨hans, hlists, -⟩ := h.put_eq k
    exact ⟨hans, hlists⟩
  | get k => exact ⟨h.get_eq k, h⟩
  | lookup k =>
    have hget := h.get_eq k
    rw [Table.call, Table.lookup, orderedMap]
    by_cases hk : k ∈ names
    · rw [if_pos (h.isIndex_get.mpr hk), hget, numberOf, if_pos hk]
      exact ⟨rfl, h⟩
    · have hmiss : ¬ isIndex (T.get sh (some k)) = true := fun hi => hk (h.isIndex_get.mp hi)
      obtain ⟨hans, hlists, -⟩ := h.put_eq k
      rw [if_neg hmiss, numberOf, if_neg hk]
      exact ⟨hans, hlists⟩

/-- The table after the calls, from an empty one, and the keys of the map after them. -/
def tableAfter (sh : Shape K) (cs : List (MapCall K)) : Table K :=
  final (Table.call sh) Table.new cs

def keysAfter (capacity : ℕ) (cs : List (MapCall K)) : List K := final (orderedMap capacity) [] cs

/-- REFINEMENT: the table answers every sequence of calls as the map does; a `Put` that the map
    refuses leaves the table as it is; and each call ends. `Put` and `Get` look at no slot twice, and
    `Lookup` looks at a slot twice at most, at none twice when its key is there. -/
theorem orderedMap_refined (sh : Shape K) (cs : List (MapCall K)) :
    answers (Table.call sh) Table.new cs = answers (orderedMap sh.capacity) [] cs ∧
    (∀ k, (insertNew sh.capacity (keysAfter sh.capacity cs) k).1 = none →
      (tableAfter sh cs).put sh (some k) = (noRef, tableAfter sh cs)) ∧
    (∀ k, Ends sh (tableAfter sh cs) (some k)) ∧ (∀ c, Looks sh (tableAfter sh cs) c) ∧
    ∀ k ∈ keysAfter sh.capacity cs, ((tableAfter sh cs).visiting sh (.lookup k)).2.Nodup := by
  obtain ⟨hans, hlists⟩ := refines (R := Lists sh) (fun _ _ c h => h.call c) cs (lists_new sh)
  have hafter : Lists sh (tableAfter sh cs) (keysAfter sh.capacity cs) := hlists
  refine ⟨hans, ?_, fun k => ends sh _ _, fun c => looks sh _ c, ?_⟩
  · intro k hrefuse
    obtain ⟨href, -, hsame⟩ := hafter.put_eq k
    rw [hrefuse] at href
    exact Prod.ext href (hsame hrefuse)
  · intro k hk
    rw [visiting_lookup]
    simp only [if_pos (hafter.isIndex_get.mpr hk)]
    exact (ends sh _ (some k)).once

/-- REFUTED: in an empty table of one slot `Lookup` looks at the slot in `Get`, and then in `Put`. -/
theorem lookup_looksTwice : ¬ ∀ (sh : Shape ℕ) (cs : List (MapCall ℕ)) (c : MapCall ℕ),
    ((tableAfter sh cs).visiting sh c).2.Nodup := by
  intro h
  have honce := h oneSlot [] (.lookup 7)
  have htwice : ((tableAfter oneSlot ([] : List (MapCall ℕ))).visiting oneSlot (.lookup 7)).2 =
      [0, 0] := rfl
  rw [htwice] at honce
  exact absurd honce (by decide)

end Esp.PointerHash
