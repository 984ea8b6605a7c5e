import Libesp.Schemes.Probe

/-! @esp map | name:PointerHash | scheme:linear-probing | source:src/map/pointer_hash.h

    The table that gives each string pointer an index, with each call run from start to end. A slot
    is claimed by storing the pointer and is never freed; the index is drawn from a counter and
    stored beside the pointer. Both loops go round the table from the pointer's hash position. A
    null pointer is `none`, the same value that marks a free slot, so the comparisons of the source
    treat it the same way here. -/

namespace Esp.PointerHash
open Probe

/-- The template parameters of a table: its size, an `int`, and where the probe of a pointer
    starts, `HashInteger64(ptr) % capacity`. -/
structure Shape (K : Type) where
  capacity : ℕ
  start : Option K → ℕ
  start_lt : ∀ p, start p < capacity
  capacity_int : capacity < 2147483648

structure Table (K : Type) where
  ptr : ℕ → Option K
  value : ℕ → ℕ
  nextIndex : ℕ

def Table.new {K : Type} : Table K := ⟨fun _ => none, fun _ => 0, 0⟩

/-- `(uint32_t) -1`. -/
def noRef : UInt32 := 0xffffffff

/-- The test `index >= 0` on a reference converted to `int`. -/
def isIndex (r : UInt32) : Bool := r < 0x80000000

def hashInteger64 (pt : UInt64) : UInt64 :=
  let h := pt
  let h := h ^^^ (h >>> 33)
  let h := h * 0xff51afd7ed558ccd
  let h := h ^^^ (h >>> 33)
  let h := h * 0xc4ceb9fe1a85ec53
  h ^^^ (h >>> 33)

variable {K : Type} [DecidableEq K] (sh : Shape K)

/-- The slot after `idx`, or `none` when the probe of `p` is back where it started. -/
def Shape.next (p : Option K) (idx : ℕ) : Option ℕ :=
  if (idx + 1) % sh.capacity = sh.start p then none else some ((idx + 1) % sh.capacity)

/-- The loop of `Get`; the first argument bounds the rounds. -/
def getLoop (p : Option K) (T : Table K) : ℕ → ℕ → UInt32
  | 0, _ => noRef
  | n + 1, idx =>
    if T.ptr idx = p then UInt32.ofNat (T.value idx)
    else if T.ptr idx = none then noRef
    else match sh.next p idx with
      | none => noRef
      | some idx' => getLoop p T n idx'

def Table.get (T : Table K) (p : Option K) : UInt32 := getLoop sh p T sh.capacity (sh.start p)

/-- The loop of `Put`; the first argument bounds the rounds. -/
def putLoop (p : Option K) (T : Table K) : ℕ → ℕ → UInt32 × Table K
  | 0, _ => (noRef, T)
  | n + 1, idx =>
    if T.ptr idx = p then (noRef, T)
    else if T.ptr idx = none then
      (UInt32.ofNat T.nextIndex,
        ⟨Function.update T.ptr idx p, Function.update T.value idx T.nextIndex, T.nextIndex + 1⟩)
    else match sh.next p idx with
      | none => (noRef, T)
      | some idx' => putLoop p T n idx'

def Table.put (T : Table K) (p : Option K) : UInt32 × Table K :=
  putLoop sh p T sh.capacity (sh.start p)

def Table.lookup (T : Table K) (p : Option K) : UInt32 × Table K :=
  if isIndex (T.get sh p) then (T.get sh p, T) else T.put sh p

/-! ### Indices -/

theorem ofNat_inj {i j : ℕ} (hi : i < 2147483648) (hj : j < 2147483648)
    (h : UInt32.ofNat i = UInt32.ofNat j) : i = j := by
  have := congrArg UInt32.toNat h
  rwa [UInt32.toNat_ofNat_of_lt' (by simp [UInt32.size]; omega),
    UInt32.toNat_ofNat_of_lt' (by simp [UInt32.size]; omega)] at this

theorem isIndex_ofNat {i : ℕ} (hi : i < 2147483648) : isIndex (UInt32.ofNat i) = true := by
  rw [isIndex, decide_eq_true_iff, UInt32.lt_iff_toNat_lt,
    UInt32.toNat_ofNat_of_lt' (by simp [UInt32.size]; omega)]
  exact hi

/-- Every slot of the table is claimed. -/
def Full (T : Table K) : Prop := ∀ i < sh.capacity, T.ptr i ≠ none

variable {sh} {p : Option K} {T : Table K}

omit [DecidableEq K] in
theorem Shape.next_some {idx idx' : ℕ} (h : sh.next p idx = some idx') :
    idx' = (idx + 1) % sh.capacity ∧ (idx + 1) % sh.capacity ≠ sh.start p := by
  unfold Shape.next at h
  split at h
  · cases h
  · rename_i hne
    cases h
    exact ⟨rfl, hne⟩

omit [DecidableEq K] in
theorem Shape.next_none {idx : ℕ} (h : sh.next p idx = none) :
    (idx + 1) % sh.capacity = sh.start p := by
  unfold Shape.next at h
  split at h
  · assumption
  · cases h

omit [DecidableEq K] in
theorem Shape.next_lt {idx idx' : ℕ} (h : sh.next p idx = some idx') : idx' < sh.capacity := by
  rw [(sh.next_some h).1]
  exact Nat.mod_lt _ (Nat.lt_of_le_of_lt (Nat.zero_le _) (sh.start_lt p))

omit [DecidableEq K] in
/-- A probe that goes on from place `j` goes to place `j + 1`, which is still within the round. -/
theorem Shape.next_place {j idx' : ℕ} (hj : j < sh.capacity)
    (h : sh.next p ((sh.start p + j) % sh.capacity) = some idx') :
    idx' = (sh.start p + (j + 1)) % sh.capacity ∧ j + 1 < sh.capacity := by
  obtain ⟨hidx, hne⟩ := sh.next_some h
  have hlast : j + 1 ≠ sh.capacity := fun he =>
    hne ((next_eq_start_iff (sh.start_lt p) hj).mpr he)
  rw [Nat.mod_add_mod, add_assoc] at hidx
  exact ⟨hidx, by omega⟩

/-- The bound on the rounds never ends a `Get`: after `capacity` rounds the probe is back at its
    start, so more rounds change nothing. -/
theorem getLoop_rounds : ∀ (n j m : ℕ), j + n = sh.capacity → j < sh.capacity →
    getLoop sh p T (n + m) ((sh.start p + j) % sh.capacity) =
      getLoop sh p T n ((sh.start p + j) % sh.capacity)
  | 0, j, m, hn, hj => absurd hn (by omega)
  | n + 1, j, m, hn, hj => by
    rw [Nat.add_right_comm, getLoop, getLoop]
    split
    · rfl
    · split
      · rfl
      · split
        · rfl
        · rename_i idx' hnext
          obtain ⟨hidx, hlt⟩ := Shape.next_place hj hnext
          rw [hidx]
          exact getLoop_rounds n (j + 1) m (by omega) hlt

/-- The same for `Put`. -/
theorem putLoop_rounds : ∀ (n j m : ℕ), j + n = sh.capacity → j < sh.capacity →
    putLoop sh p T (n + m) ((sh.start p + j) % sh.capacity) =
      putLoop sh p T n ((sh.start p + j) % sh.capacity)
  | 0, j, m, hn, hj => absurd hn (by omega)
  | n + 1, j, m, hn, hj => by
    rw [Nat.add_right_comm, putLoop, putLoop]
    split
    · rfl
    · split
      · rfl
      · split
        · rfl
        · rename_i idx' hnext
          obtain ⟨hidx, hlt⟩ := Shape.next_place hj hnext
          rw [hidx]
          exact putLoop_rounds n (j + 1) m (by omega) hlt

/-! ### Growth -/

/-- The keys of `T` sit in `T'` where they sat, with the values they had. -/
def Extends (T T' : Table K) : Prop :=
  ∀ i q, T.ptr i = some q → T'.ptr i = some q ∧ T'.value i = T.value i

omit [DecidableEq K] in
theorem Extends.refl (T : Table K) : Extends T T := fun _ _ h => ⟨h, rfl⟩

theorem putLoop_extends (p : Option K) (T : Table K) (n idx : ℕ) :
    Extends T (putLoop sh p T n idx).2 := by
  induction n generalizing idx with
  | zero => exact Extends.refl T
  | succ n ih =>
    rw [putLoop]
    split
    · exact Extends.refl T
    · split
      · rename_i hfree
        intro i q hq
        have hi : i ≠ idx := by
          rintro rfl
          rw [hfree] at hq
          cases hq
        exact ⟨by rw [← hq]; exact Function.update_of_ne hi _ _, Function.update_of_ne hi _ _⟩
      · split
        · exact Extends.refl T
        · exact ih _

theorem put_extends (T : Table K) (p : Option K) : Extends T (T.put sh p).2 :=
  putLoop_extends p T _ _

/-- A pointer that has a reference keeps it while the table grows. -/
theorem getLoop_extends {T T' : Table K} (hT : Extends T T') {k : K} {n idx : ℕ}
    (h : isIndex (getLoop sh (some k) T n idx) = true) :
    getLoop sh (some k) T' n idx = getLoop sh (some k) T n idx := by
  induction n generalizing idx with
  | zero => cases h
  | succ n ih =>
    rcases hq : T.ptr idx with _ | q
    · rw [getLoop, if_neg (by rw [hq]; nofun), if_pos hq] at h
      cases h
    · obtain ⟨hp, hv⟩ := hT idx q hq
      rw [getLoop, hq] at h
      rw [getLoop, getLoop, hp, hv, hq]
      split at h
      · rename_i hk
        rw [if_pos hk, if_pos hk]
      · rename_i hk
        rw [if_neg hk, if_neg hk, if_neg (Option.some_ne_none q)]
        rw [if_neg (Option.some_ne_none q)] at h
        rcases hnext : sh.next (some k) idx with _ | idx'
        · rfl
        · rw [hnext] at h
          exact ih h

theorem get_extends {T T' : Table K} (hT : Extends T T') {k : K}
    (h : isIndex (T.get sh (some k)) = true) : T'.get sh (some k) = T.get sh (some k) :=
  getLoop_extends hT h

/-- The index `Put` draws is what `Get` finds. -/
theorem getLoop_putLoop {T : Table K} {k : K} {n idx : ℕ}
    (h : isIndex (putLoop sh (some k) T n idx).1 = true) :
    getLoop sh (some k) (putLoop sh (some k) T n idx).2 n idx = (putLoop sh (some k) T n idx).1 := by
  induction n generalizing idx with
  | zero => cases h
  | succ n ih =>
    rcases hq : T.ptr idx with _ | q
    · rw [putLoop, if_neg (by rw [hq]; nofun), if_pos hq, getLoop, if_pos (Function.update_self ..)]
      simp only [Function.update_self]
    · have hslot : (putLoop sh (some k) T (n + 1) idx).2.ptr idx = some q :=
        (putLoop_extends _ _ _ _ idx q hq).1
      rw [putLoop] at h hslot ⊢
      split at h
      · cases h
      · rename_i hk
        rw [if_neg hk, if_neg (by rw [hq]; nofun)] at hslot ⊢
        rw [if_neg (by rw [hq]; nofun)] at h
        rcases hnext : sh.next (some k) idx with _ | idx'
        · rw [hnext] at h
          cases h
        · simp only [hnext] at h hslot ⊢
          rw [getLoop, hslot, ← hq, if_neg hk, if_neg (by rw [hq]; nofun), hnext]
          exact ih h

theorem get_put {T : Table K} {k : K} (h : isIndex (T.put sh (some k)).1 = true) :
    (T.put sh (some k)).2.get sh (some k) = (T.put sh (some k)).1 :=
  getLoop_putLoop h

/-- A pointer that is not null. -/
abbrev Addr : Type := {a : UInt64 // a ≠ 0}

/-- The table of `ProfileContext`: `espStringTableSize` slots and the hash of the address. -/
def espStrings : Shape Addr where
  capacity := 16384
  start p := (hashInteger64 (p.elim 0 Subtype.val)).toNat % 16384
  start_lt _ := Nat.mod_lt _ (by omega)
  capacity_int := by omega

/-- The smallest table, of one slot. -/
def oneSlot {K : Type} : Shape K where
  capacity := 1
  start _ := 0
  start_lt _ := Nat.one_pos
  capacity_int := by omega

end Esp.PointerHash
