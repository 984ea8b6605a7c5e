import Libesp.Map.HashEntries

/-! @esp map | name:PointerHash | scheme:invariant |
    source:src/map/pointer_hash.h, src/Context.cpp (MapStringToReference)

    Which string a reference names. A slot in use is in one of three states; `Get` reads the value
    in any of them.

        ptr = p, value = 0      claimed, index not drawn
        ptr = p, value = 0      index drawn, not stored
        ptr = p, value = i      stored

    In the first two the answer is `0`, the reference of whichever string was first. In the runs
    where no value is read there (index `0` itself apart) a reference is the index drawn for its
    own string, and two strings have two references. -/

namespace Esp.HashThreads
open Probe PointerHash Machine

variable {T K : Type}

/-- Slot `idx` is claimed by this thread and its value is not what it will be. -/
def Prober.owes (idx : ℕ) : Prober K → Prop
  | .putDraw _ _ j => j = idx
  | .putStore _ _ j i => j = idx ∧ i ≠ 0
  | _ => False

instance (idx : ℕ) : DecidablePred (Prober.owes (K := K) idx)
  | .putDraw _ _ j => inferInstanceAs (Decidable (j = idx))
  | .putStore _ _ j i => inferInstanceAs (Decidable (j = idx ∧ i ≠ 0))
  | .idle | .getPtr .. | .getValue .. | .putPtr .. | .putCas .. | .offer .. => isFalse id

/-- The slot whose value a thread is about to load for a string. -/
def Prober.loads : Prober K → Option ℕ
  | .getValue _ (some _) idx => some idx
  | _ => none

/-- `Get` loads the value of a slot only when that value is stored, or is due to be `0`. -/
def LoadsStored (s : State T K) : Action T K → Prop
  | .go t => ∀ idx ∈ (s.thread t).loads, ∀ u, ¬ (s.thread u).owes idx
  | _ => True

instance [Fintype T] (s : State T K) : DecidablePred (LoadsStored s)
  | .go t => inferInstanceAs
    (Decidable (∀ idx ∈ (s.thread t).loads, ∀ u, ¬ (s.thread u).owes idx))
  | .get .. | .put .. | .mapStringToReference .. | .casFails _ => isTrue trivial

/-- Two calls for two strings that both answer a reference answer two references, and none answers
    an index drawn for another string. -/
structure DistinctRefs (s : State T K) : Prop where
  pairs : ∀ c ∈ s.returned, ∀ c' ∈ s.returned, c.ptr ≠ none → c'.ptr ≠ none → c.ptr ≠ c'.ptr →
    c.ref ≠ noRef → c'.ref ≠ noRef → c.ref ≠ c'.ref
  others : ∀ c ∈ s.returned, c.ptr ≠ none → c.ref ≠ noRef →
    ∀ x i, s.drawn[i]? = some x → c.ref = UInt32.ofNat i → x.1 = c.ptr

/-- INVARIANT: a returned reference was drawn for the pointer of its call. -/
def RefsIssued (s : State T K) : Prop :=
  ∀ c ∈ s.returned, c.ptr ≠ none → c.ref ≠ noRef → Issued s.drawn c.ptr c.ref

variable {sh : Shape K} {s s' : State T K}

/-- References drawn for their own pointers are distinct for distinct pointers. -/
theorem RefsIssued.distinct (h : RefsIssued s) (he : EntryInv sh s) : DistinctRefs s where
  pairs := by
    rintro c hc c' hc' hp hp' hne hr hr' heq
    obtain ⟨i, idx, hi, hx⟩ := h c hc hp hr
    obtain ⟨j, idx', hj, hx'⟩ := h c' hc' hp' hr'
    obtain rfl : i = j := ofNat_inj (he.index_lt hx) (he.index_lt hx') (by rw [← hi, ← hj, heq])
    rw [hx] at hx'
    exact hne (congrArg Prod.fst (Option.some.inj hx'))
  others := by
    rintro c hc hp hr x j hx' hj
    obtain ⟨i, idx, hi, hx⟩ := h c hc hp hr
    obtain rfl : i = j := ofNat_inj (he.index_lt hx) (he.index_lt hx') (by rw [← hi, ← hj])
    rw [hx] at hx'
    exact (congrArg Prod.fst (Option.some.inj hx')).symm

/-- A value that no thread owes is the index drawn for the slot. -/
theorem EntryInv.settled (h : EntryInv sh s) {idx : ℕ} {k : K} (hk : s.table.ptr idx = some k)
    (hs : ∀ u, ¬ (s.thread u).owes idx) :
    s.drawn[s.table.value idx]? = some (some k, idx) := by
  rcases h.entry idx k hk with hd | ⟨⟨u, hu⟩, hv⟩
  · exact hd
  · have hok := h.threads u
    have hnot := hs u
    cases hpc : s.thread u with
    | putDraw c p j =>
      rw [hpc] at hu hnot
      exact absurd (Option.some.inj hu) hnot
    | putStore c p j i =>
      -- the claimant has drawn `0`, which is what the slot holds already
      rw [hpc] at hu hnot hok
      obtain rfl : j = idx := Option.some.inj hu
      have hi : i = 0 := by
        by_contra hne
        exact hnot ⟨rfl, hne⟩
      have hdraw : s.drawn[i]? = some (p, j) := hok
      rw [hv, ← hi, hdraw, ← (h.key hdraw).2, hk]
    | _ => rw [hpc] at hu; cases hu

variable [DecidableEq T]

theorem RefsIssued.ret (h : RefsIssued s) {t : T} {c : Caller} {p : Option K} {r : UInt32} {v : Bool}
    (hr : p ≠ none → r ≠ noRef → Issued s.drawn p r) : RefsIssued (s.ret t c p r v) := by
  intro x hx hp hne
  rcases List.mem_append.mp hx with hx | hx
  · exact h x hx hp hne
  · rw [List.mem_singleton] at hx
    subst hx
    exact hr hp hne

theorem RefsIssued.afterGet (h : RefsIssued s) {t : T} {c : Caller} {p : Option K} {r : UInt32}
    (hr : p ≠ none → r ≠ noRef → Issued s.drawn p r) : RefsIssued (s.afterGet sh t c p r) := by
  rcases afterGet_cases sh s t c p r with ⟨he, -⟩ | he
  · rw [he]; exact h.ret hr
  · rw [he]; exact h

theorem RefsIssued.afterPut (h : RefsIssued s) {t : T} {c : Caller} {p : Option K} {r : UInt32}
    (hr : p ≠ none → r ≠ noRef → Issued s.drawn p r) : RefsIssued (s.afterPut t c p r) := by
  rcases afterPut_cases s t c p r with ⟨he, -⟩ | ⟨he, -⟩ | ⟨he, -⟩
  · rw [he]; exact h.ret hr
  · rw [he]; exact h
  · rw [he]; exact h.ret fun _ hne => absurd rfl hne

theorem RefsIssued.nextStep (h : RefsIssued s) {t : T} {c : Caller} {p : Option K} {idx : ℕ} :
    RefsIssued (s.nextStep sh t c p idx) := by
  rcases nextStep_cases sh s t c p idx with ⟨_, -, he⟩ | ⟨-, he⟩
  · rw [he]; exact h
  · rw [he]; exact h.ret fun _ hne => absurd rfl hne

/-- STEP: a transition that loads no unsettled value returns drawn references only. -/
theorem refsIssued_moves {a : Action T K} (he : EntryInv sh s) (h : RefsIssued s)
    (hg : LoadsStored s a) (hm : Moves sh s a s') : RefsIssued s' := by
  cases hm with
  | call ht => exact h
  | callPut ht => exact h
  | hit ht hp => exact h
  | probe ht hn => exact h
  | miss ht => exact h.afterGet fun _ hne => absurd rfl hne
  | @load t c p idx ht =>
    refine h.afterGet ?_
    intro hp _
    obtain ⟨k, rfl⟩ := Option.ne_none_iff_exists'.mp hp
    have hok := he.threads t
    rw [ht] at hok
    have howes := hg idx (by rw [ht]; rfl)
    exact ⟨_, idx, rfl, he.settled (hok k rfl) howes⟩
  | found ht hp => exact h.afterPut fun _ hne => absurd rfl hne
  | free ht hp hf => exact h
  | taken ht hp hf => exact h.nextStep
  | claim ht hf => exact h
  | lose ht ha => exact h.nextStep
  | draw ht =>
    exact fun x hx hp hne => (h x hx hp hne).mono (List.prefix_append _ _)
  | @store t c p idx i ht =>
    have hok := he.threads t
    rw [ht] at hok
    exact RefsIssued.afterPut (s := { s with
      table := { s.table with value := Function.update s.table.value idx i } }) h
      fun _ _ => ⟨i, idx, rfl, hok⟩
  | @enqueue t p r ht =>
    have hok := he.threads t
    rw [ht] at hok
    have hret : RefsIssued (s.ret t .map p r true) := h.ret fun _ _ => hok
    exact hret

variable [DecidableEq K]

/-- RUN: the entries along any run. -/
theorem entryInv_run {as : List (Action T K)} (hr : run (step sh) State.new as = some s) :
    EntryInv sh s ∧ FreeZero s := by
  refine run_inv (I := fun s => EntryInv sh s ∧ FreeZero s) ?_ as (meets_true _ _)
    ⟨entryInv_new, fun _ _ => rfl⟩ hr
  rintro s a t ⟨he, hz⟩ - hst
  exact entryInv_moves he hz (step_moves hst)

/-- RUN: returned references along the runs that load no unsettled value. -/
theorem refsIssued_run {as : List (Action T K)} (hr : run (step sh) State.new as = some s)
    (hG : Meets (step sh) LoadsStored State.new as) : RefsIssued s := by
  have hinv : (EntryInv sh s ∧ FreeZero s) ∧ RefsIssued s := by
    refine run_inv (I := fun s => (EntryInv sh s ∧ FreeZero s) ∧ RefsIssued s) ?_ as hG
      ⟨⟨entryInv_new, fun _ _ => rfl⟩, fun _ hx => by simp [State.new] at hx⟩ hr
    rintro s a t ⟨⟨he, hz⟩, hri⟩ hg hst
    have hm := step_moves hst
    exact ⟨entryInv_moves he hz hm, refsIssued_moves he hri hg hm⟩
  exact hinv.2

/-- CORRECT: while no value is loaded between the claim of its slot and the store, no two strings
    share a reference. -/
theorem distinctRefs_run {as : List (Action T K)} (hr : run (step sh) State.new as = some s)
    (hG : Meets (step sh) LoadsStored State.new as) : DistinctRefs s :=
  (refsIssued_run hr hG).distinct (entryInv_run hr).1

/-- The steps of `MapStringToReference` calls on strings, whose CAS fails on taken slots only. -/
def mapsNames : Action T K → Bool
  | .mapStringToReference _ (some _) => true
  | .go _ => true
  | _ => false

/-- Thread `t` takes its next `n` steps. -/
def goes (t : T) (n : ℕ) : List (Action T K) := List.replicate n (.go t)

def nameA : Addr := ⟨0x1000, by decide⟩

def nameB : Addr := ⟨0x2000, by decide⟩

/-- Thread 0 maps a first name. Thread 1 claims a slot for a second one and stalls; thread 2 looks
    the second name up. -/
def readUnset : List (Action (Fin 3) Addr) :=
  .mapStringToReference 0 (some nameA) :: goes 0 6 ++
  .mapStringToReference 1 (some nameB) :: goes 1 3 ++
  .mapStringToReference 2 (some nameB) :: goes 2 2

/-- REFUTED: in `readUnset` the second name is answered the reference of the first. -/
theorem readUnset_shares :
    ¬ ∀ (as : List (Action (Fin 3) Addr)) (s : State (Fin 3) Addr),
      (∀ a ∈ as, mapsNames a = true) → run (step espStrings) State.new as = some s →
        DistinctRefs s := by
  intro h
  have hpairs := (h readUnset _ (by decide) rfl).pairs
  exact absurd hpairs (by decide)

/-- Threads 0 and 1 map two names step by step in turn, and the second name draws the first index.
    Thread 2 maps the second name too: it meets the claimed slot before the store and loads the value
    after it, while thread 1 has yet to offer the string. -/
def mapTwo : List (Action (Fin 3) Addr) :=
  [.mapStringToReference 0 (some nameA), .mapStringToReference 1 (some nameB), .go 0, .go 1, .go 0,
   .go 1, .go 0, .go 1, .mapStringToReference 2 (some nameB), .go 2, .go 1, .go 0, .go 1, .go 2,
   .go 0, .go 1, .go 0]

theorem distinctRefs_run_mapTwo : ∃ s : State (Fin 3) Addr,
    run (step espStrings) State.new mapTwo = some s ∧
      s.returned.map (fun c => (c.thread, c.ref)) = [(2, 0), (1, 0), (0, 1)] ∧ DistinctRefs s := by
  refine ⟨_, rfl, rfl, ?_⟩
  exact @distinctRefs_run (Fin 3) Addr espStrings _ _ _ mapTwo rfl (by decide)

end Esp.HashThreads
