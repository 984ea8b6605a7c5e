import Libesp.Map.HashChains

/-! @esp map | name:MapStringToReference | scheme:invariant |
    source:src/Context.cpp (MapStringToReference), src/map/pointer_hash.h

    What `-1` means. `MapStringToReference` answers it whenever `Put` does, and `Put` does in two
    cases that the caller cannot tell apart.

        Put ─▶ round the table, every slot another pointer's    -1, the table is full
            └▶ a slot that holds the pointer itself             -1, somebody inserted it meanwhile

    In the second case the name is in the table and the answer should be its index. -/

namespace Esp.HashThreads
open Memory Probe PointerHash Machine

variable {T K : Type}

/-- The string and the slot of the load that a `Put` under `MapStringToReference` is about to make. -/
def Prober.putLoads : Prober K → Option (K × ℕ)
  | .putPtr .map (some k) idx => some (k, idx)
  | _ => none

/-- The load of a `Put` under `MapStringToReference` does not find the pointer itself. -/
def PutMisses (s : State T K) : Action T K → Prop
  | .go t => ∀ x ∈ (s.thread t).putLoads, s.table.ptr x.2 ≠ some x.1
  | _ => True

instance [DecidableEq K] (s : State T K) : DecidablePred (PutMisses s)
  | .go t => inferInstanceAs
    (Decidable (∀ x ∈ (s.thread t).putLoads, s.table.ptr x.2 ≠ some x.1))
  | .get .. | .put .. | .mapStringToReference .. | .casFails _ => isTrue trivial

variable (sh : Shape K)

/-- `-1` is answered on a full table only, and a call that went through `Put` answers the index drawn
    for its string whenever there is one. -/
structure ErrorsFull (s : State T K) : Prop where
  full : ∀ c ∈ s.returned, c.caller = .map → c.ptr ≠ none → c.ref = noRef → Full sh c.table
  resolved : ∀ c ∈ s.returned, c.caller = .map → c.ptr ≠ none → c.viaPut = true →
    ∀ i idx, s.drawn[i]? = some (c.ptr, idx) → c.ref = UInt32.ofNat i

/-- How a call of `MapStringToReference` came to its answer. -/
inductive Answered (tbl : Table K) (drawn : List (Option K × ℕ)) (c : Return T K) : Prop
  | found (hv : c.viaPut = false) (hr : isIndex c.ref = true)
  | full (hr : c.ref = noRef) (hf : Full sh c.table) (ht : ∀ x < sh.capacity, Taken tbl c.ptr x)
  | inserted (hr : Issued drawn c.ptr c.ref)

/-- INVARIANT: every returned `MapStringToReference` call has a proper answer. -/
def AllAnswered (s : State T K) : Prop :=
  ∀ c ∈ s.returned, c.caller = .map → c.ptr ≠ none → Answered sh s.table s.drawn c

variable {sh} {s s' : State T K}

theorem Answered.mono {tbl tbl' : Table K} {drawn drawn' : List (Option K × ℕ)} {c : Return T K}
    (h : Answered sh tbl drawn c) (hptr : ∀ i, tbl.ptr i ≠ none → tbl'.ptr i = tbl.ptr i)
    (hd : drawn <+: drawn') : Answered sh tbl' drawn' c := by
  rcases h with ⟨hv, hr⟩ | ⟨hr, hf, ht⟩ | hr
  · exact .found hv hr
  · exact .full hr hf fun x hx => (ht x hx).mono hptr
  · exact .inserted (hr.mono hd)

theorem AllAnswered.mono (h : AllAnswered sh s) (hret : s'.returned = s.returned)
    (hptr : ∀ i, s.table.ptr i ≠ none → s'.table.ptr i = s.table.ptr i)
    (hd : s.drawn <+: s'.drawn) : AllAnswered sh s' :=
  fun c hc hm hp => (h c (hret ▸ hc) hm hp).mono hptr hd

/-- A call that found the table full will never have an index: its string has no slot to come. -/
theorem AllAnswered.errorsFull (h : AllAnswered sh s) (he : EntryInv sh s) (hc : ChainInv sh s) :
    ErrorsFull sh s where
  full := by
    intro c hcm hmap hp hr
    rcases h c hcm hmap hp with ⟨-, hi⟩ | ⟨-, hf, -⟩ | ⟨i, idx, hi, hx⟩
    · rw [hr] at hi; exact absurd hi (by decide)
    · exact hf
    · have hidx := isIndex_ofNat (he.index_lt hx)
      rw [← hi, hr] at hidx
      exact absurd hidx (by decide)
  resolved := by
    intro c hcm hmap hp hv j idx hj
    rcases h c hcm hmap hp with ⟨hv', -⟩ | ⟨-, -, ht⟩ | hr
    · rw [hv] at hv'; cases hv'
    · obtain ⟨k, hk⟩ := Option.ne_none_iff_exists'.mp hp
      have hkey := (he.key hj).2
      exact absurd hkey (ht idx (he.claimed idx k (hkey.trans hk))).2
    · exact hc.issued_unique he hr ⟨j, idx, rfl, hj⟩

variable [DecidableEq T]

theorem AllAnswered.ret (h : AllAnswered sh s) {t : T} {c : Caller} {p : Option K} {r : UInt32}
    {v : Bool} (hr : c = .map → p ≠ none → Answered sh s.table s.drawn ⟨t, c, p, r, v, s.table⟩) :
    AllAnswered sh (s.ret t c p r v) := by
  intro x hx hm hp
  rcases List.mem_append.mp hx with hx | hx
  · exact h x hx hm hp
  · rw [List.mem_singleton] at hx
    subst hx
    exact hr hm hp

theorem AllAnswered.afterGet (h : AllAnswered sh s) {t : T} {c : Caller} {p : Option K} {r : UInt32} :
    AllAnswered sh (s.afterGet sh t c p r) := by
  rcases afterGet_cases sh s t c p r with ⟨he, hi⟩ | he
  · rw [he]; exact h.ret fun hc _ => .found rfl (hi hc)
  · rw [he]; exact h

/-- A `Put` that is back at its start has seen another pointer in every slot. -/
theorem AllAnswered.nextStep (h : AllAnswered sh s) {t : T} {c : Caller} {p : Option K} {idx : ℕ}
    (hp : Passed sh.capacity (sh.start p) (Taken s.table p) idx) (ht : Taken s.table p idx) :
    AllAnswered sh (s.nextStep sh t c p idx) := by
  rcases nextStep_cases sh s t c p idx with ⟨_, -, he⟩ | ⟨hn, he⟩
  · rw [he]; exact h
  · rw [he]
    have hall := hp.all (sh.start_lt p) ht (sh.next_none hn)
    exact h.ret fun _ _ => .full rfl (fun i hi => (hall i hi).1) hall

/-- STEP: every transition that keeps to both conditions answers properly. -/
theorem allAnswered_moves {a : Action T K} (h : AllAnswered sh s) (he : EntryInv sh s)
    (hc : ChainInv sh s) (hput : PutMisses s a) (hcas : LosesToOther s a) (hm : Moves sh s a s') :
    AllAnswered sh s' := by
  cases hm with
  | call ht => exact h
  | callPut ht => exact h
  | hit ht hp => exact h
  | probe ht hn => exact h
  | miss ht => exact h.afterGet
  | load ht => exact h.afterGet
  | @found t c p idx ht hp =>
    rw [afterPut_noRef]
    refine h.ret ?_
    intro hmap hne
    obtain ⟨k, rfl⟩ := Option.ne_none_iff_exists'.mp hne
    subst hmap
    exact absurd hp (hput (k, idx) (by rw [ht]; rfl))
  | free ht hp hf => exact h
  | @taken t c p idx ht hp hf =>
    have hprobe := hc.probes t
    rw [ht] at hprobe
    exact h.nextStep hprobe ⟨hf, hp⟩
  | @claim t c p idx ht hf =>
    refine h.mono rfl ?_ (List.prefix_refl _)
    intro i hi
    exact Function.update_of_ne (by rintro rfl; exact hi hf) ..
  | @lose _ t c p idx ht ha =>
    have hprobe := hc.probes t
    rw [ht] at hprobe
    exact h.nextStep hprobe (losesToOther_taken ht ha hcas)
  | draw ht => exact h.mono rfl (fun _ _ => rfl) (List.prefix_append _ _)
  | @store t c p idx i ht =>
    have hok := he.threads t
    rw [ht] at hok
    have hs : AllAnswered sh { s with
        table := { s.table with value := Function.update s.table.value idx i } } :=
      h.mono rfl (fun _ _ => rfl) (List.prefix_refl _)
    rcases afterPut_cases { s with table := { s.table with
        value := Function.update s.table.value idx i } } t c p (UInt32.ofNat i) with
      ⟨hr, hd⟩ | ⟨hr, -⟩ | ⟨hr, hi⟩
    · rw [hr]; exact hs.ret fun hmap _ => absurd (hd.symm.trans hmap) nofun
    · rw [hr]; exact hs
    · rw [isIndex_ofNat (he.index_lt hok)] at hi
      cases hi
  | @enqueue t p r ht =>
    have hok := he.threads t
    rw [ht] at hok
    have hret : AllAnswered sh (s.ret t .map p r true) := h.ret fun _ _ => .inserted hok
    exact hret.mono rfl (fun _ _ => rfl) (List.prefix_refl _)

variable [DecidableEq K]

/-- CORRECT: while no `Put` under `MapStringToReference` meets its own pointer, by its load or by a
    lost CAS, `-1` is answered on a full table only and a name is answered its index. -/
theorem errorsFull_run {as : List (Action T K)} (hr : run (step sh) State.new as = some s)
    (hG : Meets (step sh) (fun s a => PutMisses s a ∧ LosesToOther s a) State.new as) :
    ErrorsFull sh s := by
  have hinv : (EntryInv sh s ∧ FreeZero s) ∧ ChainInv sh s ∧ AllAnswered sh s := by
    refine run_inv (I := fun s => (EntryInv sh s ∧ FreeZero s) ∧ ChainInv sh s ∧ AllAnswered sh s)
      ?_ as hG ⟨⟨entryInv_new, fun _ _ => rfl⟩, chainInv_new, ?_⟩ hr
    · rintro s a t ⟨⟨he, hz⟩, hc, ha⟩ ⟨hput, hcas⟩ hst
      have hm := step_moves hst
      exact ⟨entryInv_moves he hz hm, chainInv_moves hc hcas hm,
        allAnswered_moves ha he hc hput hcas hm⟩
    · exact fun _ hx => by simp [State.new] at hx
  exact hinv.2.2.errorsFull hinv.1.1 hinv.2.1

/-- Thread `false` misses a name in `Get`; thread `true` inserts it; thread `false` goes on to `Put`. -/
def insertBetween : List (Action Bool Addr) :=
  .mapStringToReference false (some nameA) :: goes false 1 ++
  .mapStringToReference true (some nameA) :: goes true 6 ++ goes false 1

/-- REFUTED: in `insertBetween` thread `false` is answered `-1` with one slot in use. -/
theorem insertBetween_errs :
    ¬ ∀ (as : List (Action Bool Addr)) (s : State Bool Addr),
      (∀ a ∈ as, mapsNames a = true) → run (step espStrings) State.new as = some s →
        ErrorsFull espStrings s := by
  intro h
  have hresolved := (h insertBetween _ (by decide) rfl).resolved
  have hall : ∀ c ∈ _, _ := fun c hc hm hp hv => hresolved c hc hm hp hv 0 7539
  exact absurd hall (by decide)

/-- Two threads map two names at once into a table of one slot: thread `false` wins the CAS, and
    thread `true` has then been once round the table. Thread `true` asks again when it is full. -/
def fillsUp : List (Action Bool Addr) :=
  .mapStringToReference false (some nameA) :: .mapStringToReference true (some nameB) ::
  goes false 2 ++ goes true 2 ++ goes false 1 ++ goes true 1 ++
  .mapStringToReference true (some nameB) :: goes true 1 ++ goes false 3 ++ goes true 1

theorem errorsFull_run_fillsUp : ∃ s : State Bool Addr,
    run (step oneSlot) State.new fillsUp = some s ∧
      s.returned.map (fun c => (c.thread, c.ref)) = [(true, noRef), (false, 0), (true, noRef)] ∧
      ErrorsFull oneSlot s := by
  refine ⟨_, rfl, rfl, ?_⟩
  exact @errorsFull_run Bool Addr oneSlot _ _ _ fillsUp rfl (by decide)

end Esp.HashThreads
