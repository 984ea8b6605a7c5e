import Libesp.Map.HashReferences

/-! @esp map | name:PointerHash | scheme:invariant |
    source:src/map/pointer_hash.h, src/Context.cpp (MapStringToReference)

    Where a string is in the table. Slots are never freed, so the slots a `Put` has passed stay
    taken, and a string sits in the first slot of its probe that no other string has.

        start(p) ─▶ q₁ ─▶ q₂ ─▶ … ─▶ p ─▶ (free)
                    other strings    first slot not another's: one slot for each string

    `Put` leaves this order when its CAS loses: the slot may have gone to the same string, and the
    loop moves on without looking. Two threads that meet a new string together can so give it two
    slots, two indices and two records. The other way `Put` can meet its own string is its load,
    which answers `-1`, the answer for a full table. -/

namespace Esp.HashThreads
open Memory Probe PointerHash Machine

variable {T K : Type} (sh : Shape K)

/-- Slot `x` belongs to another pointer than `p`. -/
def Taken (tbl : Table K) (p : Option K) (x : ℕ) : Prop := tbl.ptr x ≠ none ∧ tbl.ptr x ≠ p

/-- A `Put` in its loop has passed slots of other pointers only. -/
def Probing (tbl : Table K) : Prober K → Prop
  | .putPtr _ p idx | .putCas _ p idx =>
    Passed sh.capacity (sh.start p) (Taken tbl p) idx
  | _ => True

/-- INVARIANT: every pointer sits where its probe first meets no other pointer. -/
structure ChainInv (s : State T K) : Prop where
  entries : ∀ idx k, s.table.ptr idx = some k →
    Passed sh.capacity (sh.start (some k)) (Taken s.table (some k)) idx
  probes : ∀ t, Probing sh s.table (s.thread t)

/-- The pointer and the slot of the CAS a thread is about to make. -/
def Prober.cas : Prober K → Option (Option K × ℕ)
  | .putCas _ p idx => some (p, idx)
  | _ => none

/-- A failing CAS finds the slot taken by another pointer. -/
def LosesToOther (s : State T K) : Action T K → Prop
  | .go t => ∀ x ∈ (s.thread t).cas, s.table.ptr x.2 ≠ x.1
  | .casFails t => ∀ x ∈ (s.thread t).cas, s.table.ptr x.2 ≠ none ∧ s.table.ptr x.2 ≠ x.1
  | _ => True

instance [DecidableEq K] (s : State T K) : DecidablePred (LosesToOther s)
  | .go t => inferInstanceAs (Decidable (∀ x ∈ (s.thread t).cas, s.table.ptr x.2 ≠ x.1))
  | .casFails t => inferInstanceAs
    (Decidable (∀ x ∈ (s.thread t).cas, s.table.ptr x.2 ≠ none ∧ s.table.ptr x.2 ≠ x.1))
  | .get .. | .put .. | .mapStringToReference .. => isTrue trivial

/-- The index a thread has drawn, or is about to offer, and nobody has queued. -/
def Prober.holds : Prober K → Option UInt32
  | .putStore _ _ _ i => some (UInt32.ofNat i)
  | .offer _ r => some r
  | _ => none

/-- INVARIANT: each drawn index is queued once or held by one thread. -/
structure QueueInv (s : State T K) : Prop where
  issued : ∀ x ∈ s.queued, Issued s.drawn x.1 x.2
  refs_nodup : (s.queued.map Prod.snd).Nodup
  held_fresh : ∀ t r, (s.thread t).holds = some r → r ∉ s.queued.map Prod.snd
  held_once : ∀ t u r, (s.thread t).holds = some r → (s.thread u).holds = some r → t = u

/-- A string has one slot, one index and at most one record. -/
structure OneEntry (s : State T K) : Prop where
  slot : ∀ i j k, s.table.ptr i = some k → s.table.ptr j = some k → i = j
  index : ∀ (i j : ℕ) (k : K) (idx idx' : ℕ), s.drawn[i]? = some (some k, idx) →
    s.drawn[j]? = some (some k, idx') → i = j
  record : (s.queued.map Prod.fst).Nodup

/-- All calls for one string that answer a reference answer the same one. -/
def OneReference (s : State T K) : Prop :=
  ∀ c ∈ s.returned, ∀ c' ∈ s.returned, c.ptr ≠ none → c.ptr = c'.ptr → c.ref ≠ noRef →
    c'.ref ≠ noRef → c.ref = c'.ref

variable {sh} {s s' : State T K}

theorem Taken.mono {tbl tbl' : Table K} {p : Option K} {x : ℕ} (h : Taken tbl p x)
    (hptr : ∀ i, tbl.ptr i ≠ none → tbl'.ptr i = tbl.ptr i) : Taken tbl' p x := by
  rw [Taken, hptr x h.1]
  exact h

theorem Probing.mono {tbl tbl' : Table K} {pc : Prober K} (h : Probing sh tbl pc)
    (hptr : ∀ i, tbl.ptr i ≠ none → tbl'.ptr i = tbl.ptr i) : Probing sh tbl' pc := by
  cases pc with
  | putPtr c p idx => exact Passed.mono h fun _ hx => hx.mono hptr
  | putCas c p idx => exact Passed.mono h fun _ hx => hx.mono hptr
  | _ => trivial

theorem chainInv_new : ChainInv sh (State.new : State T K) where
  entries := fun _ _ hk => by simp [State.new, Table.new] at hk
  probes := fun _ => trivial

theorem queueInv_new : QueueInv (State.new : State T K) where
  issued := fun _ hx => by simp [State.new] at hx
  refs_nodup := List.nodup_nil
  held_fresh := fun _ _ hu => by simp [State.new, Prober.holds] at hu
  held_once := fun _ _ _ hu => by simp [State.new, Prober.holds] at hu

theorem ChainInv.slot_unique (h : ChainInv sh s) {i j : ℕ} {k : K} (hi : s.table.ptr i = some k)
    (hj : s.table.ptr j = some k) : i = j :=
  (h.entries i k hi).unique (h.entries j k hj) (fun ht => ht.2 hi) fun ht => ht.2 hj

theorem ChainInv.index_unique (h : ChainInv sh s) (he : EntryInv sh s) {i j idx idx' : ℕ}
    {p : Option K} (hi : s.drawn[i]? = some (p, idx)) (hj : s.drawn[j]? = some (p, idx')) :
    i = j := by
  obtain ⟨hne, hkey⟩ := he.key hi
  obtain ⟨k, rfl⟩ := Option.ne_none_iff_exists'.mp hne
  obtain rfl : idx = idx' := h.slot_unique hkey (he.key hj).2
  exact he.draw_unique hi hj

/-- Two references drawn for one pointer are one. -/
theorem ChainInv.issued_unique (h : ChainInv sh s) (he : EntryInv sh s) {p : Option K}
    {r r' : UInt32} (hr : Issued s.drawn p r) (hr' : Issued s.drawn p r') : r = r' := by
  obtain ⟨i, idx, rfl, hi⟩ := hr
  obtain ⟨j, idx', rfl, hj⟩ := hr'
  rw [h.index_unique he hi hj]

theorem ChainInv.oneEntry (h : ChainInv sh s) (he : EntryInv sh s) (hq : QueueInv s) :
    OneEntry s where
  slot := fun _ _ _ => h.slot_unique
  index := fun _ _ _ _ _ => h.index_unique he
  record := by
    refine List.Nodup.map_on (fun x hx y hy hxy => Prod.ext hxy ?_) (List.Nodup.of_map _ hq.refs_nodup)
    have hy' := hq.issued y hy
    rw [← hxy] at hy'
    exact h.issued_unique he (hq.issued x hx) hy'

variable [DecidableEq T]

theorem ChainInv.goto (h : ChainInv sh s) {t : T} {q : Prober K} (hq : Probing sh s.table q) :
    ChainInv sh (s.goto t q) := by
  refine { h with probes := fun u => ?_ }
  by_cases hut : u = t
  · subst hut; rw [goto_self]; exact hq
  · rw [goto_other q hut]; exact h.probes u

theorem ChainInv.ret (h : ChainInv sh s) {t : T} {c : Caller} {p : Option K} {r : UInt32} {v : Bool} :
    ChainInv sh (s.ret t c p r v) :=
  { h.goto (q := .idle) trivial with }

theorem ChainInv.afterGet (h : ChainInv sh s) {t : T} {c : Caller} {p : Option K} {r : UInt32} :
    ChainInv sh (s.afterGet sh t c p r) := by
  rcases afterGet_cases sh s t c p r with ⟨he, -⟩ | he
  · rw [he]; exact h.ret
  · rw [he]; exact h.goto (passed_start (sh.start_lt p))

theorem ChainInv.afterPut (h : ChainInv sh s) {t : T} {c : Caller} {p : Option K} {r : UInt32} :
    ChainInv sh (s.afterPut t c p r) := by
  rcases afterPut_cases s t c p r with ⟨he, -⟩ | ⟨he, -⟩ | ⟨he, -⟩
  · rw [he]; exact h.ret
  · rw [he]; exact h.goto trivial
  · rw [he]; exact h.ret

/-- `Put` goes on to the next slot from one that is another pointer's. -/
theorem ChainInv.nextStep (h : ChainInv sh s) {t : T} {c : Caller} {p : Option K} {idx : ℕ}
    (hp : Passed sh.capacity (sh.start p) (Taken s.table p) idx) (ht : Taken s.table p idx) :
    ChainInv sh (s.nextStep sh t c p idx) := by
  rcases nextStep_cases sh s t c p idx with ⟨idx', hn, he⟩ | ⟨-, he⟩
  · rw [he]
    obtain ⟨rfl, hne⟩ := sh.next_some hn
    exact h.goto (hp.next (sh.start_lt p) ht hne)
  · rw [he]; exact h.ret

theorem ChainInv.claim (h : ChainInv sh s) {t : T} {c : Caller} {p : Option K} {idx : ℕ}
    (ht : s.thread t = .putCas c p idx) (hf : s.table.ptr idx = none) :
    ChainInv sh { s.goto t (.putDraw c p idx) with
      table := { s.table with ptr := Function.update s.table.ptr idx p } } := by
  have hkeep : ∀ i, s.table.ptr i ≠ none → Function.update s.table.ptr idx p i = s.table.ptr i :=
    fun i hi => Function.update_of_ne (by rintro rfl; exact hi hf) ..
  have hg : ChainInv sh (s.goto t (.putDraw c p idx)) := h.goto trivial
  refine ⟨?_, fun u => (hg.probes u).mono hkeep⟩
  intro i k hk
  by_cases hi : i = idx
  · subst hi
    simp only [Function.update_self] at hk
    subst hk
    have hprobe := h.probes t
    rw [ht] at hprobe
    exact Passed.mono hprobe fun _ hx => hx.mono hkeep
  · simp only [Function.update_of_ne hi] at hk
    exact (h.entries i k hk).mono fun _ hx => hx.mono hkeep

omit [DecidableEq T] in
theorem losesToOther_taken {a : Action T K} {t : T} {c : Caller} {p : Option K} {idx : ℕ}
    (ht : s.thread t = .putCas c p idx)
    (ha : a = .casFails t ∨ a = .go t ∧ s.table.ptr idx ≠ none) (hg : LosesToOther s a) :
    Taken s.table p idx := by
  have hcas : (p, idx) ∈ (s.thread t).cas := by rw [ht]; rfl
  rcases ha with rfl | ⟨rfl, hf⟩
  · exact hg _ hcas
  · exact ⟨hf, hg _ hcas⟩

/-- STEP: every transition whose CAS loses to another pointer only keeps the order. -/
theorem chainInv_moves {a : Action T K} (h : ChainInv sh s) (hg : LosesToOther s a)
    (hm : Moves sh s a s') : ChainInv sh s' := by
  cases hm with
  | call ht => exact h.goto trivial
  | callPut ht => exact h.goto (passed_start (sh.start_lt _))
  | hit ht hp => exact h.goto trivial
  | probe ht hn => exact h.goto trivial
  | miss ht => exact h.afterGet
  | load ht => exact h.afterGet
  | found ht hp => exact h.afterPut
  | @free t c p idx ht hp hf =>
    have hprobe := h.probes t
    rw [ht] at hprobe
    exact h.goto hprobe
  | @taken t c p idx ht hp hf =>
    have hprobe := h.probes t
    rw [ht] at hprobe
    exact h.nextStep hprobe ⟨hf, hp⟩
  | claim ht hf => exact h.claim ht hf
  | @lose _ t c p idx ht ha =>
    have hprobe := h.probes t
    rw [ht] at hprobe
    exact h.nextStep hprobe (losesToOther_taken ht ha hg)
  | @draw t c p idx ht =>
    have hgo : ChainInv sh (s.goto t (.putStore c p idx s.table.nextIndex)) := h.goto trivial
    exact { hgo with }
  | @store t c p idx i ht =>
    exact ChainInv.afterPut (s := { s with
      table := { s.table with value := Function.update s.table.value idx i } }) { h with }
  | @enqueue t p r ht =>
    have hret : ChainInv sh (s.ret t .map p r true) := h.ret
    exact { hret with }

/-! ### String records -/

omit [DecidableEq T] in
/-- What a thread holds was drawn. -/
theorem EntryInv.held_issued (h : EntryInv sh s) {t : T} {r : UInt32}
    (hr : (s.thread t).holds = some r) : ∃ p, Issued s.drawn p r := by
  have hok := h.threads t
  cases hpc : s.thread t with
  | putStore c p idx i =>
    rw [hpc] at hr hok
    cases hr
    exact ⟨p, i, idx, rfl, hok⟩
  | offer p r' =>
    rw [hpc] at hr hok
    cases hr
    exact ⟨p, hok⟩
  | _ => rw [hpc] at hr; cases hr

/-- A drawn reference is not the next index. -/
theorem Issued.ne_next {drawn : List (Option K × ℕ)} {p : Option K} {r : UInt32}
    (h : Issued drawn p r) (hlen : drawn.length < 2147483648) : r ≠ UInt32.ofNat drawn.length := by
  obtain ⟨i, idx, rfl, hi⟩ := h
  have hlt := (List.getElem?_eq_some_iff.mp hi).1
  intro he
  have := ofNat_inj (by omega) hlen he
  omega

theorem QueueInv.goto (h : QueueInv s) {t : T} {q : Prober K}
    (hq : ∀ r, q.holds = some r → (s.thread t).holds = some r) : QueueInv (s.goto t q) := by
  have hold : ∀ u r, ((s.goto t q).thread u).holds = some r → (s.thread u).holds = some r := by
    intro u r hu
    by_cases hut : u = t
    · subst hut; rw [goto_self] at hu; exact hq r hu
    · rwa [goto_other q hut] at hu
  exact { h with
    held_fresh := fun u r hu => h.held_fresh u r (hold u r hu)
    held_once := fun u w r hu hw => h.held_once u w r (hold u r hu) (hold w r hw) }

theorem QueueInv.ret (h : QueueInv s) {t : T} {c : Caller} {p : Option K} {r : UInt32} {v : Bool} :
    QueueInv (s.ret t c p r v) :=
  { h.goto (t := t) (q := .idle) nofun with }

theorem QueueInv.afterGet (h : QueueInv s) {t : T} {c : Caller} {p : Option K} {r : UInt32} :
    QueueInv (s.afterGet sh t c p r) := by
  rcases afterGet_cases sh s t c p r with ⟨he, -⟩ | he
  · rw [he]; exact h.ret
  · rw [he]; exact h.goto nofun

theorem QueueInv.nextStep (h : QueueInv s) {t : T} {c : Caller} {p : Option K} {idx : ℕ} :
    QueueInv (s.nextStep sh t c p idx) := by
  rcases nextStep_cases sh s t c p idx with ⟨_, -, he⟩ | ⟨-, he⟩
  · rw [he]; exact h.goto nofun
  · rw [he]; exact h.ret

theorem QueueInv.draw (h : QueueInv s) (he : EntryInv sh s) {t : T} {c : Caller} {p : Option K}
    {idx : ℕ} (hlen : s.drawn.length < 2147483648) :
    QueueInv { s.goto t (.putStore c p idx s.table.nextIndex) with
      table := { s.table with nextIndex := s.table.nextIndex + 1 }
      drawn := s.drawn ++ [(p, idx)] } := by
  have hnext : UInt32.ofNat s.table.nextIndex = UInt32.ofNat s.drawn.length := by
    rw [he.nextIndex_eq]
  have hfree : ∀ u, (s.thread u).holds ≠ some (UInt32.ofNat s.drawn.length) := by
    intro u hu
    obtain ⟨q, hq⟩ := he.held_issued hu
    exact hq.ne_next hlen rfl
  refine ⟨fun x hx => (h.issued x hx).mono (List.prefix_append _ _), h.refs_nodup, ?_, ?_⟩
  · intro u r hu
    by_cases hut : u = t
    · subst hut
      simp only [State.goto, Function.update_self, Prober.holds, Option.some.injEq] at hu
      rw [← hu, hnext]
      intro hm
      obtain ⟨x, hx, hxr⟩ := List.mem_map.mp hm
      exact (h.issued x hx).ne_next hlen hxr
    · simp only [State.goto, Function.update_of_ne hut] at hu
      exact h.held_fresh u r hu
  · intro u w r hu hw
    by_cases hut : u = t <;> by_cases hwt : w = t
    · rw [hut, hwt]
    · subst hut
      simp only [State.goto, Function.update_self, Prober.holds, Option.some.injEq] at hu
      simp only [State.goto, Function.update_of_ne hwt] at hw
      rw [← hu, hnext] at hw
      exact absurd hw (hfree w)
    · subst hwt
      simp only [State.goto, Function.update_self, Prober.holds, Option.some.injEq] at hw
      simp only [State.goto, Function.update_of_ne hut] at hu
      rw [← hw, hnext] at hu
      exact absurd hu (hfree u)
    · simp only [State.goto, Function.update_of_ne hut] at hu
      simp only [State.goto, Function.update_of_ne hwt] at hw
      exact h.held_once u w r hu hw

theorem QueueInv.enqueue (h : QueueInv s) (he : EntryInv sh s) {t : T} {p : Option K} {r : UInt32}
    (ht : s.thread t = .offer p r) :
    QueueInv { s.ret t .map p r true with queued := s.queued ++ [(p, r)] } := by
  have hok := he.threads t
  have hheld : (s.thread t).holds = some r := by rw [ht]; rfl
  rw [ht] at hok
  have hret : QueueInv (s.ret t .map p r true) := h.ret
  refine ⟨?_, ?_, ?_, hret.held_once⟩
  · intro x hx
    rcases List.mem_append.mp hx with hx | hx
    · exact h.issued x hx
    · rw [List.mem_singleton] at hx
      subst hx
      exact hok
  · rw [List.map_append, List.nodup_append]
    refine ⟨h.refs_nodup, by simp, fun a ha b hb hab => h.held_fresh t r hheld ?_⟩
    obtain rfl : b = r := by simpa using hb
    rwa [← hab]
  · intro u r' hu hm
    have hut : u ≠ t := by
      rintro rfl
      simp [State.ret, State.goto, Prober.holds] at hu
    have hu' : (s.thread u).holds = some r' := by simpa [State.ret, State.goto, hut] using hu
    rw [List.map_append, List.mem_append] at hm
    rcases hm with hm | hm
    · exact h.held_fresh u r' hu' hm
    · obtain rfl : r' = r := by simpa using hm
      exact hut (h.held_once u t r' hu' hheld)

/-- STEP: every transition keeps the records apart. -/
theorem queueInv_moves {a : Action T K} (h : QueueInv s) (he : EntryInv sh s) (he' : EntryInv sh s')
    (hm : Moves sh s a s') : QueueInv s' := by
  cases hm with
  | call ht => exact h.goto nofun
  | callPut ht => exact h.goto nofun
  | hit ht hp => exact h.goto nofun
  | probe ht hn => exact h.goto nofun
  | miss ht => exact h.afterGet
  | load ht => exact h.afterGet
  | found ht hp => rw [afterPut_noRef]; exact h.ret
  | free ht hp hf => exact h.goto nofun
  | taken ht hp hf => exact h.nextStep
  | @claim t c p idx ht hf =>
    have hg : QueueInv (s.goto t (.putDraw c p idx)) := h.goto nofun
    exact { hg with }
  | lose ht ha => exact h.nextStep
  | draw ht =>
    have hlen := he'.drawn_length
    have hcap := sh.capacity_int
    simp only [List.length_append, List.length_singleton] at hlen
    exact h.draw he (by omega)
  | @store t c p idx i ht =>
    have hs : QueueInv { s with
      table := { s.table with value := Function.update s.table.value idx i } } := { h with }
    rcases afterPut_cases { s with table := { s.table with
        value := Function.update s.table.value idx i } } t c p (UInt32.ofNat i) with
      ⟨he, -⟩ | ⟨he, -⟩ | ⟨he, -⟩
    · rw [he]; exact hs.ret
    · rw [he]
      refine hs.goto ?_
      intro r hr
      simp only [ht]
      exact hr
    · rw [he]; exact hs.ret
  | enqueue ht => exact h.enqueue he ht

variable [DecidableEq K]

/-- RUN: keys, order and records along the runs whose CAS loses to another pointer only. -/
theorem chainInv_run {as : List (Action T K)} (hr : run (step sh) State.new as = some s)
    (hG : Meets (step sh) LosesToOther State.new as) : ChainInv sh s ∧ QueueInv s := by
  have hinv : (EntryInv sh s ∧ FreeZero s) ∧ ChainInv sh s ∧ QueueInv s := by
    refine run_inv (I := fun s => (EntryInv sh s ∧ FreeZero s) ∧ ChainInv sh s ∧ QueueInv s)
      ?_ as hG ⟨⟨entryInv_new, fun _ _ => rfl⟩, chainInv_new, queueInv_new⟩ hr
    rintro s a t ⟨⟨he, hz⟩, hc, hq⟩ hg hst
    have hm := step_moves hst
    have he' := entryInv_moves he hz hm
    exact ⟨he', chainInv_moves hc hg hm, queueInv_moves hq he he'.1 hm⟩
  exact hinv.2

/-- CORRECT: while every failing CAS finds another pointer in the slot, a string has one slot, one
    index and one record; if moreover no unsettled value is loaded, it has one reference. -/
theorem oneEntry_run {as : List (Action T K)} (hr : run (step sh) State.new as = some s)
    (hG : Meets (step sh) LosesToOther State.new as) :
    OneEntry s ∧ (Meets (step sh) LoadsStored State.new as → OneReference s) := by
  obtain ⟨he, -⟩ := entryInv_run hr
  obtain ⟨hc, hq⟩ := chainInv_run hr hG
  refine ⟨hc.oneEntry he hq, ?_⟩
  intro hL c hcm c' hcm' hp hpp hr1 hr2
  have hissued := refsIssued_run hr hL
  have h2 := hissued c' hcm' (hpp ▸ hp) hr2
  rw [← hpp] at h2
  exact hc.issued_unique he (hissued c hcm hp hr1) h2

/-- Two threads map one new name: both find its slot free, thread `false` claims it, and thread `true`
    loses the CAS and claims the next. -/
def mapTogether : List (Action Bool Addr) :=
  .mapStringToReference false (some nameA) :: .mapStringToReference true (some nameA) ::
  goes false 2 ++ goes true 2 ++ goes false 1 ++ goes true 3

/-- REFUTED: after `mapTogether` the name is in two slots. -/
theorem mapTogether_splits :
    ¬ ∀ (as : List (Action Bool Addr)) (s : State Bool Addr),
      (∀ a ∈ as, mapsNames a = true) → run (step espStrings) State.new as = some s →
        OneEntry s := by
  intro h
  have hslot := (h mapTogether _ (by decide) rfl).slot
  have heq := hslot 7539 7540 nameA (by decide) (by decide)
  exact absurd heq (by decide)

theorem oneEntry_run_mapTwo : ∃ s : State (Fin 3) Addr,
    run (step espStrings) State.new mapTwo = some s ∧ s.queued.map (fun x => x.2) = [0, 1] ∧
      OneEntry s ∧ OneReference s := by
  refine ⟨_, rfl, rfl, ?_⟩
  have hrun := @oneEntry_run (Fin 3) Addr espStrings _ _ _ mapTwo rfl (by decide)
  exact ⟨hrun.1, hrun.2 (by decide)⟩

end Esp.HashThreads
