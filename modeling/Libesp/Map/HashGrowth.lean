import Libesp.Map.HashChains

/-! @esp map | name:PointerHash | scheme:invariant |
    source:src/map/pointer_hash.h, src/Context.cpp (MapStringToReference)

    How the table grows, whatever the threads do, on a machine whose CAS fails only on a taken slot.
    Each slot claimed is followed by one draw of the counter, so the draws never outrun the claims;
    an index that is drawn is held by its claimant until it is the answer of its `Put`.

        nextIndex ≤ claimed slots ≤ capacity
        drawn = answers of Put + still held

    A claimed slot is reached over taken slots, so a `Get` that starts after the claim meets no free
    slot before it. A string may still be in two slots, or be answered before its index is stored. -/

namespace Esp.HashThreads
open Memory Probe PointerHash Machine

variable {T K : Type}

/-- The CAS of the target does not fail on a free slot. -/
def Action.exact : Action T K → Bool
  | .casFails _ => false
  | _ => true

/-- Inside `Put`. -/
def Prober.putting : Prober K → Prop
  | .putPtr .. | .putCas .. | .putDraw .. | .putStore .. => True
  | _ => False

/-- Inside the `MapStringToReference` of `k`, whose `Get` has not found it. -/
def Prober.missed (k : K) : Prober K → Prop
  | .putPtr .map p _ | .putCas .map p _ | .putDraw .map p _ | .putStore .map p _ _ | .offer p _ =>
    p = some k
  | _ => False

/-- A call that went through a successful `Put`. -/
def Return.put (c : Return T K) : Bool := c.viaPut && isIndex c.ref

/-- The indices answered by the successful `Put`s of the calls that have returned. -/
def State.answered (s : State T K) : List UInt32 := (s.returned.filter Return.put).map Return.ref

/-- `Put` has returned `r`, to a call that has returned or is about to offer it. -/
def State.PutAnswers (s : State T K) (r : UInt32) : Prop :=
  r ∈ s.answered ∨ ∃ t p, s.thread t = .offer p r

variable (sh : Shape K)

def State.claimed (s : State T K) : Finset ℕ :=
  (Finset.range sh.capacity).filter fun idx => (s.table.ptr idx).isSome

/-- What holds of the slots, the counter and the answers in a reachable state. -/
structure Grown (s : State T K) : Prop where
  claimed_lt : ∀ idx k, s.table.ptr idx = some k → idx < sh.capacity
  nextIndex_le : s.table.nextIndex ≤ (s.claimed sh).card
  claimed_le : (s.claimed sh).card ≤ sh.capacity
  answered_nodup : s.answered.Nodup
  offered_fresh : ∀ t p r, s.thread t = .offer p r → r ∉ s.answered
  offered_once : ∀ t u p q r, s.thread t = .offer p r → s.thread u = .offer q r → t = u
  queued_nodup : (s.queued.map Prod.snd).Nodup
  answers : (∀ t, ¬ (s.thread t).putting) →
    ∀ r, s.PutAnswers r ↔ ∃ i < s.table.nextIndex, r = UInt32.ofNat i
  slots : (∀ t, ¬ (s.thread t).putting) → (s.claimed sh).card = s.table.nextIndex ∧
    ∀ i < s.table.nextIndex, ∃! idx, idx ∈ s.claimed sh ∧ s.table.value idx = i

/-- After its first `n` returned calls, no `Get` of `k` by thread `t` reports it absent: neither to a
    caller nor to `MapStringToReference`. -/
structure GetsFind (s : State T K) (n : ℕ) (t : T) (k : K) : Prop where
  running : ¬ (s.thread t).missed k
  returned : ∀ c ∈ s.returned.drop n, c.thread = t → c.ptr = some k →
    (c.caller = .map → c.viaPut = false) ∧ (c.viaPut = false → isIndex c.ref = true)

/-- INVARIANT: a drawn index is the answer of one `Put`, or its claimant holds it. -/
structure PutInv (s : State T K) : Prop where
  issued : ∀ c ∈ s.returned, c.put = true → Issued s.drawn c.ptr c.ref
  answered_nodup : s.answered.Nodup
  held_fresh : ∀ t r, (s.thread t).holds = some r → r ∉ s.answered
  covered : ∀ i < s.drawn.length,
    UInt32.ofNat i ∈ s.answered ∨ ∃ t, (s.thread t).holds = some (UInt32.ofNat i)

/-- INVARIANT: every slot a string was put in, or a `Put` is at, is reached over taken slots. -/
structure ReachInv (s : State T K) : Prop where
  entries : ∀ idx k, s.table.ptr idx = some k →
    Passed sh.capacity (sh.start (some k)) (fun x => s.table.ptr x ≠ none) idx
  probes : ∀ t c p idx, s.thread t = .putPtr c p idx ∨ s.thread t = .putCas c p idx →
    Passed sh.capacity (sh.start p) (fun x => s.table.ptr x ≠ none) idx

/-- INVARIANT: the `Get`s of `k` by thread `t` find it, and one that is under way is not past it. -/
structure FindInv (s : State T K) (n : ℕ) (t : T) (k : K) : Prop where
  getsFind : GetsFind s n t k
  length_le : n ≤ s.returned.length
  present : ∃ idx, s.table.ptr idx = some k
  looking : ∀ c idx, s.thread t = .getPtr c (some k) idx →
    ∃ j, s.table.ptr j = some k ∧ Ahead sh.capacity (sh.start (some k)) idx j

variable {sh} {s s' : State T K}

/-! ### Answers of Put -/

theorem putInv_new : PutInv (State.new : State T K) where
  issued := fun _ hc => by cases hc
  answered_nodup := List.nodup_nil
  held_fresh := fun _ _ hr => by cases hr
  covered := fun _ hi => by cases hi

variable [DecidableEq T]

theorem answered_ret (t : T) (c : Caller) (p : Option K) (r : UInt32) (v : Bool) :
    (s.ret t c p r v).answered = s.answered ++ if v && isIndex r then [r] else [] := by
  rw [State.answered, State.ret, List.filter_append, List.map_append]
  rcases hv : v && isIndex r <;> simp [State.answered, Return.put, hv]

/-- A thread that keeps what it holds. -/
theorem PutInv.goto (h : PutInv s) {t : T} {q : Prober K} (hq : q.holds = (s.thread t).holds) :
    PutInv (s.goto t q) := by
  have hold : ∀ u, ((s.goto t q).thread u).holds = (s.thread u).holds := by
    intro u
    by_cases hut : u = t
    · subst hut; rw [goto_self]; exact hq
    · rw [goto_other q hut]
  refine ⟨h.issued, h.answered_nodup, ?_, ?_⟩
  · intro u r hu
    exact h.held_fresh u r ((hold u).symm.trans hu)
  · intro i hi
    exact (h.covered i hi).imp_right fun ⟨u, hu⟩ => ⟨u, (hold u).trans hu⟩

/-- A call that returns without having put. -/
theorem PutInv.ret (h : PutInv s) {t : T} {c : Caller} {p : Option K} {r : UInt32} {v : Bool}
    (hfree : (s.thread t).holds = none) (hv : (v && isIndex r) = false) :
    PutInv (s.ret t c p r v) := by
  have hgo : PutInv (s.goto t .idle) := h.goto hfree.symm
  have hans : (s.ret t c p r v).answered = s.answered := by
    rw [answered_ret, hv]
    exact List.append_nil _
  refine ⟨?_, by rw [hans]; exact h.answered_nodup, ?_, ?_⟩
  · intro x hx hput
    rcases List.mem_append.mp hx with hx | hx
    · exact h.issued x hx hput
    · rw [List.mem_singleton] at hx
      subst hx
      exact absurd (hv.symm.trans hput) Bool.false_ne_true
  · rw [hans]
    exact hgo.held_fresh
  · rw [hans]
    exact hgo.covered

/-- A call that returns the index it holds. -/
theorem PutInv.retHeld (h : PutInv s) (hq : QueueInv s) {t : T} {c : Caller} {p : Option K}
    {r : UInt32} (hheld : (s.thread t).holds = some r) (hr : Issued s.drawn p r)
    (hidx : isIndex r = true) : PutInv (s.ret t c p r true) := by
  have hans : (s.ret t c p r true).answered = s.answered ++ [r] := by
    rw [answered_ret, hidx]
    rfl
  have hother : ∀ u, u ≠ t → (s.ret t c p r true).thread u = s.thread u := fun u hut =>
    goto_other .idle hut
  refine ⟨?_, ?_, ?_, ?_⟩
  · intro x hx hput
    rcases List.mem_append.mp hx with hx | hx
    · exact h.issued x hx hput
    · rw [List.mem_singleton] at hx
      subst hx
      exact hr
  · rw [hans, List.nodup_append]
    refine ⟨h.answered_nodup, List.nodup_singleton r, ?_⟩
    rintro a ha b hb rfl
    rw [List.mem_singleton] at hb
    exact h.held_fresh t r hheld (hb ▸ ha)
  · intro u r' hu
    have hut : u ≠ t := by
      rintro rfl
      simp [State.ret, State.goto, Prober.holds] at hu
    rw [hother u hut] at hu
    rw [hans, List.mem_append, List.mem_singleton]
    rintro (hm | rfl)
    · exact h.held_fresh u r' hu hm
    · exact hut (hq.held_once u t r' hu hheld)
  · intro i hi
    rw [hans]
    rcases h.covered i hi with hm | ⟨u, hu⟩
    · exact Or.inl (List.mem_append_left _ hm)
    · by_cases hut : u = t
      · subst hut
        obtain rfl := Option.some.inj (hheld.symm.trans hu)
        exact Or.inl (List.mem_append_right _ List.mem_cons_self)
      · exact Or.inr ⟨u, by rw [hother u hut]; exact hu⟩

theorem PutInv.draw (h : PutInv s) {t : T} {c : Caller} {p : Option K} {idx : ℕ}
    (ht : s.thread t = .putDraw c p idx) (hlen : s.drawn.length < 2147483648) :
    PutInv { s.goto t (.putStore c p idx s.drawn.length) with
      table := { s.table with nextIndex := s.table.nextIndex + 1 }
      drawn := s.drawn ++ [(p, idx)] } := by
  refine ⟨fun x hx hput => (h.issued x hx hput).mono (List.prefix_append _ _), h.answered_nodup,
    ?_, ?_⟩
  · intro u r hu
    by_cases hut : u = t
    · subst hut
      simp only [State.goto, Function.update_self, Prober.holds, Option.some.injEq] at hu
      subst hu
      intro hm
      obtain ⟨x, hx, hxr⟩ := List.mem_map.mp hm
      obtain ⟨hx, hput⟩ := List.mem_filter.mp hx
      exact (h.issued x hx hput).ne_next hlen hxr
    · simp only [State.goto, Function.update_of_ne hut] at hu
      exact h.held_fresh u r hu
  · intro i hi
    rw [List.length_append, List.length_singleton] at hi
    by_cases hlast : i = s.drawn.length
    · subst hlast
      exact Or.inr ⟨t, by simp [State.goto, Prober.holds]⟩
    · refine (h.covered i (by omega)).imp_right ?_
      rintro ⟨u, hu⟩
      have hut : u ≠ t := by
        rintro rfl
        rw [ht] at hu
        cases hu
      exact ⟨u, by simpa [State.goto, hut] using hu⟩

theorem PutInv.afterGet (h : PutInv s) {t : T} {c : Caller} {p : Option K} {r : UInt32}
    (hfree : (s.thread t).holds = none) : PutInv (s.afterGet sh t c p r) := by
  rcases afterGet_cases sh s t c p r with ⟨he, -⟩ | he
  · rw [he]; exact h.ret hfree rfl
  · rw [he]; exact h.goto hfree.symm

theorem PutInv.nextStep (h : PutInv s) {t : T} {c : Caller} {p : Option K} {idx : ℕ}
    (hfree : (s.thread t).holds = none) : PutInv (s.nextStep sh t c p idx) := by
  rcases nextStep_cases sh s t c p idx with ⟨_, -, he⟩ | ⟨-, he⟩
  · rw [he]; exact h.goto hfree.symm
  · rw [he]; exact h.ret hfree rfl

/-- STEP: every transition keeps the account of the drawn indices. -/
theorem putInv_moves {a : Action T K} (h : PutInv s) (hq : QueueInv s) (he : EntryInv sh s)
    (he' : EntryInv sh s') (hm : Moves sh s a s') : PutInv s' := by
  cases hm with
  | call ht => exact h.goto (by rw [ht]; rfl)
  | callPut ht => exact h.goto (by rw [ht]; rfl)
  | hit ht hp => exact h.goto (by rw [ht]; rfl)
  | probe ht hn => exact h.goto (by rw [ht]; rfl)
  | miss ht => exact h.afterGet (by rw [ht]; rfl)
  | load ht => exact h.afterGet (by rw [ht]; rfl)
  | found ht hp => rw [afterPut_noRef]; exact h.ret (by rw [ht]; rfl) rfl
  | free ht hp hf => exact h.goto (by rw [ht]; rfl)
  | taken ht hp hf => exact h.nextStep (by rw [ht]; rfl)
  | @claim t c p idx ht hf =>
    have hg : PutInv (s.goto t (.putDraw c p idx)) := h.goto (by rw [ht]; rfl)
    exact { hg with }
  | lose ht ha => exact h.nextStep (by rw [ht]; rfl)
  | @draw t c p idx ht =>
    have hlen := he'.drawn_length
    have hcap := sh.capacity_int
    simp only [List.length_append, List.length_singleton] at hlen
    rw [he.nextIndex_eq]
    have hd := h.draw ht (by omega)
    rw [he.nextIndex_eq] at hd
    exact hd
  | @store t c p idx i ht =>
    have hok := he.threads t
    rw [ht] at hok
    have hs : PutInv { s with
      table := { s.table with value := Function.update s.table.value idx i } } := { h with }
    have hqs : QueueInv { s with
      table := { s.table with value := Function.update s.table.value idx i } } := { hq with }
    have hheld : (s.thread t).holds = some (UInt32.ofNat i) := by rw [ht]; rfl
    have hidx := isIndex_ofNat (he.index_lt hok)
    rcases afterPut_cases { s with table := { s.table with
        value := Function.update s.table.value idx i } } t c p (UInt32.ofNat i) with
      ⟨he, -⟩ | ⟨he, -⟩ | ⟨he, hnot⟩
    · rw [he]; exact hs.retHeld hqs hheld ⟨i, idx, rfl, hok⟩ hidx
    · rw [he]; exact hs.goto hheld.symm
    · exact absurd (hnot.symm.trans hidx) Bool.false_ne_true
  | @enqueue t p r ht =>
    have hok := he.threads t
    rw [ht] at hok
    obtain ⟨i, idx, rfl, hi⟩ := hok
    have hret := h.retHeld (c := .map) hq (by rw [ht]; rfl) ⟨i, idx, rfl, hi⟩
      (isIndex_ofNat (he.index_lt hi))
    exact { hret with }

/-! ### Taken slots on the way -/

omit [DecidableEq T] in
theorem reachInv_new : ReachInv sh (State.new : State T K) where
  entries := fun _ _ hk => by cases hk
  probes := fun _ _ _ _ ht => by rcases ht with ht | ht <;> cases ht

theorem ReachInv.goto (h : ReachInv sh s) {t : T} {q : Prober K}
    (hq : ∀ c p idx, q = .putPtr c p idx ∨ q = .putCas c p idx →
      Passed sh.capacity (sh.start p) (fun x => s.table.ptr x ≠ none) idx) :
    ReachInv sh (s.goto t q) := by
  refine ⟨h.entries, ?_⟩
  intro u c p idx hu
  by_cases hut : u = t
  · subst hut
    rw [goto_self] at hu
    exact hq c p idx hu
  · rw [goto_other q hut] at hu
    exact h.probes u c p idx hu

/-- A thread that leaves `Put`, or is not in its loop. -/
theorem ReachInv.leave (h : ReachInv sh s) {t : T} {q : Prober K}
    (hq : ∀ c p idx, q ≠ .putPtr c p idx ∧ q ≠ .putCas c p idx) : ReachInv sh (s.goto t q) :=
  h.goto fun c p idx hor => hor.elim (fun he => absurd he (hq c p idx).1)
    fun he => absurd he (hq c p idx).2

theorem ReachInv.ret (h : ReachInv sh s) {t : T} {c : Caller} {p : Option K} {r : UInt32} {v : Bool} :
    ReachInv sh (s.ret t c p r v) :=
  { h.leave (t := t) (q := .idle) (fun _ _ _ => ⟨nofun, nofun⟩) with }

theorem ReachInv.enter (h : ReachInv sh s) {t : T} {c : Caller} {p : Option K} {idx : ℕ}
    (hp : Passed sh.capacity (sh.start p) (fun x => s.table.ptr x ≠ none) idx) :
    ReachInv sh (s.goto t (.putPtr c p idx)) := by
  refine h.goto ?_
  rintro c' p' idx' (he | he) <;> cases he
  exact hp

theorem ReachInv.afterGet (h : ReachInv sh s) {t : T} {c : Caller} {p : Option K} {r : UInt32} :
    ReachInv sh (s.afterGet sh t c p r) := by
  rcases afterGet_cases sh s t c p r with ⟨he, -⟩ | he
  · rw [he]; exact h.ret
  · rw [he]; exact h.enter (passed_start (sh.start_lt p))

theorem ReachInv.afterPut (h : ReachInv sh s) {t : T} {c : Caller} {p : Option K} {r : UInt32} :
    ReachInv sh (s.afterPut t c p r) := by
  rcases afterPut_cases s t c p r with ⟨he, -⟩ | ⟨he, -⟩ | ⟨he, -⟩
  · rw [he]; exact h.ret
  · rw [he]; exact h.leave fun _ _ _ => ⟨nofun, nofun⟩
  · rw [he]; exact h.ret

/-- `Put` goes on from a taken slot. -/
theorem ReachInv.nextStep (h : ReachInv sh s) {t : T} {c : Caller} {p : Option K} {idx : ℕ}
    (hp : Passed sh.capacity (sh.start p) (fun x => s.table.ptr x ≠ none) idx)
    (ht : s.table.ptr idx ≠ none) : ReachInv sh (s.nextStep sh t c p idx) := by
  rcases nextStep_cases sh s t c p idx with ⟨idx', hn, he⟩ | ⟨-, he⟩
  · rw [he]
    obtain ⟨rfl, hne⟩ := sh.next_some hn
    exact h.enter (hp.next (sh.start_lt p) ht hne)
  · rw [he]; exact h.ret

theorem ReachInv.claim (h : ReachInv sh s) {t : T} {c : Caller} {p : Option K} {idx : ℕ}
    (ht : s.thread t = .putCas c p idx) (hf : s.table.ptr idx = none) :
    ReachInv sh { s.goto t (.putDraw c p idx) with
      table := { s.table with ptr := Function.update s.table.ptr idx p } } := by
  have hkeep : ∀ x, s.table.ptr x ≠ none → Function.update s.table.ptr idx p x ≠ none := by
    intro x hx
    rwa [Function.update_of_ne (by rintro rfl; exact hx hf)]
  have hgo : ReachInv sh (s.goto t (.putDraw c p idx)) := h.leave fun _ _ _ => ⟨nofun, nofun⟩
  refine ⟨?_, fun u c' q j hu => (hgo.probes u c' q j hu).mono hkeep⟩
  intro x k hk
  by_cases hx : x = idx
  · subst hx
    simp only [Function.update_self] at hk
    subst hk
    exact (h.probes t c _ x (Or.inr ht)).mono hkeep
  · simp only [Function.update_of_ne hx] at hk
    exact (h.entries x k hk).mono hkeep

/-- STEP: every transition with an exact CAS passes taken slots only. -/
theorem reachInv_moves {a : Action T K} (h : ReachInv sh s) (ha : a.exact = true)
    (hm : Moves sh s a s') : ReachInv sh s' := by
  cases hm with
  | call ht => exact h.leave fun _ _ _ => ⟨nofun, nofun⟩
  | callPut ht => exact h.enter (passed_start (sh.start_lt _))
  | hit ht hp => exact h.leave fun _ _ _ => ⟨nofun, nofun⟩
  | probe ht hn => exact h.leave fun _ _ _ => ⟨nofun, nofun⟩
  | miss ht => exact h.afterGet
  | load ht => exact h.afterGet
  | found ht hp => exact h.afterPut
  | @free t c p idx ht hp hf =>
    refine h.goto ?_
    rintro c' p' idx' (he | he) <;> cases he
    exact h.probes t c p idx (Or.inl ht)
  | @taken t c p idx ht hp hf => exact h.nextStep (h.probes t c p idx (Or.inl ht)) hf
  | claim ht hf => exact h.claim ht hf
  | @lose _ t c p idx ht hor =>
    rcases hor with rfl | ⟨-, hf⟩
    · cases ha
    · exact h.nextStep (h.probes t c p idx (Or.inr ht)) hf
  | @draw t c p idx ht =>
    have hgo : ReachInv sh (s.goto t (.putStore c p idx s.table.nextIndex)) :=
      h.leave fun _ _ _ => ⟨nofun, nofun⟩
    exact { hgo with }
  | @store t c p idx i ht =>
    exact ReachInv.afterPut (s := { s with
      table := { s.table with value := Function.update s.table.value idx i } }) { h with }
  | @enqueue t p r ht =>
    have hret : ReachInv sh (s.ret t .map p r true) := h.ret
    exact { hret with }

/-! ### Gets that find -/

/-- STEP: a taken slot stays as it is. -/
theorem ptr_moves {a : Action T K} (hm : Moves sh s a s') {idx : ℕ} (hne : s.table.ptr idx ≠ none) :
    s'.table.ptr idx = s.table.ptr idx := by
  cases hm with
  | @claim t c p x ht hf => exact Function.update_of_ne (by rintro rfl; exact hne hf) ..
  | @miss t c p x ht => rcases afterGet_cases sh s t c p noRef with ⟨he, -⟩ | he <;> rw [he] <;> rfl
  | @load t c p x ht =>
    rcases afterGet_cases sh s t c p (UInt32.ofNat (s.table.value x)) with ⟨he, -⟩ | he <;>
      rw [he] <;> rfl
  | @found t c p x ht => rw [afterPut_noRef]; rfl
  | @taken t c p x ht =>
    rcases nextStep_cases sh s t c p x with ⟨_, -, he⟩ | ⟨-, he⟩ <;> rw [he] <;> rfl
  | @lose _ t c p x ht =>
    rcases nextStep_cases sh s t c p x with ⟨_, -, he⟩ | ⟨-, he⟩ <;> rw [he] <;> rfl
  | @store t c p x i ht =>
    rcases afterPut_cases { s with table := { s.table with
        value := Function.update s.table.value x i } } t c p (UInt32.ofNat i) with
      ⟨he, -⟩ | ⟨he, -⟩ | ⟨he, -⟩ <;> rw [he] <;> rfl
  | _ => rfl

variable {n : ℕ} {t : T} {k : K}

omit [DecidableEq T] in
/-- The table changes, but no taken slot of it. -/
theorem FindInv.mono (h : FindInv sh s n t k) {tbl : Table K}
    (hptr : ∀ idx, s.table.ptr idx ≠ none → tbl.ptr idx = s.table.ptr idx) :
    FindInv sh { s with table := tbl } n t k := by
  obtain ⟨x, hx⟩ := h.present
  refine ⟨⟨h.getsFind.running, h.getsFind.returned⟩, h.length_le, ⟨x, ?_⟩, ?_⟩
  · rw [hptr x (by rw [hx]; exact Option.some_ne_none k), hx]
  · intro c idx ht
    obtain ⟨j, hj, hahead⟩ := h.looking c idx ht
    exact ⟨j, by rw [hptr j (by rw [hj]; exact Option.some_ne_none k), hj], hahead⟩

theorem FindInv.goto (h : FindInv sh s n t k) {u : T} {q : Prober K}
    (hq : u = t → ¬ q.missed k ∧ ∀ c idx, q = .getPtr c (some k) idx →
      ∃ j, s.table.ptr j = some k ∧ Ahead sh.capacity (sh.start (some k)) idx j) :
    FindInv sh (s.goto u q) n t k := by
  by_cases htu : t = u
  · subst htu
    obtain ⟨hmiss, hlook⟩ := hq rfl
    refine ⟨⟨by rw [goto_self]; exact hmiss, h.getsFind.returned⟩, h.length_le, h.present, ?_⟩
    intro c idx ht
    rw [goto_self] at ht
    exact hlook c idx ht
  · refine ⟨⟨by rw [goto_other q htu]; exact h.getsFind.running, h.getsFind.returned⟩, h.length_le,
      h.present, ?_⟩
    intro c idx ht
    rw [goto_other q htu] at ht
    exact h.looking c idx ht

/-- A thread that goes on in `Put`, or leaves it, having missed nothing. -/
theorem FindInv.goOn (h : FindInv sh s n t k) {u : T} {q : Prober K}
    (hmiss : q.missed k → (s.thread u).missed k) (hq : ∀ c idx, q ≠ .getPtr c (some k) idx) :
    FindInv sh (s.goto u q) n t k := by
  refine h.goto ?_
  rintro rfl
  exact ⟨fun hm => h.getsFind.running (hmiss hm), fun c idx he => absurd he (hq c idx)⟩

theorem FindInv.ret (h : FindInv sh s n t k) {u : T} {c : Caller} {p : Option K} {r : UInt32}
    {v : Bool} (hr : u = t → p = some k →
      (c = .map → v = false) ∧ (v = false → isIndex r = true)) :
    FindInv sh (s.ret u c p r v) n t k := by
  have hgo : FindInv sh (s.goto u .idle) n t k := h.goOn (fun hm => hm.elim) fun _ _ hq => by cases hq
  refine ⟨⟨hgo.getsFind.running, ?_⟩, ?_, hgo.present, hgo.looking⟩
  · intro x hx hxt hxp
    have hx' : x ∈ s.returned.drop n ++ [⟨u, c, p, r, v, s.table⟩] := by
      rw [← List.drop_append_of_le_length h.length_le]
      exact hx
    rcases List.mem_append.mp hx' with hx' | hx'
    · exact h.getsFind.returned x hx' hxt hxp
    · rw [List.mem_singleton] at hx'
      subst hx'
      exact hr hxt hxp
  · have hle := h.length_le
    simp only [State.ret, List.length_append]
    omega

/-- A `Get` of another string, or of another thread, goes its way. -/
theorem FindInv.afterGet (h : FindInv sh s n t k) {u : T} {c : Caller} {p : Option K} {r : UInt32}
    (hr : u = t → p = some k → isIndex r = true) : FindInv sh (s.afterGet sh u c p r) n t k := by
  rcases afterGet_cases sh s u c p r with ⟨he, -⟩ | he
  · rw [he]
    exact h.ret fun hu hp => ⟨fun _ => rfl, fun _ => hr hu hp⟩
  · by_cases hmine : u = t ∧ p = some k
    · have hidx := hr hmine.1 hmine.2
      have hret : s.afterGet sh u c p r = s.ret u c p r false := by
        cases c with
        | direct => rfl
        | map => simp only [State.afterGet, hidx, if_true]
      rw [hret]
      exact h.ret fun _ _ => ⟨fun _ => rfl, fun _ => hidx⟩
    · rw [he]
      refine h.goto ?_
      rintro rfl
      exact ⟨fun hp => hmine ⟨rfl, hp⟩, fun c' idx hq => by cases hq⟩

/-- A `Put` that ends without an index. -/
theorem FindInv.retPut (h : FindInv sh s n t k) {u : T} {c : Caller} {p : Option K} {r : UInt32}
    (hmap : c = .map → p = some k → (s.thread u).missed k) : FindInv sh (s.ret u c p r true) n t k := by
  refine h.ret ?_
  rintro rfl rfl
  refine ⟨fun hc => absurd (hmap hc rfl) h.getsFind.running, nofun⟩

theorem FindInv.nextStep (h : FindInv sh s n t k) {u : T} {c : Caller} {p : Option K} {idx : ℕ}
    (hmap : c = .map → p = some k → (s.thread u).missed k) :
    FindInv sh (s.nextStep sh u c p idx) n t k := by
  rcases nextStep_cases sh s u c p idx with ⟨idx', -, he⟩ | ⟨-, he⟩
  · rw [he]
    refine h.goOn ?_ fun _ _ hq => by cases hq
    intro hm
    cases c with
    | direct => exact hm.elim
    | map => exact hmap rfl hm
  · rw [he]
    exact h.retPut hmap

variable [DecidableEq K]

/-- INVERSION: the steps of `Get` in its loop, with what they have seen. -/
theorem go_getPtr {c : Caller} {p : Option K} {idx : ℕ} (ht : s.thread t = .getPtr c p idx)
    (hs : go sh s t = some s') :
    (s.table.ptr idx = p ∧ s' = s.goto t (.getValue c p idx)) ∨
    (s.table.ptr idx ≠ p ∧ s.table.ptr idx ≠ none ∧
      ∃ idx', sh.next p idx = some idx' ∧ s' = s.goto t (.getPtr c p idx')) ∨
    (s.table.ptr idx ≠ p ∧ (s.table.ptr idx = none ∨ sh.next p idx = none)) := by
  simp only [go, ht] at hs
  split at hs
  · rename_i hp
    exact Or.inl ⟨hp, (Option.some.inj hs).symm⟩
  · rename_i hp
    split at hs
    · rename_i hf
      exact Or.inr (Or.inr ⟨hp, Or.inl hf⟩)
    · rename_i hf
      split at hs
      · rename_i idx' hn
        exact Or.inr (Or.inl ⟨hp, hf, idx', hn, (Option.some.inj hs).symm⟩)
      · rename_i hn
        exact Or.inr (Or.inr ⟨hp, Or.inr hn⟩)

/-- A `Get` that is not past the string goes on towards it. -/
theorem FindInv.look (h : FindInv sh s n t k) (hreach : ReachInv sh s) {c : Caller} {idx : ℕ}
    (ht : s.thread t = .getPtr c (some k) idx) (hs : go sh s t = some s') :
    FindInv sh s' n t k := by
  obtain ⟨j, hj, hahead⟩ := h.looking c idx ht
  rcases go_getPtr ht hs with ⟨-, rfl⟩ | ⟨hp, -, idx', hn, rfl⟩ | ⟨hp, hor⟩
  · exact h.goOn (fun hm => hm.elim) fun _ _ hq => by cases hq
  · have hne : idx ≠ j := by rintro rfl; exact hp hj
    obtain ⟨rfl, -⟩ := sh.next_some hn
    refine h.goto ?_
    rintro -
    refine ⟨fun hm => hm.elim, ?_⟩
    rintro c' i he
    cases he
    exact ⟨j, hj, (hahead.next (sh.start_lt _) hne).2⟩
  · have hne : idx ≠ j := by rintro rfl; exact hp hj
    rcases hor with hf | hn
    · exact absurd hf (hahead.passed (hreach.entries j k hj) hne)
    · exact absurd (sh.next_none hn) (hahead.next (sh.start_lt _) hne).1

omit [DecidableEq T] [DecidableEq K] in
/-- What `Get` loads from a slot with a key is an index, stored or not. -/
theorem EntryInv.load_isIndex (he : EntryInv sh s) {idx : ℕ} {k : K} (hk : s.table.ptr idx = some k) :
    isIndex (UInt32.ofNat (s.table.value idx)) = true := by
  rcases he.entry idx k hk with hd | ⟨-, hz⟩
  · exact isIndex_ofNat (he.index_lt hd)
  · rw [hz]
    rfl

/-- STEP: every step keeps the `Get`s finding. -/
theorem findInv_step {a : Action T K} (h : FindInv sh s n t k) (he : EntryInv sh s)
    (hreach : ReachInv sh s) (hs : step sh s a = some s') : FindInv sh s' n t k := by
  by_cases hlook : a = .go t ∧ ∃ c idx, s.thread t = .getPtr c (some k) idx
  · obtain ⟨rfl, c, idx, ht⟩ := hlook
    exact h.look hreach ht hs
  have hm := step_moves hs
  cases hm with
  | @call _ u c p hu =>
    refine h.goto ?_
    rintro -
    refine ⟨fun hm => hm.elim, ?_⟩
    rintro c' idx hq
    cases hq
    obtain ⟨j, hj⟩ := h.present
    exact ⟨j, hj, ahead_start (sh.start_lt _) (hreach.entries j k hj)⟩
  | callPut hu => exact h.goOn (fun hm => hm.elim) fun _ _ hq => by cases hq
  | hit hu hp => exact h.goOn (fun hm => hm.elim) fun _ _ hq => by cases hq
  | @probe u c p idx idx' hu hn =>
    refine h.goto ?_
    rintro rfl
    refine ⟨fun hm => hm.elim, ?_⟩
    rintro c' i hq
    cases hq
    exact absurd ⟨rfl, c, idx, hu⟩ hlook
  | @miss u c p idx hu =>
    refine h.afterGet ?_
    rintro rfl rfl
    exact absurd ⟨rfl, c, idx, hu⟩ hlook
  | @load u c p idx hu =>
    refine h.afterGet ?_
    rintro rfl rfl
    have hok := he.threads u
    rw [hu] at hok
    exact he.load_isIndex (hok k rfl)
  | found hu hp =>
    rw [afterPut_noRef]
    refine h.retPut ?_
    rintro rfl rfl
    rw [hu]
    rfl
  | @free u c p idx hu hp hf =>
    refine h.goOn ?_ fun _ _ hq => by cases hq
    rw [hu]
    cases c <;> exact id
  | taken hu hp hf =>
    refine h.nextStep ?_
    rintro rfl rfl
    rw [hu]
    rfl
  | @claim u c p idx hu hf =>
    have hgo : FindInv sh (s.goto u (.putDraw c p idx)) n t k := by
      refine h.goOn ?_ fun _ _ hq => by cases hq
      rw [hu]
      cases c <;> exact id
    refine hgo.mono ?_
    intro x hx
    exact Function.update_of_ne (by rintro rfl; exact hx hf) ..
  | lose hu hor =>
    refine h.nextStep ?_
    rintro rfl rfl
    rw [hu]
    rfl
  | @draw u c p idx hu =>
    have hgo : FindInv sh (s.goto u (.putStore c p idx s.table.nextIndex)) n t k := by
      refine h.goOn ?_ fun _ _ hq => by cases hq
      rw [hu]
      cases c <;> exact id
    have htbl : FindInv sh { s.goto u (.putStore c p idx s.table.nextIndex) with
        table := { s.table with nextIndex := s.table.nextIndex + 1 } } n t k :=
      hgo.mono fun _ _ => rfl
    exact { htbl with getsFind := { htbl.getsFind with } }
  | @store u c p idx i hu =>
    have hw : FindInv sh { s with
        table := { s.table with value := Function.update s.table.value idx i } } n t k :=
      h.mono fun _ _ => rfl
    cases c with
    | direct =>
      refine hw.retPut ?_
      rintro hc
      cases hc
    | map =>
      have hmissed : p = some k → (s.thread u).missed k := by
        rintro rfl
        rw [hu]
        rfl
      simp only [State.afterPut]
      split
      · exact hw.goOn hmissed fun _ _ hq => by cases hq
      · exact hw.retPut fun _ => hmissed
  | @enqueue u p r hu =>
    have hret : FindInv sh (s.ret u .map p r true) n t k := by
      refine h.retPut ?_
      rintro - rfl
      rw [hu]
      rfl
    exact { hret with getsFind := { hret.getsFind with } }

/-! ### Every run -/

omit [DecidableEq T] [DecidableEq K] in
theorem mem_claimed {idx : ℕ} :
    idx ∈ s.claimed sh ↔ idx < sh.capacity ∧ ∃ k, s.table.ptr idx = some k := by
  rw [State.claimed, Finset.mem_filter, Finset.mem_range, Option.isSome_iff_exists]

omit [DecidableEq T] [DecidableEq K] in
/-- The slots drawn for. -/
theorem EntryInv.drawn_subset (he : EntryInv sh s) :
    (s.drawn.map Prod.snd).toFinset ⊆ s.claimed sh := by
  intro idx hidx
  obtain ⟨x, hx, rfl⟩ := List.mem_map.mp (List.mem_toFinset.mp hidx)
  obtain ⟨hne, hkey⟩ := he.drawn_ok x hx
  obtain ⟨k, hk⟩ := Option.ne_none_iff_exists'.mp hne
  exact mem_claimed.mpr ⟨he.claimed x.2 k (hkey.trans hk), k, hkey.trans hk⟩

omit [DecidableEq T] [DecidableEq K] in
theorem EntryInv.drawn_card (he : EntryInv sh s) :
    (s.drawn.map Prod.snd).toFinset.card = s.table.nextIndex := by
  rw [List.toFinset_card_of_nodup he.drawn_nodup, List.length_map, he.nextIndex_eq]

omit [DecidableEq T] [DecidableEq K] in
/-- With no `Put` in progress every claimed slot has been drawn for and has its index. -/
theorem EntryInv.quiet (he : EntryInv sh s) (hquiet : ∀ t, ¬ (s.thread t).putting) {idx : ℕ} {k : K}
    (hk : s.table.ptr idx = some k) : s.drawn[s.table.value idx]? = some (some k, idx) := by
  rcases he.entry idx k hk with hd | ⟨⟨t, ht⟩, -⟩
  · exact hd
  · have hnot := hquiet t
    cases hpc : s.thread t with
    | putDraw c p j => rw [hpc] at hnot; exact absurd trivial hnot
    | putStore c p j i => rw [hpc] at hnot; exact absurd trivial hnot
    | _ => rw [hpc] at ht; cases ht

omit [DecidableEq T] [DecidableEq K] in
theorem EntryInv.slots (he : EntryInv sh s) (hquiet : ∀ t, ¬ (s.thread t).putting) :
    (s.claimed sh).card = s.table.nextIndex ∧
      ∀ i < s.table.nextIndex, ∃! idx, idx ∈ s.claimed sh ∧ s.table.value idx = i := by
  constructor
  · rw [← he.drawn_card]
    refine congrArg Finset.card (Finset.Subset.antisymm ?_ he.drawn_subset)
    intro idx hidx
    obtain ⟨-, k, hk⟩ := mem_claimed.mp hidx
    exact List.mem_toFinset.mpr
      (List.mem_map.mpr ⟨_, List.mem_of_getElem? (he.quiet hquiet hk), rfl⟩)
  · intro i hi
    rw [he.nextIndex_eq] at hi
    obtain ⟨⟨p, idx⟩, hx⟩ : ∃ x, s.drawn[i]? = some x := ⟨_, List.getElem?_eq_getElem hi⟩
    obtain ⟨hne, hkey⟩ := he.key hx
    obtain ⟨k, rfl⟩ := Option.ne_none_iff_exists'.mp hne
    refine ⟨idx, ⟨mem_claimed.mpr ⟨he.claimed idx k hkey, k, hkey⟩,
      he.draw_unique (he.quiet hquiet hkey) hx⟩, ?_⟩
    rintro idx' ⟨hidx', rfl⟩
    obtain ⟨-, k', hk'⟩ := mem_claimed.mp hidx'
    have hd := he.quiet hquiet hk'
    rw [hx, Option.some_inj, Prod.mk.injEq] at hd
    exact hd.2.symm

omit [DecidableEq T] [DecidableEq K] in
/-- With no `Put` in progress the answers are the indices drawn. -/
theorem PutInv.answers (h : PutInv s) (he : EntryInv sh s) (hquiet : ∀ t, ¬ (s.thread t).putting)
    (r : UInt32) : s.PutAnswers r ↔ ∃ i < s.table.nextIndex, r = UInt32.ofNat i := by
  rw [he.nextIndex_eq]
  constructor
  · rintro (hr | ⟨t, p, ht⟩)
    · obtain ⟨c, hc, rfl⟩ := List.mem_map.mp hr
      obtain ⟨hc, hput⟩ := List.mem_filter.mp hc
      obtain ⟨i, idx, hri, hi⟩ := h.issued c hc hput
      exact ⟨i, (List.getElem?_eq_some_iff.mp hi).1, hri⟩
    · have hok := he.threads t
      rw [ht] at hok
      obtain ⟨i, idx, hri, hi⟩ := hok
      exact ⟨i, (List.getElem?_eq_some_iff.mp hi).1, hri⟩
  · rintro ⟨i, hi, rfl⟩
    rcases h.covered i hi with hr | ⟨t, ht⟩
    · exact Or.inl hr
    · have hnot := hquiet t
      cases hpc : s.thread t with
      | putStore c p j i' => rw [hpc] at hnot; exact absurd trivial hnot
      | offer p r =>
        rw [hpc] at ht
        obtain rfl := Option.some.inj ht
        exact Or.inr ⟨t, p, hpc⟩
      | _ => rw [hpc] at ht; cases ht

omit [DecidableEq T] [DecidableEq K] in
theorem grown_of_inv (he : EntryInv sh s) (hq : QueueInv s) (h : PutInv s) : Grown sh s where
  claimed_lt := he.claimed
  nextIndex_le := by
    rw [← he.drawn_card]
    exact Finset.card_le_card he.drawn_subset
  claimed_le := (Finset.card_filter_le _ _).trans (le_of_eq (Finset.card_range _))
  answered_nodup := h.answered_nodup
  offered_fresh := fun t p r ht => h.held_fresh t r (by rw [ht]; rfl)
  offered_once := fun t u p q r ht hu => hq.held_once t u r (by rw [ht]; rfl) (by rw [hu]; rfl)
  queued_nodup := hq.refs_nodup
  answers := h.answers he
  slots := he.slots

/-- INVARIANT: all of the above. -/
structure GrowthInv (sh : Shape K) (s : State T K) : Prop where
  entry : EntryInv sh s
  freeZero : FreeZero s
  queue : QueueInv s
  put : PutInv s
  reach : ReachInv sh s

theorem growthInv_step {a : Action T K} (h : GrowthInv sh s) (ha : a.exact = true)
    (hs : step sh s a = some s') : GrowthInv sh s' := by
  have hm := step_moves hs
  obtain ⟨he', hz'⟩ := entryInv_moves h.entry h.freeZero hm
  exact ⟨he', hz', queueInv_moves h.queue h.entry he' hm, putInv_moves h.put h.queue h.entry he' hm,
    reachInv_moves h.reach ha hm⟩

/-- RUN: the invariant along the runs with an exact CAS. -/
theorem growthInv_run {as : List (Action T K)} (has : ∀ a ∈ as, a.exact = true)
    (hr : run (step sh) State.new as = some s) : GrowthInv sh s :=
  run_inv (I := GrowthInv sh) (fun _ _ _ h ha hs => growthInv_step h ha hs) as
    (meets_of_forall has _) ⟨entryInv_new, fun _ _ => rfl, queueInv_new, putInv_new, reachInv_new⟩ hr

/-- RUN: from where a string is in the table on, the `Get`s of an idle thread find it. -/
theorem findInv_run {as : List (Action T K)} (has : ∀ a ∈ as, a.exact = true) (hg : GrowthInv sh s)
    (h : FindInv sh s n t k) (hr : run (step sh) s as = some s') : FindInv sh s' n t k := by
  have hinv : GrowthInv sh s' ∧ FindInv sh s' n t k := by
    refine run_inv (I := fun s => GrowthInv sh s ∧ FindInv sh s n t k) ?_ as (meets_of_forall has _)
      ⟨hg, h⟩ hr
    rintro s a u ⟨hg, h⟩ ha hs
    exact ⟨growthInv_step hg ha hs, findInv_step h hg.entry hg.reach hs⟩
  exact hinv.2

omit [DecidableEq T] [DecidableEq K] in
/-- A string whose `Put` has answered an index is in the table. -/
theorem GrowthInv.present (h : GrowthInv sh s) (hput : (∃ c ∈ s.returned, c.ptr = some k ∧
    c.put = true) ∨ ∃ u r, s.thread u = .offer (some k) r) : ∃ idx, s.table.ptr idx = some k := by
  have hissued : ∃ r, Issued s.drawn (some k) r := by
    rcases hput with ⟨c, hc, hp, hput⟩ | ⟨u, r, hu⟩
    · have hi := h.put.issued c hc hput
      rw [hp] at hi
      exact ⟨c.ref, hi⟩
    · have hok := h.entry.threads u
      rw [hu] at hok
      exact ⟨r, hok⟩
  obtain ⟨r, i, idx, -, hi⟩ := hissued
  exact ⟨idx, (h.entry.key hi).2⟩

omit [DecidableEq T] [DecidableEq K] in
theorem findInv_idle (ht : s.thread t = .idle) (hk : ∃ idx, s.table.ptr idx = some k) :
    FindInv sh s s.returned.length t k := by
  refine ⟨⟨by rw [ht]; exact id, ?_⟩, le_refl _, hk, ?_⟩
  · intro c hc
    rw [List.drop_length] at hc
    cases hc
  · intro c idx hget
    rw [ht] at hget
    cases hget

/-- CORRECT: in every run with an exact CAS the table grows soundly; a claimed slot keeps its key; and
    a string whose `Put` has answered an index is found by every `Get` that starts later. -/
theorem grown_run {as as' : List (Action T K)} (has : ∀ a ∈ as ++ as', a.exact = true)
    (hr : run (step sh) State.new as = some s) (hr' : run (step sh) s as' = some s') :
    Grown sh s' ∧ (∀ idx k, s.table.ptr idx = some k → s'.table.ptr idx = some k) ∧
      ∀ t k, s.thread t = .idle → ((∃ c ∈ s.returned, c.ptr = some k ∧ c.put = true) ∨
        ∃ u r, s.thread u = .offer (some k) r) → GetsFind s' s.returned.length t k := by
  have hleft : ∀ a ∈ as, a.exact = true := fun a ha => has a (List.mem_append_left _ ha)
  have hright : ∀ a ∈ as', a.exact = true := fun a ha => has a (List.mem_append_right _ ha)
  have hs := growthInv_run hleft hr
  have hall : run (step sh) State.new (as ++ as') = some s' := by
    rw [run_append, hr]
    exact hr'
  have hs' := growthInv_run has hall
  refine ⟨grown_of_inv hs'.entry hs'.queue hs'.put, ?_, ?_⟩
  · intro idx k hk
    refine run_inv (I := fun u => u.table.ptr idx = some k) ?_ as' (meets_true _ _) hk hr'
    rintro u a v hu - hst
    rw [ptr_moves (step_moves hst) (by rw [hu]; exact Option.some_ne_none k), hu]
  · intro t k ht hput
    exact (findInv_run hright hs (findInv_idle ht (hs.present hput)) hr').getsFind

/-- A thread looks up the second name of `mapTwo` while another maps the first one again. -/
def lookUpB {T : Type} (t u : T) : List (Action T Addr) :=
  [.get t (some nameB), .mapStringToReference u (some nameA), .go t, .go u, .go u, .go t]

theorem grown_run_mapTwo : ∃ s s' : State (Fin 3) Addr,
    run (step espStrings) State.new mapTwo = some s ∧ run (step espStrings) s (lookUpB 0 1) = some s' ∧
      s'.returned.map (fun c => (c.thread, c.ref)) = [(2, 0), (1, 0), (0, 1), (1, 1), (0, 0)] ∧
      Grown espStrings s' ∧ GetsFind s' 3 0 nameB := by
  refine ⟨_, _, rfl, rfl, rfl, ?_⟩
  have hrun := @grown_run (Fin 3) Addr espStrings _ _ _ _ mapTwo (lookUpB 0 1) (by decide) rfl rfl
  exact ⟨hrun.1, hrun.2.2 0 nameB rfl (Or.inl (by decide))⟩

end Esp.HashThreads
