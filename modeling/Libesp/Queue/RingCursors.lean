import Libesp.Queue.RingThreads

/-! @esp queue | name:LocklessRingQueue | scheme:invariant | source:src/queue/lockless_ring.h

    What the three cursors satisfy in every run of the threads, whatever their interleaving:

        0 ≤ back ≤ readfront ≤ front < back + capacity

    A producer decides on a copy of `front` that may be stale and a `back` read later; its decision
    counts only if its CAS still finds that `front`, and then `back` has at most grown. The counters
    are tied to the history: `front` counts the claims, `readfront` the publications, `back` the
    values handed out. -/

namespace Esp.RingThreads
open Cursor Memory LocklessRing Machine

variable {P α : Type} (cap : ℕ)

/-- What a producer's locals say about the shared cursors. -/
def ProducerOk (r : RingQueue α) (published : List ℤ) : Producer α → Prop
  | .idle | .enter _ => True
  | .loaded _ f => 0 ≤ f ∧ f ≤ r.front
  | .passed _ f =>
    0 ≤ f ∧ f ≤ r.front ∧ (f = r.front → f < 2147483647 → f + 1 < r.back + cap)
  | .claimed _ f | .filled f => 0 ≤ f ∧ f < r.front ∧ f ∉ published

/-- What the consumer's locals say about the shared cursors. -/
def ConsumerOk (r : RingQueue α) : Consumer α → Prop
  | .idle | .enter | .enterBulk _ => True
  | .loaded f => r.back ≤ f ∧ f ≤ r.readfront
  | .passed b | .copied b _ => b = r.back ∧ r.back < r.readfront
  | .loadedBulk f _ => ∃ rf, r.back ≤ rf ∧ rf ≤ r.readfront ∧ f = modcap cap rf
  | .passedBulk b k =>
    b = modcap cap r.back ∧ 0 ≤ k ∧ r.back + k ≤ r.readfront ∧ b + k ≤ cap
  | .copiedBulk k vs => r.back + k ≤ r.readfront ∧ (vs.length : ℤ) = k

/-- INVARIANT: the cursors, the history that counts them and every thread's locals. -/
structure CursorInv (s : State P α) : Prop where
  front_eq : s.ring.front = s.claims.length
  readfront_eq : s.ring.readfront = s.published.length
  back_eq : s.ring.back = s.out.length
  back_le : s.ring.back ≤ s.ring.readfront
  window : s.ring.front < s.ring.back + cap
  published_nodup : s.published.Nodup
  published_lt : ∀ f ∈ s.published, 0 ≤ f ∧ f < s.ring.front
  producers : ∀ p, ProducerOk cap s.ring s.published (s.producer p)
  tickets : ∀ p q f, (s.producer p).ticket = some f → (s.producer q).ticket = some f → p = q
  inflight : ∀ f, 0 ≤ f → f < s.ring.front →
    f ∈ s.published ∨ ∃ p, (s.producer p).ticket = some f
  consumer : ConsumerOk cap s.ring s.consumer

variable {cap}

/-- A list of distinct integers of `[0, n)` has at most `n` entries. -/
theorem length_le_of_nodup {l : List ℤ} {n : ℤ} (hd : l.Nodup) (h : ∀ x ∈ l, 0 ≤ x ∧ x < n)
    (hn : 0 ≤ n) : (l.length : ℤ) ≤ n := by
  have hsub : l.toFinset ⊆ Finset.Ico 0 n := by
    intro x hx
    rw [List.mem_toFinset] at hx
    exact Finset.mem_Ico.mpr (h x hx)
  have hcard := Finset.card_le_card hsub
  rw [List.toFinset_card_of_nodup hd, Int.card_Ico] at hcard
  omega

theorem CursorInv.back_nonneg {s : State P α} (h : CursorInv cap s) : 0 ≤ s.ring.back := by
  rw [h.back_eq]; omega

theorem CursorInv.readfront_le {s : State P α} (h : CursorInv cap s) :
    s.ring.readfront ≤ s.ring.front := by
  rw [h.readfront_eq]
  exact length_le_of_nodup h.published_nodup h.published_lt (by rw [h.front_eq]; omega)

theorem CursorInv.ticket_ok {s : State P α} (h : CursorInv cap s) {p : P} {f : ℤ}
    (hp : (s.producer p).ticket = some f) : 0 ≤ f ∧ f < s.ring.front ∧ f ∉ s.published := by
  have hok := h.producers p
  cases hpc : s.producer p with
  | claimed v g => rw [hpc] at hok hp; cases hp; exact hok
  | filled g => rw [hpc] at hok hp; cases hp; exact hok
  | _ => rw [hpc] at hp; cases hp

/-! ### What a growing cursor leaves true -/

/-- A producer's locals stay sound when `front` and `back` grow and no ticket of it is published. -/
theorem ProducerOk.mono {r r' : RingQueue α} {pub pub' : List ℤ} {pc : Producer α}
    (h : ProducerOk cap r pub pc) (hf : r.front ≤ r'.front) (hb : r.back ≤ r'.back)
    (hpub : ∀ f, pc.ticket = some f → f ∉ pub → f ∉ pub') : ProducerOk cap r' pub' pc := by
  cases pc with
  | idle => trivial
  | enter v => trivial
  | loaded v f => exact ⟨h.1, le_trans h.2 hf⟩
  | passed v f =>
    obtain ⟨h0, h1, h2⟩ := h
    refine ⟨h0, le_trans h1 hf, ?_⟩
    intro he hlt
    have := h2 (by omega) hlt
    omega
  | claimed v f => exact ⟨h.1, lt_of_lt_of_le h.2.1 hf, hpub f rfl h.2.2⟩
  | filled f => exact ⟨h.1, lt_of_lt_of_le h.2.1 hf, hpub f rfl h.2.2⟩

/-- The consumer's locals stay sound while producers move: `back` is the consumer's own. -/
theorem ConsumerOk.mono {r r' : RingQueue α} {c : Consumer α} (h : ConsumerOk cap r c)
    (hb : r'.back = r.back) (hr : r.readfront ≤ r'.readfront) : ConsumerOk cap r' c := by
  cases c with
  | idle => trivial
  | enter => trivial
  | enterBulk m => trivial
  | loaded f => exact ⟨hb ▸ h.1, le_trans h.2 hr⟩
  | passed b => exact ⟨hb ▸ h.1, by rw [hb]; exact lt_of_lt_of_le h.2 hr⟩
  | copied b v => exact ⟨hb ▸ h.1, by rw [hb]; exact lt_of_lt_of_le h.2 hr⟩
  | loadedBulk f m =>
    obtain ⟨rf, h1, h2, h3⟩ := h
    exact ⟨rf, hb ▸ h1, le_trans h2 hr, h3⟩
  | passedBulk b k => exact ⟨hb ▸ h.1, h.2.1, by rw [hb]; exact le_trans h.2.2.1 hr, h.2.2.2⟩
  | copiedBulk k vs => exact ⟨by rw [hb]; exact le_trans h.1 hr, h.2⟩

/-! ### The consumer's steps -/

/-- A consumer that moves without touching the ring keeps the invariant if its new locals do. -/
theorem CursorInv.consumer_goto {s : State P α} (h : CursorInv cap s) {c : Consumer α}
    (hc : ConsumerOk cap s.ring c) : CursorInv cap { s with consumer := c } :=
  { h with consumer := hc }

/-- The consumer gives up the entries it has copied: `back` grows, but not past `readfront`. -/
theorem CursorInv.advance {s : State P α} (vs : List α) (h : CursorInv cap s)
    (hk : s.ring.back + vs.length ≤ s.ring.readfront) (hN : s.claims.length < 2147483648) :
    CursorInv cap { s with
      consumer := .idle
      ring := { s.ring with back := wrap32 (s.ring.back + vs.length) }
      out := s.out ++ vs } := by
  have hb := h.back_nonneg
  have hrf := h.readfront_le
  have hfront := h.front_eq
  have hw : wrap32 (s.ring.back + vs.length) = s.ring.back + vs.length :=
    wrap32_of_range (by omega) (by omega)
  rw [hw]
  refine { h with back_eq := ?_, back_le := hk, window := ?_, producers := ?_, consumer := trivial }
  · have := h.back_eq
    simp only [List.length_append, Nat.cast_add]
    omega
  · have := h.window
    simp only
    omega
  · intro q
    exact (h.producers q).mono (le_refl _) (by simp only; omega) fun _ _ hn => hn

theorem CursorInv.acceptBulk {s : State P α} {f : ℤ} {maxOut : ℕ} (h : CursorInv cap s)
    (hc : s.consumer = .loadedBulk f maxOut) (hne : f ≠ modcap cap s.ring.back) :
    ConsumerOk cap s.ring (.passedBulk (modcap cap s.ring.back)
      (blockCopySize cap f (modcap cap s.ring.back) maxOut)) := by
  have hok := h.consumer
  rw [hc] at hok
  obtain ⟨rf, h1, h2, rfl⟩ := hok
  have hlt : s.ring.back < rf := lt_of_le_of_ne h1 (by rintro rfl; exact hne rfl)
  have hwin := h.window
  have hrf := h.readfront_le
  have hk : blockCopySize cap (modcap cap rf) (modcap cap s.ring.back) maxOut = _ :=
    blockCopySize_eq h.back_nonneg hlt (by omega) maxOut
  rw [hk]
  have hbc : modcap cap s.ring.back < cap := tmod_lt h.back_nonneg (by omega)
  refine ⟨rfl, ?_, ?_, ?_⟩ <;> omega

theorem cursorInv_noteFull {s : State P α} (h : CursorInv cap s) : CursorInv cap (s.noteFull cap) :=
  { h with }

theorem cursorInv_new (hcap : 0 < cap) (junk : ℤ → α) : CursorInv cap (State.new junk : State P α) where
  front_eq := rfl
  readfront_eq := rfl
  back_eq := rfl
  back_le := le_refl _
  window := by simp [State.new, RingQueue.new, hcap]
  published_nodup := List.nodup_nil
  published_lt := fun _ h => absurd h (by simp [State.new])
  producers := fun _ => trivial
  tickets := fun _ _ _ h => absurd h (by simp [State.new, Producer.ticket])
  inflight := fun f h0 h1 => absurd h1 (by simp only [State.new, RingQueue.new]; omega)
  consumer := trivial

/-! ### The producers' steps -/

variable [DecidableEq P]

theorem producers_goto {Ok : Producer α → Prop} {s : State P α} {p : P} {pc : Producer α}
    (h : ∀ q, Ok (s.producer q)) (hpc : Ok pc) (q : P) : Ok ((s.goto p pc).producer q) := by
  by_cases hq : q = p
  · subst hq; simpa [State.goto] using hpc
  · simpa [State.goto, hq] using h q

/-- A producer that holds no ticket before and after its move leaves the tickets as they were. -/
theorem tickets_goto {s : State P α} {p : P} {pc : Producer α} {f : ℤ}
    (h : pc.ticket = (s.producer p).ticket) (q : P) :
    ((s.goto p pc).producer q).ticket = some f ↔ (s.producer q).ticket = some f := by
  by_cases hq : q = p
  · subst hq; simp [State.goto, h]
  · simp [State.goto, hq]

/-- A producer that moves without touching the ring keeps the invariant if its new locals do. -/
theorem CursorInv.goto {s : State P α} (h : CursorInv cap s) {p : P} {c : Producer α}
    (hpc : ProducerOk cap s.ring s.published c) (ht : c.ticket = (s.producer p).ticket) :
    CursorInv cap (s.goto p c) where
  front_eq := h.front_eq
  readfront_eq := h.readfront_eq
  back_eq := h.back_eq
  back_le := h.back_le
  window := h.window
  published_nodup := h.published_nodup
  published_lt := h.published_lt
  producers := producers_goto h.producers hpc
  tickets q q' f hq hq' :=
    h.tickets q q' f ((tickets_goto ht q).mp hq) ((tickets_goto ht q').mp hq')
  inflight f h0 h1 := (h.inflight f h0 h1).imp_right fun ⟨q, hq⟩ => ⟨q, (tickets_goto ht q).mpr hq⟩
  consumer := h.consumer

theorem CursorInv.claim {s : State P α} {p : P} {v : α} (h : CursorInv cap s)
    (hp : s.producer p = .passed v s.ring.front) (hN : s.claims.length + 1 < 2147483648) :
    CursorInv cap { s.goto p (.claimed v s.ring.front) with
      ring := { s.ring with front := wrap32 (s.ring.front + 1) }
      claims := s.claims ++ [v] } := by
  have hfront := h.front_eq
  have hok := h.producers p
  rw [hp] at hok
  have hroom := hok.2.2 rfl (by omega)
  have hw : wrap32 (s.ring.front + 1) = s.ring.front + 1 := wrap32_of_range (by omega) (by omega)
  rw [hw]
  have hnot : s.ring.front ∉ s.published := fun hm => lt_irrefl _ (h.published_lt _ hm).2
  refine { h with
    front_eq := ?_, window := hroom, published_lt := ?_, producers := ?_, tickets := ?_
    inflight := ?_, consumer := h.consumer.mono rfl (le_refl _) }
  · simp only [List.length_append, List.length_singleton, Nat.cast_add, Nat.cast_one]
    omega
  · intro f hf
    exact ⟨(h.published_lt f hf).1, lt_trans (h.published_lt f hf).2 (by simp only; omega)⟩
  · refine producers_goto (fun q => (h.producers q).mono ?_ (le_refl _) fun _ _ hn => hn) ?_
    · simp only; omega
    · exact ⟨by rw [hfront]; omega, by simp only; omega, hnot⟩
  · -- the new ticket is above every ticket held
    intro q q' f hq hq'
    by_cases hqp : q = p <;> by_cases hqp' : q' = p
    · rw [hqp, hqp']
    · subst hqp
      simp only [State.goto, Function.update_self, Producer.ticket, Option.some.injEq] at hq
      simp only [State.goto, Function.update_of_ne hqp'] at hq'
      have := (h.ticket_ok hq').2.1
      omega
    · subst hqp'
      simp only [State.goto, Function.update_self, Producer.ticket, Option.some.injEq] at hq'
      simp only [State.goto, Function.update_of_ne hqp] at hq
      have := (h.ticket_ok hq).2.1
      omega
    · simp only [State.goto, Function.update_of_ne hqp] at hq
      simp only [State.goto, Function.update_of_ne hqp'] at hq'
      exact h.tickets q q' f hq hq'
  · intro f h0 h1
    by_cases hlast : f = s.ring.front
    · exact Or.inr ⟨p, by simp [State.goto, Producer.ticket, hlast]⟩
    · simp only at h1
      rcases h.inflight f h0 (by omega) with hpub | ⟨q, hq⟩
      · exact Or.inl hpub
      · have hqp : q ≠ p := by
          rintro rfl
          rw [hp] at hq
          cases hq
        exact Or.inr ⟨q, by simpa [State.goto, hqp] using hq⟩

theorem CursorInv.publish {s : State P α} {p : P} {f : ℤ} (h : CursorInv cap s)
    (hp : s.producer p = .filled f) (hN : s.claims.length < 2147483648) :
    CursorInv cap { s.goto p .idle with
      ring := { s.ring with readfront := wrap32 (s.ring.readfront + 1) }
      published := s.published ++ [f] } := by
  have hticket : (s.producer p).ticket = some f := by rw [hp]; rfl
  obtain ⟨hf0, hf1, hfn⟩ := h.ticket_ok hticket
  have hread := h.readfront_eq
  have hfront := h.front_eq
  have hnodup : (s.published ++ [f]).Nodup := by
    rw [List.nodup_append]
    refine ⟨h.published_nodup, List.nodup_singleton f, ?_⟩
    rintro a ha b hb rfl
    rw [List.mem_singleton] at hb
    exact hfn (hb ▸ ha)
  have hlt : ∀ g ∈ s.published ++ [f], 0 ≤ g ∧ g < s.ring.front := by
    intro g hg
    rcases List.mem_append.mp hg with hg | hg
    · exact h.published_lt g hg
    · rw [List.mem_singleton] at hg
      exact hg ▸ ⟨hf0, hf1⟩
  have hle := length_le_of_nodup hnodup hlt (by omega)
  simp only [List.length_append, List.length_singleton, Nat.cast_add, Nat.cast_one] at hle
  have hw : wrap32 (s.ring.readfront + 1) = s.ring.readfront + 1 :=
    wrap32_of_range (by omega) (by omega)
  have hother : ∀ q g, q ≠ p → (s.producer q).ticket = some g → g ≠ f := by
    rintro q g hq hg rfl
    exact hq (h.tickets q p g hg hticket)
  rw [hw]
  refine { h with
    readfront_eq := ?_, back_le := ?_, published_nodup := hnodup, published_lt := hlt
    producers := ?_, tickets := ?_, inflight := ?_, consumer := h.consumer.mono rfl ?_ }
  · simp only [List.length_append, List.length_singleton, Nat.cast_add, Nat.cast_one]
    omega
  · have := h.back_le
    simp only
    omega
  · intro q
    by_cases hq : q = p
    · subst hq
      simp [State.goto, ProducerOk]
    · simp only [State.goto, Function.update_of_ne hq]
      refine (h.producers q).mono (le_refl _) (le_refl _) ?_
      intro g hg hn hm
      rcases List.mem_append.mp hm with hm | hm
      · exact hn hm
      · exact hother q g hq hg (List.mem_singleton.mp hm)
  · intro q q' g hq hq'
    have hqp : q ≠ p := by rintro rfl; simp [State.goto, Producer.ticket] at hq
    have hqp' : q' ≠ p := by rintro rfl; simp [State.goto, Producer.ticket] at hq'
    simp only [State.goto, Function.update_of_ne hqp] at hq
    simp only [State.goto, Function.update_of_ne hqp'] at hq'
    exact h.tickets q q' g hq hq'
  · intro g h0 h1
    rcases h.inflight g h0 h1 with hm | ⟨q, hq⟩
    · exact Or.inl (List.mem_append_left _ hm)
    · by_cases hqp : q = p
      · subst hqp
        rw [hticket, Option.some.injEq] at hq
        exact Or.inl (List.mem_append_right _ (by simp [hq]))
      · exact Or.inr ⟨q, by simpa [State.goto, hqp] using hq⟩
  · simp only; omega

/-! ### Every step and every run -/

/-- STEP: every transition keeps the cursor invariant while fewer than 2³¹ tickets are claimed. -/
theorem cursorInv_moves {s t : State P α} {a : Action P α} (h : CursorInv cap s)
    (hm : Moves cap s a t) (hN : t.claims.length < 2147483648) : CursorInv cap t := by
  cases hm with
  | @call p v hp =>
    have := h.goto (p := p) (c := .enter v) trivial (by rw [hp]; rfl)
    exact { this with }
  | @loadFront p v hp =>
    exact h.goto ⟨by rw [h.front_eq]; omega, le_refl _⟩ (by rw [hp]; rfl)
  | @refuse p v f hp hfull =>
    have := h.goto (p := p) (c := .idle) trivial (by rw [hp]; rfl)
    exact { this with }
  | @pass p v f hp hroom =>
    have hok := h.producers p
    rw [hp] at hok
    refine h.goto ⟨hok.1, hok.2, ?_⟩ (by rw [hp]; rfl)
    intro he hlt
    -- an up-to-date `front` that passed the test is not `capacity - 1` above `back`
    have hwin := h.window
    have hb := h.back_nonneg
    by_contra hge
    refine hroom (modcapEq_iff.mpr ?_)
    rw [wrap32_of_range (by omega) (by omega)]
    have hlap : f + 1 - s.ring.back = cap := by omega
    exact tmod_eq_of_dvd_sub (by omega) hb (hlap ▸ dvd_refl _)
  | claim hp => exact h.claim hp (by simpa using hN)
  | @retry _ p v f hp => exact h.goto ⟨by rw [h.front_eq]; omega, le_refl _⟩ (by rw [hp]; rfl)
  | @fill p v f hp =>
    have hok := h.producers p
    rw [hp] at hok
    have hg := h.goto (p := p) (c := .filled f) hok (by rw [hp]; rfl)
    refine { hg with producers := fun q => (hg.producers q).mono ?_ ?_ fun _ _ hn => hn
                     consumer := hg.consumer.mono rfl ?_ } <;> exact le_refl _
  | publish hp => exact h.publish hp hN
  | wait hc =>
    refine h.consumer_goto ?_
    rcases hc with rfl | rfl | ⟨m, rfl⟩ <;> trivial
  | loadReadfront hc => exact h.consumer_goto ⟨h.back_le, le_refl _⟩
  | @accept f hc hne =>
    have hok := h.consumer
    rw [hc] at hok
    refine h.consumer_goto ⟨rfl, lt_of_lt_of_le (lt_of_le_of_ne hok.1 ?_) hok.2⟩
    rintro rfl
    exact hne (modcapEq_iff.mpr rfl)
  | @copy b hc =>
    have hok := h.consumer
    rw [hc] at hok
    have := h.consumer_goto (c := .copied b (s.ring.buffer (modcap cap b))) hok
    exact { this with }
  | @advance b v hc =>
    have hok := h.consumer
    rw [hc] at hok
    obtain ⟨rfl, hlt⟩ := hok
    exact h.advance [v] (by simp only [List.length_singleton]; omega) hN
  | @loadReadfrontBulk m hc => exact h.consumer_goto ⟨_, h.back_le, le_refl _, rfl⟩
  | acceptBulk hc hne => exact h.consumer_goto (h.acceptBulk hc hne)
  | @copyBulk b k hc =>
    have hok := h.consumer
    rw [hc] at hok
    obtain ⟨_, hk0, hk, _⟩ := hok
    have := h.consumer_goto (c := .copiedBulk k (slice s.ring.buffer b k.toNat))
      ⟨hk, by rw [length_slice]; omega⟩
    exact { this with }
  | @advanceBulk k vs hc =>
    have hok := h.consumer
    rw [hc] at hok
    obtain ⟨hle, rfl⟩ := hok
    exact h.advance vs hle hN

theorem cursorInv_step {s t : State P α} {a : Action P α} (h : CursorInv cap s)
    (hs : step cap s a = some t) (hN : t.claims.length < 2147483648) : CursorInv cap t := by
  obtain ⟨u, hm, rfl⟩ := step_moves hs
  exact cursorInv_noteFull (cursorInv_moves h hm hN)

/-- The number of claims never goes down. -/
theorem claims_step {s t : State P α} {a : Action P α} (hs : step cap s a = some t) :
    s.claims.length ≤ t.claims.length := by
  obtain ⟨u, hm, rfl⟩ := step_moves hs
  cases hm <;> simp [State.noteFull, State.goto]

/-- RUN: the cursor invariant holds in every reachable state with fewer than 2³¹ claims. -/
theorem cursorInv_run (hcap : 0 < cap) (junk : ℤ → α) {as : List (Action P α)} {s : State P α}
    (hr : run (step cap) (State.new junk) as = some s) (hN : s.claims.length < 2147483648) :
    CursorInv cap s :=
  run_inv_bounded (fun _ _ _ => claims_step) (fun _ _ _ hI _ hN hs => cursorInv_step hI hs hN) as
    (meets_true _ _) (cursorInv_new hcap junk) hr hN

end Esp.RingThreads
