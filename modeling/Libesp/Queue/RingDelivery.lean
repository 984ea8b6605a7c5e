import Libesp.Queue.RingCursors

/-! @esp queue | name:LocklessRingQueue | scheme:invariant | source:src/queue/lockless_ring.h

    Which value the consumer gets for a ticket, and what a refused enqueue says about the ring.

    `readfront` counts publications without saying whose: a producer that fills a later slot first
    publishes, by its `fetch_add`, the slot of one that is still between its CAS and its write. The
    entry read there is stale. Delivery is exact in the runs where every `fetch_add` finds the
    ticket it publishes written (`delivered_run`).

    A refusal compares `f + 1`, for a copy `f` of `front`, with a `back` read later. When `back` has
    moved past `f` meanwhile, the congruence no longer means a full ring. Refusals are exact in the
    runs without such a stale pair (`refused_run`). -/

namespace Esp.RingThreads
open Cursor Memory LocklessRing Machine

variable {P α : Type} {cap : ℕ}

/-- What the consumer has been handed is what the tickets' claimants passed, read after they wrote
    it; and once no producer holds a ticket, every accepted value is handed out or published. -/
structure Delivered (s : State P α) : Prop where
  order : s.out <+: s.claims
  writtenFirst : ∀ x ∈ s.copies, x.2 = true
  kept : (∀ p, (s.producer p).ticket = none) → s.ring.readfront = s.claims.length

/-- A `fetch_add` on `readfront` finds the ticket it publishes already written by its claimant. -/
def publishesWritten (s : State P α) : Action P α → Bool
  | .produce p =>
    match s.producer p with
    | .filled _ => decide (s.ring.readfront ∈ s.written)
    | _ => true
  | _ => true

/-- What the consumer carries is the next stretch of the claims. -/
def CopyOk (claims : List α) (back : ℤ) : Consumer α → Prop
  | .copied _ v => [v] <+: claims.drop back.toNat
  | .copiedBulk _ vs => vs <+: claims.drop back.toNat
  | _ => True

/-- INVARIANT: written slots hold their claimant's value until `back` passes them. -/
structure SlotInv (cap : ℕ) (s : State P α) : Prop where
  claimed : ∀ p v f, s.producer p = .claimed v f → f ∉ s.written ∧ s.claims[f.toNat]? = some v
  written_lt : ∀ f ∈ s.written, 0 ≤ f ∧ f < s.ring.front
  published_written : ∀ f, 0 ≤ f → f < s.ring.readfront → f ∈ s.written
  slots : ∀ f ∈ s.written, s.ring.back ≤ f →
    s.claims[f.toNat]? = some (s.ring.buffer (modcap cap f))
  out_prefix : s.out <+: s.claims
  copies_ok : ∀ x ∈ s.copies, x.2 = true
  consumer : CopyOk s.claims s.ring.back s.consumer

/-- A list read off cell by cell from place `n` on is a prefix of what follows place `n`. -/
theorem prefix_drop {l vs : List α} {n : ℕ} (h : ∀ i (hi : i < vs.length), l[n + i]? = some vs[i]) :
    vs <+: l.drop n := by
  rw [List.prefix_iff_getElem?]
  intro i hi
  rw [List.getElem?_drop]
  exact h i hi

/-- A prefix followed by a prefix of the rest is a prefix. -/
theorem append_prefix {l out vs : List α} (ho : out <+: l) (hv : vs <+: l.drop out.length) :
    out ++ vs <+: l := by
  obtain ⟨t, rfl⟩ := ho
  rw [List.drop_left] at hv
  exact (List.prefix_append_right_inj out).mpr hv

theorem CopyOk.mono {claims claims' : List α} {back : ℤ} {c : Consumer α}
    (h : CopyOk claims back c) (hc : claims <+: claims') : CopyOk claims' back c := by
  cases c with
  | copied b v => exact h.trans (hc.drop _)
  | copiedBulk k vs => exact h.trans (hc.drop _)
  | _ => trivial

/-- The consumer's locals matter to the invariant only once it carries values. -/
theorem SlotInv.consumer_goto {s : State P α} (h : SlotInv cap s) {c : Consumer α}
    (hc : CopyOk s.claims s.ring.back c) : SlotInv cap { s with consumer := c } :=
  { h with consumer := hc }

/-- The cells below `readfront` hold the values of their tickets. -/
theorem SlotInv.cell {s : State P α} (h : SlotInv cap s) {f : ℤ} (h0 : 0 ≤ f)
    (hb : s.ring.back ≤ f) (hf : f < s.ring.readfront) :
    f ∈ s.written ∧ s.claims[f.toNat]? = some (s.ring.buffer (modcap cap f)) :=
  ⟨h.published_written f h0 hf, h.slots f (h.published_written f h0 hf) hb⟩

/-- The consumer's copy of `n` published cells is the next stretch of the claims. -/
theorem SlotInv.slice_prefix {s : State P α} (hc : CursorInv cap s) (h : SlotInv cap s) {k : ℤ}
    (hk : s.ring.back + k ≤ s.ring.readfront)
    (hend : modcap cap s.ring.back + k ≤ cap) :
    slice s.ring.buffer (modcap cap s.ring.back) k.toNat <+: s.claims.drop s.ring.back.toNat := by
  have hb := hc.back_nonneg
  refine prefix_drop ?_
  intro i hi
  rw [length_slice] at hi
  rw [getElem_slice]
  have hcell := (h.cell (f := s.ring.back + i) (by omega) (by omega) (by omega)).2
  have hpos : (0 : ℤ) < cap := by
    have := hc.window
    have := hc.readfront_le
    have := hc.back_le
    omega
  have hs : modcap cap (s.ring.back + i) = modcap cap s.ring.back + i :=
    tmod_add_of_lt hpos hb (by omega) (by simp only [modcap] at hend; omega)
  rw [hs] at hcell
  rw [← hcell]
  congr 1
  omega

theorem slotInv_new (junk : ℤ → α) : SlotInv cap (State.new junk : State P α) where
  claimed := fun _ _ _ h => by cases h
  written_lt := fun _ h => absurd h (by simp [State.new])
  published_written := fun f h0 h1 => absurd h1 (by simp only [State.new, RingQueue.new]; omega)
  slots := fun _ h => absurd h (by simp [State.new])
  out_prefix := List.prefix_refl _
  copies_ok := fun _ h => absurd h (by simp [State.new])
  consumer := trivial

/-- When no producer holds a ticket, every ticket is published. -/
theorem CursorInv.published_all {s : State P α} (h : CursorInv cap s)
    (hp : ∀ p, (s.producer p).ticket = none) : s.ring.readfront = s.claims.length := by
  have hsub : Finset.Ico 0 s.ring.front ⊆ s.published.toFinset := by
    intro f hf
    obtain ⟨h0, h1⟩ := Finset.mem_Ico.mp hf
    rcases h.inflight f h0 h1 with hm | ⟨p, hpf⟩
    · exact List.mem_toFinset.mpr hm
    · rw [hp p] at hpf; cases hpf
  have hcard := Finset.card_le_card hsub
  rw [List.toFinset_card_of_nodup h.published_nodup, Int.card_Ico] at hcard
  have := h.readfront_le
  have := h.front_eq
  have := h.readfront_eq
  omega

variable [DecidableEq P]

theorem SlotInv.goto {s : State P α} (h : SlotInv cap s) {p : P} {c : Producer α}
    (hc : ∀ v f, c = .claimed v f → s.producer p = .claimed v f) : SlotInv cap (s.goto p c) := by
  refine { h with claimed := fun q v f hq => h.claimed q v f ?_ }
  by_cases hqp : q = p
  · subst hqp
    simp only [State.goto, Function.update_self] at hq
    exact hc v f hq
  · simpa [State.goto, hqp] using hq

theorem SlotInv.claim {s : State P α} {p : P} {v : α} (hc : CursorInv cap s) (h : SlotInv cap s)
    (hN : s.claims.length + 1 < 2147483648) :
    SlotInv cap { s.goto p (.claimed v s.ring.front) with
      ring := { s.ring with front := wrap32 (s.ring.front + 1) }
      claims := s.claims ++ [v] } := by
  have hfront := hc.front_eq
  have hw : wrap32 (s.ring.front + 1) = s.ring.front + 1 := wrap32_of_range (by omega) (by omega)
  have hlast : s.ring.front.toNat = s.claims.length := by omega
  have hold : ∀ {f : ℤ} {x : α}, s.claims[f.toNat]? = some x →
      (s.claims ++ [v])[f.toNat]? = some x := by
    intro f x hx
    exact prefix_entry (List.prefix_append _ _) hx
  rw [hw]
  refine { h with claimed := ?_, written_lt := ?_, slots := ?_, out_prefix := ?_, consumer := ?_ }
  · intro q x f hq
    by_cases hqp : q = p
    · subst hqp
      simp only [State.goto, Function.update_self, Producer.claimed.injEq] at hq
      obtain ⟨rfl, rfl⟩ := hq
      exact ⟨fun hm => lt_irrefl _ (h.written_lt _ hm).2, by simp [hlast]⟩
    · simp only [State.goto, Function.update_of_ne hqp] at hq
      exact ⟨(h.claimed q x f hq).1, hold (h.claimed q x f hq).2⟩
  · intro f hf
    exact ⟨(h.written_lt f hf).1, lt_trans (h.written_lt f hf).2 (by simp only; omega)⟩
  · intro f hf hb
    exact hold (h.slots f hf hb)
  · exact h.out_prefix.trans (List.prefix_append _ _)
  · exact h.consumer.mono (List.prefix_append _ _)

/-- The slot write of ticket `f` lands in no cell of another ticket that is still to be read. -/
theorem SlotInv.fill {s : State P α} {p : P} {v : α} {f : ℤ} (hc : CursorInv cap s)
    (h : SlotInv cap s) (hp : s.producer p = .claimed v f) :
    SlotInv cap { s.goto p (.filled f) with
      ring := { s.ring with buffer := Function.update s.ring.buffer (modcap cap f) v }
      written := s.written ++ [f] } := by
  obtain ⟨hnew, hv⟩ := h.claimed p v f hp
  obtain ⟨hf0, hf1, _⟩ := hc.ticket_ok (p := p) (f := f) (by rw [hp]; rfl)
  have hback : s.ring.back ≤ f := by
    by_contra hlt
    exact hnew (h.published_written f hf0 (lt_of_lt_of_le (by omega) hc.back_le))
  have hg : SlotInv cap (s.goto p (.filled f)) := h.goto (fun _ _ he => by cases he)
  refine { hg with claimed := ?_, written_lt := ?_, published_written := ?_, slots := ?_ }
  · intro q x g hq
    have hqp : q ≠ p := by rintro rfl; simp [State.goto] at hq
    have hq' := hg.claimed q x g hq
    refine ⟨?_, hq'.2⟩
    intro hm
    rcases List.mem_append.mp hm with hm | hm
    · exact hq'.1 hm
    · rw [List.mem_singleton] at hm
      subst hm
      simp only [State.goto, Function.update_of_ne hqp] at hq
      exact hqp (hc.tickets q p g (by rw [hq]; rfl) (by rw [hp]; rfl))
  · intro g hm
    rcases List.mem_append.mp hm with hm | hm
    · exact h.written_lt g hm
    · rw [List.mem_singleton] at hm
      subst hm
      exact ⟨hf0, hf1⟩
  · intro g h0 hlt
    exact List.mem_append_left _ (h.published_written g h0 hlt)
  · intro g hm hb
    rcases List.mem_append.mp hm with hm | hm
    · have hlt := (h.written_lt g hm).2
      have hwin := hc.window
      simp only at hb
      -- both tickets lie in the window, so sharing a slot would make them equal
      have hne : modcap cap g ≠ modcap cap f := by
        intro he
        rcases le_total f g with hle | hle
        · exact hnew (eq_of_tmod_eq he hle (by omega) ▸ hm)
        · exact hnew (eq_of_tmod_eq he.symm hle (by omega) ▸ hm)
      simp only [Function.update_of_ne hne]
      exact h.slots g hm hb
    · rw [List.mem_singleton] at hm
      subst hm
      simpa [State.goto] using hv

theorem SlotInv.publish {s : State P α} {p : P} {f : ℤ} (h : SlotInv cap s)
    (hw : wrap32 (s.ring.readfront + 1) = s.ring.readfront + 1)
    (hG : s.ring.readfront ∈ s.written) :
    SlotInv cap { s.goto p .idle with
      ring := { s.ring with readfront := wrap32 (s.ring.readfront + 1) }
      published := s.published ++ [f] } := by
  have hg : SlotInv cap (s.goto p .idle) := h.goto (fun _ _ he => by cases he)
  rw [hw]
  refine { hg with published_written := fun g h0 hlt => ?_ }
  rcases eq_or_lt_of_le (Int.lt_add_one_iff.mp hlt) with rfl | hlt
  · exact hG
  · exact h.published_written g h0 hlt

/-- STEP: a transition that publishes nothing unwritten keeps the slots sound. -/
theorem slotInv_moves {s t : State P α} {a : Action P α} (hc : CursorInv cap s)
    (hct : CursorInv cap t) (h : SlotInv cap s) (hG : publishesWritten s a = true) (hm : Moves cap s a t)
    (hN : t.claims.length < 2147483648) : SlotInv cap t := by
  cases hm with
  | @call p v hp =>
    have := h.goto (p := p) (c := .enter v) (fun _ _ he => by cases he)
    exact { this with }
  | loadFront hp => exact h.goto (fun _ _ he => by cases he)
  | @refuse p v f hp hfull =>
    have := h.goto (p := p) (c := .idle) (fun _ _ he => by cases he)
    exact { this with }
  | pass hp hroom => exact h.goto (fun _ _ he => by cases he)
  | claim hp => exact h.claim hc (by simpa using hN)
  | retry hp => exact h.goto (fun _ _ he => by cases he)
  | fill hp => exact h.fill hc hp
  | publish hp =>
    have hread := hct.readfront_eq
    have hle := hct.readfront_le
    have hfront := hct.front_eq
    simp only [State.goto] at hread hle hfront hN
    have hs := hc.readfront_eq
    exact h.publish (by simp only [List.length_append, List.length_singleton] at hread; omega)
      (by simpa [publishesWritten, hp] using hG)
  | wait hw => rcases hw with rfl | rfl | ⟨m, rfl⟩ <;> exact h.consumer_goto trivial
  | loadReadfront hcs => exact h.consumer_goto trivial
  | accept hcs hne => exact h.consumer_goto trivial
  | @copy b hcs =>
    have hok := hc.consumer
    rw [hcs] at hok
    obtain ⟨rfl, hlt⟩ := hok
    have hcell := h.cell hc.back_nonneg (le_refl _) hlt
    refine { h with copies_ok := fun x hx => ?_, consumer := prefix_drop fun i hi => ?_ }
    · rcases List.mem_append.mp hx with hx | hx
      · exact h.copies_ok x hx
      · rw [List.mem_singleton] at hx
        subst hx
        exact decide_eq_true hcell.1
    · obtain rfl : i = 0 := by simpa using hi
      exact hcell.2
  | @advance b v hcs =>
    have hok := hc.consumer
    rw [hcs] at hok
    obtain ⟨rfl, hlt⟩ := hok
    have hpre : [v] <+: s.claims.drop s.ring.back.toNat := by
      have := h.consumer
      rwa [hcs] at this
    have hback := hct.back_eq
    have hb := hc.back_eq
    simp only [List.length_append, List.length_singleton] at hback
    refine { h with slots := fun f hf hle => h.slots f hf ?_, out_prefix := ?_, consumer := trivial }
    · simp only at hle; omega
    · refine append_prefix h.out_prefix ?_
      rwa [hb, Int.toNat_natCast] at hpre
  | loadReadfrontBulk hcs => exact h.consumer_goto trivial
  | acceptBulk hcs hne => exact h.consumer_goto trivial
  | @copyBulk b k hcs =>
    have hok := hc.consumer
    rw [hcs] at hok
    obtain ⟨rfl, _, hk, hend⟩ := hok
    refine { h with copies_ok := fun x hx => ?_, consumer := h.slice_prefix hc hk hend }
    rcases List.mem_append.mp hx with hx | hx
    · exact h.copies_ok x hx
    · obtain ⟨f, hf, rfl⟩ := List.mem_map.mp hx
      simp only [slice, List.mem_map, List.mem_range, id_eq] at hf
      obtain ⟨j, hj, rfl⟩ := hf
      have hb := hc.back_nonneg
      exact decide_eq_true (h.cell (by omega) (by omega) (by omega)).1
  | @advanceBulk k vs hcs =>
    have hok := hc.consumer
    rw [hcs] at hok
    have hpre : vs <+: s.claims.drop s.ring.back.toNat := by
      have := h.consumer
      rwa [hcs] at this
    have hback := hct.back_eq
    have hb := hc.back_eq
    simp only [List.length_append] at hback
    refine { h with slots := fun f hf hle => h.slots f hf ?_, out_prefix := ?_, consumer := trivial }
    · simp only at hle; omega
    · refine append_prefix h.out_prefix ?_
      rwa [hb, Int.toNat_natCast] at hpre

/-- RUN: both invariants along a run that publishes only written tickets. -/
theorem slotInv_run (hcap : 0 < cap) (junk : ℤ → α) {as : List (Action P α)} {s : State P α}
    (hr : run (step cap) (State.new junk) as = some s) (hN : s.claims.length < 2147483648)
    (hG : Meets (step cap) (fun s a => publishesWritten s a) (State.new junk) as) :
    CursorInv cap s ∧ SlotInv cap s := by
  refine run_inv_bounded (I := fun s => CursorInv cap s ∧ SlotInv cap s) (fun _ _ _ => claims_step)
    ?_ as hG ⟨cursorInv_new hcap junk, slotInv_new junk⟩ hr hN
  rintro s a t ⟨hc, hs⟩ hg ht hst
  obtain ⟨u, hm, rfl⟩ := step_moves hst
  have hcu := cursorInv_moves hc hm ht
  exact ⟨cursorInv_noteFull hcu, { slotInv_moves hc hcu hs hg hm ht with }⟩

/-- CORRECT: while every `fetch_add` publishes a written ticket, the `i`-th value handed out is the
    value of ticket `i`, read after its claimant wrote it, and no accepted value is lost. -/
theorem delivered_run (hcap : 0 < cap) (junk : ℤ → α) {as : List (Action P α)} {s : State P α}
    (hr : run (step cap) (State.new junk) as = some s) (hN : s.claims.length < 2147483647)
    (hG : Meets (step cap) (fun s a => publishesWritten s a) (State.new junk) as) : Delivered s := by
  obtain ⟨hc, hs⟩ := slotInv_run hcap junk hr (by omega) hG
  exact ⟨hs.out_prefix, hs.copies_ok, hc.published_all⟩

/-- Producer `false` claims ticket 0 and stalls; producer `true` claims ticket 1, fills and publishes
    it; the consumer then takes one entry. -/
def overtaken : List (Action Bool ℕ) :=
  [.enqueue false 10, .produce false, .produce false, .produce false,
   .enqueue true 20, .produce true, .produce true, .produce true, .produce true, .produce true,
   .dequeue, .consume, .consume, .consume, .consume]

/-- REFUTED: after `overtaken` the consumer holds what was in the array before, not ticket 0. -/
theorem overtaken_delivers_stale :
    ¬ ∀ (as : List (Action Bool ℕ)) (s : State Bool ℕ),
      run (step 4096) (State.new fun _ => 77) as = some s → s.claims.length < 2147483647 →
        Delivered s := by
  intro h
  have hout := (h overtaken _ rfl (by decide)).order
  exact absurd hout (by decide)

/-- Two producers load `front = 0` together; `true` wins the compare-exchange, `false` loses it and
    claims ticket 1. `false` returns first, which publishes the written ticket 0, and the consumer
    takes that entry while `true` is still inside its call. -/
def crossedCalls : List (Action Bool ℕ) :=
  [.enqueue false 10, .enqueue true 20, .produce false, .produce true, .produce false,
   .produce true, .produce true, .produce false, .produce false, .produce false, .produce true,
   .produce false, .produce false, .dequeueBulk 5, .consume, .consume, .consume, .consume,
   .produce true, .dequeue, .consume, .consume, .consume, .consume]

theorem delivered_run_crossedCalls : ∃ s : State Bool ℕ,
    run (step 4096) (State.new fun _ => 77) crossedCalls = some s ∧ s.claims = [20, 10] ∧
      s.published = [1, 0] ∧ s.out = [20, 10] ∧ Delivered s := by
  refine ⟨_, rfl, rfl, rfl, rfl, ?_⟩
  exact @delivered_run Bool ℕ 4096 _ (by decide) (fun _ => 77) crossedCalls _ rfl (by decide)
    (by decide)

/-! ### Refusals -/

variable (cap) in
/-- No producer pairs its `front` with a `back` that has overtaken it and looks one lap ahead. -/
def freshPair (s : State P α) : Action P α → Bool
  | .produce p =>
    match s.producer p with
    | .loaded _ f => !(decide (f < s.ring.back) && modcapEq cap (wrap32 (f + 1)) s.ring.back)
    | _ => true
  | _ => true

/-- Every refused call saw the ring full at some moment between its invocation and its return. -/
def RefusedFull (s : State P α) : Prop := ∀ x ∈ s.refusals, x.2 = true

instance (s : State P α) : Decidable (RefusedFull s) :=
  inferInstanceAs (Decidable (∀ x ∈ s.refusals, x.2 = true))

omit [DecidableEq P] in
/-- A test that fires on a `front` not yet overtaken by `back` fires on a full ring. -/
theorem CursorInv.full_of_test {s : State P α} (h : CursorInv cap s)
    (hN : s.claims.length < 2147483648) {f : ℤ} (h0 : 0 ≤ f) (hf : f ≤ s.ring.front)
    (hb : s.ring.back ≤ f) (ht : modcapEq cap (wrap32 (f + 1)) s.ring.back = true) :
    IsFull cap s.ring := by
  have hwin := h.window
  have hfront := h.front_eq
  have hd : (cap : ℤ) ∣ f + 1 - s.ring.back :=
    dvd_sub_of_wrap32_tmod_eq h0 (by omega) h.back_nonneg (modcapEq_iff.mp ht)
  have hle := Int.le_of_dvd (by omega) hd
  unfold IsFull
  omega

/-- STEP: a transition on a fresh pair refuses only on a full ring, which the call has noted. -/
theorem refusedFull_moves {s t : State P α} {a : Action P α} (hc : CursorInv cap s)
    (hsaw : ∀ p, IsFull cap s.ring → s.producer p ≠ .idle → s.sawFull p = true)
    (h : RefusedFull s) (hG : freshPair cap s a = true) (hm : Moves cap s a t)
    (hN : t.claims.length < 2147483648) : RefusedFull t := by
  cases hm with
  | @refuse p v f hp hfull =>
    have hok := hc.producers p
    rw [hp] at hok
    have hb : s.ring.back ≤ f := by
      simp only [freshPair, hp, hfull, Bool.and_true, Bool.not_eq_true', decide_eq_false_iff_not,
        not_lt] at hG
      exact hG
    have hring := hc.full_of_test hN hok.1 hok.2 hb hfull
    intro x hx
    rcases List.mem_append.mp hx with hx | hx
    · exact h x hx
    · rw [List.mem_singleton] at hx
      subst hx
      exact hsaw p hring (by rw [hp]; nofun)
  | _ => exact h

/-- CORRECT: while no producer decides on a pair whose `back` has overtaken its `front`, a refused
    enqueue has seen `capacity - 1` entries claimed and not yet dequeued during its call. -/
theorem refused_run (hcap : 0 < cap) (junk : ℤ → α) {as : List (Action P α)} {s : State P α}
    (hr : run (step cap) (State.new junk) as = some s) (hN : s.claims.length < 2147483648)
    (hG : Meets (step cap) (fun s a => freshPair cap s a) (State.new junk) as) :
    RefusedFull s := by
  have hinv : CursorInv cap s ∧ RefusedFull s ∧
      ∀ p, IsFull cap s.ring → s.producer p ≠ .idle → s.sawFull p = true := by
    refine run_inv_bounded (I := fun s => CursorInv cap s ∧ RefusedFull s ∧
      ∀ p, IsFull cap s.ring → s.producer p ≠ .idle → s.sawFull p = true)
      (fun _ _ _ => claims_step) ?_ as hG ⟨cursorInv_new hcap junk, ?_, ?_⟩ hr hN
    · rintro s a t ⟨hc, hf, hsaw⟩ hg ht hst
      obtain ⟨u, hm, rfl⟩ := step_moves hst
      refine ⟨cursorInv_noteFull (cursorInv_moves hc hm ht), ?_, ?_⟩
      · have hu : RefusedFull u := refusedFull_moves hc hsaw hf hg hm ht
        exact hu
      · intro p hfull _
        have hu : IsFull cap u.ring := hfull
        simp [State.noteFull, hu]
    · exact fun _ hx => absurd hx (by simp [State.new])
    · exact fun p _ hp => absurd rfl hp
  exact hinv.2.1

/-- Producer `false` reads `front` and stalls while one entry passes through the queue. -/
def overtakenTest : List (Action Bool ℕ) :=
  [.enqueue false 10, .produce false,
   .enqueue true 20, .produce true, .produce true, .produce true, .produce true, .produce true,
   .dequeue, .consume, .consume, .consume, .consume, .produce false]

/-- REFUTED: `overtakenTest` refuses an enqueue on a queue that never held more than one entry. -/
theorem overtakenTest_refuses :
    ¬ ∀ (as : List (Action Bool ℕ)) (s : State Bool ℕ),
      run (step 4096) (State.new fun _ => 77) as = some s → s.claims.length < 2147483648 →
        RefusedFull s := by
  intro h
  have hfull := h overtakenTest _ rfl (by decide)
  exact absurd hfull (by decide)

/-- On a queue of capacity 2 the second of two enqueues in a row is refused, and rightly so. -/
theorem refused_run_second : ∃ s : State Bool ℕ,
    run (step 2) (State.new fun _ => 77) [.enqueue false 10, .produce false, .produce false,
      .produce false, .produce false, .produce false, .enqueue true 20, .produce true,
      .produce true] = some s ∧ s.refusals = [(true, true)] ∧ RefusedFull s := by
  refine ⟨_, rfl, rfl, ?_⟩
  exact @refused_run Bool ℕ 2 _ (by decide) (fun _ => 77) [.enqueue false 10, .produce false,
    .produce false, .produce false, .produce false, .produce false, .enqueue true 20,
    .produce true, .produce true] _ rfl (by decide) (by decide)

end Esp.RingThreads
