import Libesp.Queue.RingCursors
import Mathlib.Data.Set.Card

/-! @esp queue | name:LocklessRingQueue | scheme:accounting |
    source:src/queue/lockless_ring.h (Empty, TryEnqueue, TryDequeue)

    What the cursors say about the threads. A ticket is claimed by one CAS; its claimant is in flight
    until its `fetch_add`; from then on the entry is the consumer's.

        0          back        readfront       front
        │ dequeued  │  to dequeue  │  in flight  │

    The consumer's `Empty` reads `front` and then `back`, and producers may move in between. -/

namespace Esp.RingThreads
open Cursor Memory LocklessRing Machine

variable {P α : Type}

/-- The producers between their successful CAS and their `fetch_add`. -/
def State.inFlight (s : State P α) : Set P := {p | (s.producer p).ticket ≠ none}

/-- The producer and the ticket, when the action is a successful CAS. -/
def casOf : State P α × Action P α → Option (P × ℤ)
  | (s, .produce p) =>
    match s.producer p with
    | .passed _ f => if s.ring.front = f then some (p, f) else none
    | _ => none
  | _ => none

/-- Does the consumer take a step? -/
def Action.ofConsumer : Action P α → Bool
  | .dequeue | .dequeueBulk _ | .consume => true
  | _ => false

variable [DecidableEq P] (cap : ℕ)

/-- The successful CASes of a run, in order. -/
def casRun (s : State P α) (as : List (Action P α)) : List (P × ℤ) :=
  (trace (step cap) s as).filterMap casOf

/-- What `Empty` returns, called by a consumer that reads `front` in `s` and `back` in `t`. -/
def emptySeen (s t : State P α) : Bool := modcapEq cap s.ring.front t.ring.back

/-- The cursors are in order, and they count the threads. -/
structure Accounted (s : State P α) (cas : List (P × ℤ)) : Prop where
  back_le : s.ring.back ≤ s.ring.readfront
  readfront_le : s.ring.readfront ≤ s.ring.front
  front_le : s.ring.front ≤ s.ring.back + cap - 1
  inFlight_finite : s.inFlight.Finite
  inFlight_eq : s.ring.front - s.ring.readfront = s.inFlight.ncard
  claimed_once : ∀ f, 0 ≤ f → f < s.ring.front → (cas.map Prod.snd).count f = 1
  enqueued_eq : (cas.length : ℤ) =
    s.out.length + (s.ring.readfront - s.ring.back) + s.inFlight.ncard

/-- Every accepted entry has been published and dequeued. -/
structure AllDequeued (s : State P α) (cas : List (P × ℤ)) : Prop where
  published : s.ring.readfront = s.ring.front
  inFlight : s.inFlight = ∅
  dequeued : s.out.length = cas.length

variable {cap} {s t : State P α} {a : Action P α}

/-! ### In flight -/

omit [DecidableEq P] in
/-- The tickets in flight are those claimed and not published. -/
theorem CursorInv.tickets_inFlight (h : CursorInv cap s) :
    (fun p => (s.producer p).ticket.getD 0) '' s.inFlight =
      ↑(Finset.Ico 0 s.ring.front \ s.published.toFinset) := by
  ext f
  simp only [Set.mem_image, Finset.coe_sdiff, Set.mem_sdiff, Finset.mem_coe, Finset.mem_Ico,
    List.mem_toFinset]
  constructor
  · rintro ⟨p, hp, rfl⟩
    obtain ⟨g, hg⟩ := Option.ne_none_iff_exists'.mp hp
    obtain ⟨h0, hlt, hnot⟩ := h.ticket_ok hg
    rw [hg, Option.getD_some]
    exact ⟨⟨h0, hlt⟩, hnot⟩
  · rintro ⟨⟨h0, hlt⟩, hnot⟩
    obtain ⟨p, hp⟩ := (h.inflight f h0 hlt).resolve_left hnot
    refine ⟨p, ?_, ?_⟩
    · rw [State.inFlight, Set.mem_ofPred_eq, hp]
      exact Option.some_ne_none f
    · rw [hp, Option.getD_some]

omit [DecidableEq P] in
theorem CursorInv.ticket_injOn (h : CursorInv cap s) :
    Set.InjOn (fun p => (s.producer p).ticket.getD 0) s.inFlight := by
  intro p hp q hq heq
  obtain ⟨f, hf⟩ := Option.ne_none_iff_exists'.mp hp
  obtain ⟨g, hg⟩ := Option.ne_none_iff_exists'.mp hq
  simp only [hf, hg, Option.getD_some] at heq
  exact h.tickets p q f hf (heq ▸ hg)

omit [DecidableEq P] in
theorem CursorInv.inFlight_finite (h : CursorInv cap s) : s.inFlight.Finite := by
  refine Set.Finite.of_finite_image ?_ h.ticket_injOn
  rw [h.tickets_inFlight]
  exact Finset.finite_toSet _

omit [DecidableEq P] in
/-- `front - readfront` counts the producers in flight. -/
theorem CursorInv.inFlight_eq (h : CursorInv cap s) :
    s.ring.front - s.ring.readfront = s.inFlight.ncard := by
  have hfront := h.front_eq
  have hread := h.readfront_eq
  have hle := h.readfront_le
  have hsub : s.published.toFinset ⊆ Finset.Ico 0 s.ring.front := by
    intro f hf
    rw [List.mem_toFinset] at hf
    exact Finset.mem_Ico.mpr (h.published_lt f hf)
  rw [← h.ticket_injOn.ncard_image, h.tickets_inFlight, Set.ncard_coe_finset,
    Finset.card_sdiff_of_subset hsub, List.toFinset_card_of_nodup h.published_nodup, Int.card_Ico]
  omega

/-! ### The successful CASes -/

/-- STEP: a successful CAS claims the ticket `front`, and no other step claims. -/
theorem claims_casOf (hs : step cap s a = some t) :
    casOf (s, a) = none ∧ t.claims.length = s.claims.length ∨
      ∃ p, casOf (s, a) = some (p, s.ring.front) ∧ t.claims.length = s.claims.length + 1 := by
  have hmoves := step_moves hs
  cases a with
  | produce p =>
    obtain ⟨u, hu, rfl⟩ := Option.map_eq_some_iff.mp hs
    simp only [act, produce] at hu
    simp only [casOf]
    rcases hp : s.producer p with _ | v | ⟨v, f⟩ | ⟨v, f⟩ | ⟨v, f⟩ | f <;> simp only [hp] at hu ⊢
    case idle => cases hu
    case passed =>
      split at hu
      · rename_i hf
        obtain rfl := Option.some.inj hu
        rw [if_pos hf, hf]
        exact Or.inr ⟨p, rfl, List.length_append⟩
      · rename_i hf
        obtain rfl := Option.some.inj hu
        exact Or.inl ⟨if_neg hf, rfl⟩
    case loaded => split at hu <;> obtain rfl := Option.some.inj hu <;> exact Or.inl ⟨trivial, rfl⟩
    all_goals obtain rfl := Option.some.inj hu; exact Or.inl ⟨trivial, rfl⟩
  | _ =>
    obtain ⟨u, hm, rfl⟩ := hmoves
    exact Or.inl ⟨rfl, by cases hm <;> rfl⟩

theorem casRun_cons {as : List (Action P α)} (hs : step cap s a = some t) :
    casRun cap s (a :: as) = (casOf (s, a)).toList ++ casRun cap t as := by
  rw [casRun, trace, hs, Option.elim_some, casRun]
  rcases hc : casOf (s, a) with _ | c
  · rw [List.filterMap_cons_none hc]
    rfl
  · rw [List.filterMap_cons_some hc]
    rfl

/-- RUN: the history counts the successful CASes. -/
theorem casRun_length {as : List (Action P α)} (hr : run (step cap) s as = some t) :
    t.claims.length = s.claims.length + (casRun cap s as).length := by
  induction as generalizing s with
  | nil =>
    obtain rfl := Option.some.inj hr
    rfl
  | cons a as ih =>
    obtain ⟨u, hs, hr⟩ := run_cons_some.mp hr
    rw [ih hr, casRun_cons hs, List.length_append]
    rcases claims_casOf hs with ⟨hc, hlen⟩ | ⟨p, hc, hlen⟩ <;>
      rw [hc, hlen] <;> simp only [Option.toList_none, Option.toList_some, List.length_nil,
        List.length_singleton] <;> omega

/-- RUN: the tickets are claimed in order, each by one CAS. -/
theorem casRun_tickets {as : List (Action P α)} (h : CursorInv cap s)
    (hr : run (step cap) s as = some t) (hN : t.claims.length < 2147483648) :
    (casRun cap s as).map Prod.snd =
      (List.range' s.claims.length (casRun cap s as).length).map Nat.cast := by
  induction as generalizing s with
  | nil => rfl
  | cons a as ih =>
    obtain ⟨u, hs, hr⟩ := run_cons_some.mp hr
    have hlen := casRun_length hr
    have hu := cursorInv_step h hs (by omega)
    have hrest := ih hu hr
    rw [casRun_cons hs, List.map_append, List.length_append, hrest]
    rcases claims_casOf hs with ⟨hc, hsame⟩ | ⟨p, hc, hnext⟩
    · rw [hc, hsame, Option.toList_none, List.map_nil, List.nil_append, List.length_nil, Nat.zero_add]
    · rw [hc, hnext, Option.toList_some, List.map_singleton, List.length_singleton, Nat.add_comm 1,
        List.range'_succ, List.map_cons, h.front_eq]
      rfl

/-- Each ticket below `front` is claimed by exactly one CAS. -/
theorem casRun_once {as : List (Action P α)} (hcap : 0 < cap) (junk : ℤ → α)
    (hr : run (step cap) (State.new junk) as = some t) (hN : t.claims.length < 2147483648) {f : ℤ}
    (h0 : 0 ≤ f) (hlt : f < t.ring.front) :
    ((casRun cap (State.new junk) as).map Prod.snd).count f = 1 := by
  have hlen := casRun_length hr
  have hfront := (cursorInv_run hcap junk hr hN).front_eq
  rw [casRun_tickets (cursorInv_new hcap junk) hr hN]
  refine List.count_eq_one_of_mem ?_ ?_
  · exact (List.nodup_range').map Nat.cast_injective
  · have hzero : (State.new junk : State P α).claims.length = 0 := rfl
    rw [hzero] at hlen ⊢
    refine List.mem_map.mpr ⟨f.toNat, ?_, Int.toNat_of_nonneg h0⟩
    rw [List.mem_range'_1]
    omega

omit [DecidableEq P] in
/-- The invariant and the history of the claims give the accounts. -/
theorem CursorInv.accounted (h : CursorInv cap s) {cas : List (P × ℤ)}
    (hcas : s.claims.length = cas.length)
    (honce : ∀ f, 0 ≤ f → f < s.ring.front → (cas.map Prod.snd).count f = 1) :
    Accounted cap s cas := by
  have hfront := h.front_eq
  have hback := h.back_eq
  have hwindow := h.window
  have hflight := h.inFlight_eq
  exact ⟨h.back_le, h.readfront_le, by omega, h.inFlight_finite, hflight, honce, by omega⟩

/-! ### Empty -/

/-- Only the consumer moves `back`. -/
theorem back_step (hs : step cap s a = some t) (ha : a.ofConsumer = false) :
    t.ring.back = s.ring.back := by
  obtain ⟨u, hm, rfl⟩ := step_moves hs
  cases hm <;> first | rfl | cases ha

theorem back_run {as : List (Action P α)} (hr : run (step cap) s as = some t)
    (has : ∀ a ∈ as, a.ofConsumer = false) : t.ring.back = s.ring.back := by
  induction as generalizing s with
  | nil =>
    obtain rfl := Option.some.inj hr
    rfl
  | cons a as ih =>
    obtain ⟨u, hs, hr⟩ := run_cons_some.mp hr
    rw [ih hr fun b hb => has b (List.mem_cons_of_mem a hb), back_step hs (has a List.mem_cons_self)]

omit [DecidableEq P] in
/-- An `Empty` that sees the cursors share a slot sees them equal. -/
theorem CursorInv.allDequeued (h : CursorInv cap s) {cas : List (P × ℤ)}
    (hcas : s.claims.length = cas.length) (hback : t.ring.back = s.ring.back)
    (he : emptySeen cap s t = true) : AllDequeued s cas := by
  have hfront := h.front_eq
  have hbackEq := h.back_eq
  have hwindow := h.window
  have hback_le := h.back_le
  have hread_le := h.readfront_le
  rw [emptySeen, modcapEq_iff, hback] at he
  have heq := eq_of_tmod_eq he (by omega) (by omega)
  have hflight := h.inFlight_eq
  refine ⟨by omega, ?_, by omega⟩
  exact (Set.ncard_eq_zero h.inFlight_finite).mp (by omega)

/-- CORRECT: in every run with fewer than 2^31 - 1 successful CASes the cursors account for every
    entry, and an `Empty` of the consumer that returns true saw all of them dequeued. -/
theorem accounted_run (hcap : 0 < cap) (junk : ℤ → α) {as : List (Action P α)}
    (hr : run (step cap) (State.new junk) as = some s)
    (hN : (casRun cap (State.new junk) as).length < 2147483647) :
    Accounted cap s (casRun cap (State.new junk) as) ∧
      ∀ bs t, (∀ b ∈ bs, b.ofConsumer = false) → run (step cap) s bs = some t →
        emptySeen cap s t = true → AllDequeued s (casRun cap (State.new junk) as) := by
  have hlen : s.claims.length = 0 + _ := casRun_length hr
  have hclaims : s.claims.length < 2147483648 := by omega
  have h := cursorInv_run hcap junk hr hclaims
  rw [Nat.zero_add] at hlen
  refine ⟨h.accounted hlen fun f h0 hlt => casRun_once hcap junk hr hclaims h0 hlt, ?_⟩
  rintro bs t hbs hrt he
  exact h.allDequeued hlen (back_run hrt hbs) he

/-- One entry passes through the queue. -/
def passOne : List (Action Bool ℕ) :=
  [.enqueue true 20, .produce true, .produce true, .produce true, .produce true, .produce true,
   .dequeue, .consume, .consume, .consume, .consume]

/-- Another producer on its way in, up to its CAS. -/
def comeIn : List (Action Bool ℕ) :=
  [.enqueue false 10, .produce false, .produce false, .produce false]

/-- The consumer finds the queue empty while the other producer is on its way in. -/
theorem accounted_run_passOne : ∃ s t : State Bool ℕ,
    run (step 4096) (State.new fun _ => 77) passOne = some s ∧ s.out = [20] ∧
      Accounted 4096 s (casRun 4096 (State.new fun _ => 77) passOne) ∧
      run (step 4096) s comeIn = some t ∧ t.ring.front = 2 ∧ emptySeen 4096 s t = true ∧
      AllDequeued s (casRun 4096 (State.new fun _ => 77) passOne) := by
  have hall := @accounted_run Bool ℕ _ 4096 _ (by decide) (fun _ => 77) passOne rfl (by decide)
  exact ⟨_, _, rfl, rfl, hall.1, rfl, rfl, rfl, hall.2 comeIn _ (by decide) rfl rfl⟩

end Esp.RingThreads
