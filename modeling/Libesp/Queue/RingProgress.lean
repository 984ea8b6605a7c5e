import Mathlib.Algebra.BigOperators.Group.Finset.Basic
import Libesp.Schemes.Budget
import Libesp.Queue.RingThreads

/-! @esp queue | name:LocklessRingQueue | scheme:potential |
    source:src/queue/lockless_ring.h (TryEnqueue)

    How long the producers hold each other up. A `compare_exchange` on `front` fails when another
    producer claimed the ticket first, and then that producer is past its CAS; so a call may be sent
    round its loop again and again, but each time some other call comes nearer its end.

        enter 5 ─▶ loaded 4 ─▶ passed 3 ─▶ claimed 2 ─▶ filled 1 ─▶ idle 0
                        ▲ 6        │ 5          a copy of `front` that is stale has 2 more to go
                        └── retry ─┘

    A claim makes the copies of all others stale. What that costs is paid beforehand: every pair of
    producers that have yet to claim holds 2 (`pairs`). -/

namespace Esp.RingThreads
open Cursor LocklessRing Machine

variable {P α : Type}

/-- The producer has yet to claim its ticket: 1 if so. -/
def Producer.toClaim : Producer α → ℕ
  | .enter _ | .loaded _ _ | .passed _ _ => 1
  | _ => 0

/-- The steps a producer still has to take if nobody comes between, where `front` is this. -/
def Producer.stepsLeft (front : ℤ) : Producer α → ℕ
  | .idle => 0
  | .enter _ => 5
  | .loaded _ f => if f = front then 4 else 6
  | .passed _ f => if f = front then 3 else 5
  | .claimed _ _ => 2
  | .filled _ => 1

/-- Twice the number of pairs among `n`. -/
def pairs (n : ℕ) : ℕ := n * (n - 1)

/-- The steps the producers `ps` may still take among them. -/
def State.potential (ps : Finset P) (s : State P α) : ℕ :=
  (∑ p ∈ ps, (s.producer p).stepsLeft s.ring.front) + pairs (∑ p ∈ ps, (s.producer p).toClaim)

def Action.isCall : Action P α → Bool
  | .enqueue _ _ => true
  | _ => false

/-- A CAS that fails although `front` is what it expects. -/
def Action.isSpurious : Action P α → Bool
  | .casFails _ => true
  | _ => false

/-- Is the action a step of a producer in its call? -/
def Action.isProducerStep : Action P α → Bool
  | .produce _ | .casFails _ => true
  | _ => false

/-- The producers that call are among `ps`. -/
def CallsFrom (ps : Finset P) : Action P α → Prop
  | .enqueue p _ => p ∈ ps
  | _ => True

/-- What an action adds to the potential. -/
def Action.income (ps : Finset P) : Action P α → ℕ
  | .enqueue _ _ => 2 * ps.card + 3
  | .casFails _ => 2
  | _ => 0

/-! ### Sums over the producers -/

theorem pairs_succ (n : ℕ) : pairs (n + 1) = pairs n + 2 * n := by
  rw [pairs, pairs]
  cases n with
  | zero => rfl
  | succ n =>
    simp only [Nat.add_sub_cancel]
    ring

theorem toClaim_le (pc : Producer α) : pc.toClaim ≤ 1 := by
  cases pc <;> simp only [Producer.toClaim, le_refl, zero_le]

/-- A new `front` sends back those that have yet to claim, by two steps each. -/
theorem stepsLeft_stale (front front' : ℤ) (pc : Producer α) :
    pc.stepsLeft front' ≤ pc.stepsLeft front + 2 * pc.toClaim := by
  cases pc with
  | loaded v f =>
    simp only [Producer.stepsLeft, Producer.toClaim]
    split <;> split <;> omega
  | passed v f =>
    simp only [Producer.stepsLeft, Producer.toClaim]
    split <;> split <;> omega
  | _ => exact Nat.le_add_right _ _

variable [DecidableEq P] {ps : Finset P} {cap : ℕ} {s t : State P α} {p : P}

/-- A sum over the producers after one of them has moved. -/
theorem sum_goto (hp : p ∈ ps) (w : Producer α → ℕ) (f : P → Producer α) (pc : Producer α) :
    (∑ q ∈ ps, w (Function.update f p pc q)) = w pc + ∑ q ∈ ps.erase p, w (f q) := by
  rw [← Finset.add_sum_erase ps _ hp, Function.update_self]
  congr 1
  refine Finset.sum_congr rfl ?_
  intro q hq
  rw [Function.update_of_ne (Finset.ne_of_mem_erase hq)]

/-- The others that have yet to claim are fewer than `ps`. -/
theorem others_lt (hp : p ∈ ps) : (∑ q ∈ ps.erase p, (s.producer q).toClaim) + 1 ≤ ps.card := by
  have hsum : (∑ q ∈ ps.erase p, (s.producer q).toClaim) ≤ ∑ q ∈ ps.erase p, 1 :=
    Finset.sum_le_sum fun q _ => toClaim_le (s.producer q)
  rw [Finset.sum_const, smul_eq_mul, Nat.mul_one, Finset.card_erase_of_mem hp] at hsum
  have := Finset.card_pos.mpr ⟨p, hp⟩
  omega

/-- The potential, with the part of one producer apart. -/
theorem potential_eq (hp : p ∈ ps) (s : State P α) :
    s.potential ps = (s.producer p).stepsLeft s.ring.front +
      (∑ q ∈ ps.erase p, (s.producer q).stepsLeft s.ring.front) +
        pairs ((s.producer p).toClaim + ∑ q ∈ ps.erase p, (s.producer q).toClaim) := by
  rw [State.potential, Finset.add_sum_erase ps (fun q => (s.producer q).stepsLeft s.ring.front) hp,
    Finset.add_sum_erase ps (fun q => (s.producer q).toClaim) hp]

/-- A producer that moves where `front` stays. -/
theorem potential_goto (hp : p ∈ ps) (s : State P α) (pc : Producer α) :
    (s.goto p pc).potential ps = pc.stepsLeft s.ring.front +
      (∑ q ∈ ps.erase p, (s.producer q).stepsLeft s.ring.front) +
        pairs (pc.toClaim + ∑ q ∈ ps.erase p, (s.producer q).toClaim) := by
  rw [State.potential]
  simp only [State.goto]
  rw [sum_goto hp (fun pc => pc.stepsLeft s.ring.front), sum_goto hp Producer.toClaim]

omit [DecidableEq P] in
/-- The potential does not look further than the producers and `front`. -/
theorem potential_congr (hprod : t.producer = s.producer) (hfront : t.ring.front = s.ring.front) :
    t.potential ps = s.potential ps := by
  rw [State.potential, State.potential, hprod, hfront]

/-- A producer comes nearer the end of its call where `front` stays. -/
theorem potential_nearer (hp : p ∈ ps) (pc : Producer α)
    (hsteps : pc.stepsLeft s.ring.front + 1 ≤ (s.producer p).stepsLeft s.ring.front)
    (hclaim : pc.toClaim ≤ (s.producer p).toClaim) :
    (s.goto p pc).potential ps + 1 ≤ s.potential ps := by
  rw [potential_goto hp, potential_eq hp s]
  have hpairs : ∀ m n : ℕ, m ≤ n → pairs m ≤ pairs n := fun m n h =>
    Nat.mul_le_mul h (Nat.sub_le_sub_right h 1)
  have := hpairs _ _ (Nat.add_le_add_right hclaim (∑ q ∈ ps.erase p, (s.producer q).toClaim))
  omega

/-- A claim takes two steps from each other producer that has yet to claim, and what its pairs with
    these hold. -/
theorem potential_claim (hp : p ∈ ps) {v : α} (hpc : s.producer p = .passed v s.ring.front)
    (ht : t.producer = Function.update s.producer p (.claimed v s.ring.front)) :
    t.potential ps + 1 ≤ s.potential ps := by
  have hothers : (∑ q ∈ ps.erase p, (s.producer q).stepsLeft t.ring.front) ≤
      (∑ q ∈ ps.erase p, (s.producer q).stepsLeft s.ring.front) +
        2 * ∑ q ∈ ps.erase p, (s.producer q).toClaim := by
    rw [Finset.mul_sum, ← Finset.sum_add_distrib]
    exact Finset.sum_le_sum fun q _ => stepsLeft_stale _ _ _
  rw [potential_eq hp s, State.potential, ht, sum_goto hp (fun pc => pc.stepsLeft t.ring.front),
    sum_goto hp Producer.toClaim, hpc]
  have hpassed : (Producer.passed v s.ring.front).stepsLeft s.ring.front = 3 := if_pos rfl
  have hclaimed : (Producer.claimed v s.ring.front).stepsLeft t.ring.front = 2 := rfl
  have hbefore : (Producer.passed v s.ring.front).toClaim = 1 := rfl
  have hafter : (Producer.claimed v s.ring.front).toClaim = 0 := rfl
  rw [hpassed, hclaimed, hbefore, hafter, Nat.add_comm 1, pairs_succ, Nat.zero_add]
  omega

/-! ### Steps -/

/-- STEP: a step of a producer in its call pays for itself. -/
theorem produce_potential (hp : p ∈ ps) (h : produce cap s p = some t) :
    t.potential ps + 1 ≤ s.potential ps := by
  unfold produce at h
  cases hpc : s.producer p with
  | idle => rw [hpc] at h; cases h
  | enter v =>
    rw [hpc] at h
    cases h
    exact potential_nearer hp _ (by rw [hpc]; simp [Producer.stepsLeft]) (by rw [hpc]; exact le_refl _)
  | loaded v f =>
    rw [hpc] at h
    simp only at h
    split at h
    · cases h
      refine potential_nearer hp _ ?_ (Nat.zero_le _)
      rw [hpc]
      simp only [Producer.stepsLeft]
      split <;> omega
    · cases h
      refine potential_nearer hp _ ?_ (by rw [hpc]; exact le_refl _)
      rw [hpc]
      simp only [Producer.stepsLeft]
      split <;> omega
  | passed v f =>
    rw [hpc] at h
    simp only at h
    split at h
    · rename_i hf
      subst hf
      cases h
      exact potential_claim hp hpc rfl
    · rename_i hf
      cases h
      refine potential_nearer hp _ ?_ (by rw [hpc]; exact le_refl _)
      rw [hpc]
      simp only [Producer.stepsLeft, if_true]
      rw [if_neg (Ne.symm hf)]
  | claimed v f =>
    rw [hpc] at h
    cases h
    exact potential_nearer hp (.filled f) (by rw [hpc]; exact le_refl _) (Nat.zero_le _)
  | filled f =>
    rw [hpc] at h
    cases h
    exact potential_nearer hp .idle (by rw [hpc]; exact le_refl _) (Nat.zero_le _)

/-- A call adds the steps it takes alone, and two for each pair it makes. -/
theorem potential_call (hp : p ∈ ps) (hidle : s.producer p = .idle) (v : α) :
    (s.goto p (.enter v)).potential ps ≤ s.potential ps + (2 * ps.card + 3) := by
  have hothers := others_lt (s := s) hp
  have henter : (Producer.enter v).stepsLeft s.ring.front = 5 := rfl
  have hclaim : (Producer.enter v).toClaim = 1 := rfl
  have hidle₁ : (Producer.idle : Producer α).stepsLeft s.ring.front = 0 := rfl
  have hidle₂ : (Producer.idle : Producer α).toClaim = 0 := rfl
  rw [potential_goto hp, potential_eq hp s, hidle, henter, hclaim, hidle₁, hidle₂, Nat.add_comm 1,
    pairs_succ, Nat.zero_add, Nat.zero_add]
  omega

/-- A CAS that fails for no reason leaves a fresh copy of `front`. -/
theorem potential_spurious (hp : p ∈ ps) {v : α} {f : ℤ} (hpc : s.producer p = .passed v f) :
    (s.goto p (.loaded v s.ring.front)).potential ps ≤ s.potential ps + 1 := by
  have hloaded : (Producer.loaded v s.ring.front).stepsLeft s.ring.front = 4 := if_pos rfl
  have hpassed : 3 ≤ (Producer.passed v f).stepsLeft s.ring.front := by
    simp only [Producer.stepsLeft]
    split <;> omega
  have hclaim : (Producer.loaded v s.ring.front).toClaim = (Producer.passed v f).toClaim := rfl
  rw [potential_goto hp, potential_eq hp s, hpc, hloaded, hclaim]
  omega

omit [DecidableEq P] in
/-- The consumer moves neither a producer nor `front`. -/
theorem consume_front (h : consume cap s = some t) :
    t.producer = s.producer ∧ t.ring.front = s.ring.front := by
  unfold consume at h
  split at h
  case h_1 => cases h
  case h_3 => split at h <;> cases h <;> exact ⟨rfl, rfl⟩
  case h_7 =>
    simp only at h
    split at h <;> cases h <;> exact ⟨rfl, rfl⟩
  all_goals cases h; exact ⟨rfl, rfl⟩

/-- INVARIANT: only the producers `ps` are in a call. -/
def OnlyFrom (ps : Finset P) (s : State P α) : Prop := ∀ p, p ∉ ps → s.producer p = .idle

theorem OnlyFrom.goto (h : OnlyFrom ps s) (hp : p ∈ ps) (pc : Producer α) :
    OnlyFrom ps (s.goto p pc) := by
  intro q hq
  have hqp : q ≠ p := fun he => hq (he ▸ hp)
  simp only [State.goto, Function.update_of_ne hqp]
  exact h q hq

/-- A producer's step leaves the others where they are. -/
theorem produce_goto (h : produce cap s p = some t) :
    ∃ pc, t.producer = Function.update s.producer p pc := by
  unfold produce at h
  split at h
  case h_1 => cases h
  case h_3 => split at h <;> cases h <;> exact ⟨_, rfl⟩
  case h_4 => split at h <;> cases h <;> exact ⟨_, rfl⟩
  all_goals cases h; exact ⟨_, rfl⟩

/-- STEP: every step is paid for. -/
theorem step_potential {a : Action P α} (h : OnlyFrom ps s) (ha : CallsFrom ps a)
    (hs : step cap s a = some t) : OnlyFrom ps t ∧
      t.potential ps + (if a.isProducerStep then 1 else 0) ≤ s.potential ps + a.income ps := by
  obtain ⟨u, hu, rfl⟩ := Option.map_eq_some_iff.mp hs
  -- the look at the ring moves nobody
  have hnote : (u.noteFull cap).potential ps = u.potential ps := rfl
  rw [hnote]
  cases a with
  | enqueue p v =>
    simp only [act] at hu
    split at hu
    · rename_i hidle
      cases hu
      exact ⟨h.goto ha _, potential_call ha hidle v⟩
    · cases hu
  | produce p =>
    have hp : p ∈ ps := by
      by_contra hp
      simp only [act, produce, h p hp] at hu
      cases hu
    obtain ⟨pc, hpc⟩ := produce_goto hu
    refine ⟨?_, produce_potential hp hu⟩
    intro q hq
    exact (congrFun hpc q).trans ((h.goto hp pc) q hq)
  | casFails p =>
    simp only [act] at hu
    split at hu
    · rename_i v f hpc
      have hp : p ∈ ps := by
        by_contra hp
        rw [h p hp] at hpc
        cases hpc
      cases hu
      exact ⟨h.goto hp _, Nat.succ_le_succ (potential_spurious hp hpc)⟩
    · cases hu
  | dequeue =>
    simp only [act] at hu
    split at hu
    · cases hu
      exact ⟨h, le_refl _⟩
    · cases hu
  | dequeueBulk maxOut =>
    simp only [act] at hu
    split at hu
    · cases hu
      exact ⟨h, le_refl _⟩
    · cases hu
  | consume =>
    obtain ⟨hprod, hfront⟩ := consume_front hu
    refine ⟨?_, (potential_congr hprod hfront).le⟩
    intro q hq
    exact (congrFun hprod q).trans (h q hq)

/-! ### Runs -/

omit [DecidableEq P] in
theorem income_sum (ps : Finset P) (as : List (Action P α)) :
    (as.map (Action.income ps)).sum =
      (2 * ps.card + 3) * as.countP Action.isCall + 2 * as.countP Action.isSpurious := by
  induction as with
  | nil => rfl
  | cons a as ih =>
    rw [List.map_cons, List.sum_cons, List.countP_cons, List.countP_cons, ih]
    cases a <;> simp [Action.income, Action.isCall, Action.isSpurious] <;> ring

omit [DecidableEq P] in
/-- A producer in a call holds some of the potential. -/
theorem potential_pos (hp : p ∈ ps) (hbusy : s.producer p ≠ .idle) : 0 < s.potential ps := by
  have hown : 0 < (s.producer p).stepsLeft s.ring.front := by
    cases hpc : s.producer p with
    | idle => exact absurd hpc hbusy
    | loaded v f =>
      simp only [Producer.stepsLeft]
      split <;> omega
    | passed v f =>
      simp only [Producer.stepsLeft]
      split <;> omega
    | _ => simp only [Producer.stepsLeft]; omega
  have hle := Finset.single_le_sum (f := fun q => (s.producer q).stepsLeft s.ring.front)
    (fun q _ => Nat.zero_le _) hp
  rw [State.potential]
  exact Nat.add_pos_left (lt_of_lt_of_le hown hle) _

omit [DecidableEq P] in
/-- A producer in a call has a step to take. -/
theorem produce_enabled [DecidableEq P] (hbusy : s.producer p ≠ .idle) :
    (produce cap s p).isSome = true := by
  unfold produce
  cases hpc : s.producer p with
  | idle => exact absurd hpc hbusy
  | loaded v f => simp only; split <;> rfl
  | passed v f => simp only; split <;> rfl
  | _ => rfl

/-- CORRECT: in every run the producers `ps` take no more than `2 |ps| + 3` steps for each call they
    have made, and 2 for each CAS that failed for no reason, however the consumer moves; and as long as
    one of them is in a call they have not yet taken them all, and it can go on. -/
theorem lockFree_run (junk : ℤ → α) {as : List (Action P α)} (has : ∀ a ∈ as, CallsFrom ps a)
    (hr : run (step cap) (State.new junk) as = some s) :
    as.countP Action.isProducerStep ≤
        (2 * ps.card + 3) * as.countP Action.isCall + 2 * as.countP Action.isSpurious ∧
      ∀ p, s.producer p ≠ .idle → (produce cap s p).isSome = true ∧
        as.countP Action.isProducerStep <
          (2 * ps.card + 3) * as.countP Action.isCall + 2 * as.countP Action.isSpurious := by
  have hstep : ∀ (u : State P α) a v, OnlyFrom ps u → CallsFrom ps a → step cap u a = some v →
      OnlyFrom ps v ∧ v.potential ps + (if a.isProducerStep then 1 else 0) ≤
        u.potential ps + a.income ps := fun u a v hI hG hs => step_potential hI hG hs
  have hnew : OnlyFrom ps (State.new junk : State P α) := fun _ _ => rfl
  have hbudget := run_budget (State.potential ps) (fun a => if a.isProducerStep then 1 else 0)
    (Action.income ps) hstep as (meets_of_forall has _) hnew hr
  have honly := run_inv (I := OnlyFrom ps) (fun u a v hI hG hs => (hstep u a v hI hG hs).1) as
    (meets_of_forall has _) hnew hr
  have hzero : (State.new junk : State P α).potential ps = 0 := by
    rw [State.potential]
    simp only [State.new, Producer.stepsLeft, Producer.toClaim, Finset.sum_const_zero]
    rfl
  rw [sum_ones, income_sum, hzero, Nat.zero_add] at hbudget
  refine ⟨by omega, ?_⟩
  intro p hbusy
  have hp : p ∈ ps := by
    by_contra hp
    exact hbusy (honly p hp)
  have := potential_pos hp hbusy
  exact ⟨produce_enabled hbusy, by omega⟩

/-- Two producers load `front`; one claims, so that the other has to go round again. -/
def crossing : List (Action Bool ℕ) :=
  [.enqueue false 7, .enqueue true 8, .produce false, .produce true, .produce false, .produce true,
    .produce false, .produce true]

theorem lockFree_run_crossing : ∃ s : State Bool ℕ,
    run (step 4) (State.new fun _ => 0) crossing = some s ∧ (produce 4 s true).isSome = true ∧
      crossing.countP Action.isProducerStep <
        (2 * (Finset.univ : Finset Bool).card + 3) * crossing.countP Action.isCall +
          2 * crossing.countP Action.isSpurious := by
  have hcalls : ∀ a ∈ crossing, CallsFrom (Finset.univ : Finset Bool) a := by
    intro a ha
    cases a <;> first | exact Finset.mem_univ _ | trivial
  refine ⟨_, rfl, ?_⟩
  obtain ⟨-, hbusy⟩ := lockFree_run (fun _ => 0) hcalls
    (rfl : run (step 4) (State.new fun _ => 0) crossing = some _)
  exact hbusy true (fun h => by cases h)

end Esp.RingThreads
