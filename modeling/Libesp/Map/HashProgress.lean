import Libesp.Schemes.Budget
import Libesp.Map.HashReferences

/-! @esp map | name:PointerHash | scheme:potential |
    source:src/map/pointer_hash.h (Put, Get), src/Context.cpp (MapStringToReference)

    How long a call can take beside any number of others. A thread that loses a CAS does not try the
    slot again, it goes on to the next; so nothing another thread does sends a probe back, and a call
    ends in as many steps of its own as the table has slots, up to a factor.

        Get    one step a slot, and the value                     capacity + 1
        Put    two steps a slot, and draw, store, offer         2 capacity + 3
        map    a Get and a Put                                   3 capacity + 4

    `stepsLeft` is what a thread may still take, from where it is. -/

namespace Esp.HashThreads
open Probe PointerHash Machine

variable {T K : Type} [DecidableEq T] [DecidableEq K] (sh : Shape K)

/-- How many slots a probe of `p` at `idx` has before it, its own included. -/
def slotsLeft (p : Option K) (idx : ℕ) : ℕ :=
  sh.capacity - (idx + (sh.capacity - sh.start p)) % sh.capacity

/-- The steps of a `Put` from its start. -/
def putSteps : ℕ := 2 * sh.capacity + 3

/-- What follows a `Get` for its caller. -/
def Caller.stepsAfterGet : Caller → ℕ
  | .direct => 0
  | .map => putSteps sh

/-- The steps a thread may still take in its call. -/
def Prober.stepsLeft : Prober K → ℕ
  | .idle => 0
  | .getPtr c p idx => slotsLeft sh p idx + 1 + c.stepsAfterGet sh
  | .getValue c _ _ => 1 + c.stepsAfterGet sh
  | .putPtr _ p idx => 2 * slotsLeft sh p idx + 3
  | .putCas _ p idx => 2 * slotsLeft sh p idx + 2
  | .putDraw _ _ _ => 3
  | .putStore _ _ _ _ => 2
  | .offer _ _ => 1

/-- Is the action a step of thread `t` in its call? -/
def Action.isStepOf (t : T) : Action T K → Bool
  | .go u | .casFails u => u = t
  | _ => false

/-- What the action lets thread `t` take, when it is a call of that thread. -/
def Action.allows (t : T) : Action T K → ℕ
  | .get u _ => if u = t then sh.capacity + 1 else 0
  | .put u _ => if u = t then putSteps sh else 0
  | .mapStringToReference u _ => if u = t then sh.capacity + 1 + putSteps sh else 0
  | _ => 0

variable {sh} {s s' : State T K} {t u : T}

/-! ### Slots -/

omit [DecidableEq K] in
theorem slotsLeft_start (p : Option K) : slotsLeft sh p (sh.start p) = sh.capacity := by
  have hlt := sh.start_lt p
  rw [slotsLeft, Nat.add_sub_cancel' hlt.le, Nat.mod_self, Nat.sub_zero]

variable (sh) in
omit [DecidableEq K] in
theorem slotsLeft_pos (p : Option K) (idx : ℕ) : 0 < slotsLeft sh p idx := by
  have hpos : 0 < sh.capacity := Nat.lt_of_le_of_lt (Nat.zero_le _) (sh.start_lt p)
  exact Nat.sub_pos_of_lt (Nat.mod_lt _ hpos)

omit [DecidableEq K] in
/-- The next slot of a probe has one slot less before it. -/
theorem slotsLeft_next {p : Option K} {idx idx' : ℕ} (h : sh.next p idx = some idx') :
    slotsLeft sh p idx' + 1 = slotsLeft sh p idx := by
  obtain ⟨rfl, hne⟩ := sh.next_some h
  have hlt := sh.start_lt p
  have hpos : 0 < sh.capacity := by omega
  have hplace : (idx + (sh.capacity - sh.start p)) % sh.capacity < sh.capacity := Nat.mod_lt _ hpos
  -- the place of the next slot in the round
  have hmod : ((idx + 1) % sh.capacity + (sh.capacity - sh.start p)) % sh.capacity =
      ((idx + (sh.capacity - sh.start p)) % sh.capacity + 1) % sh.capacity := by
    rw [Nat.mod_add_mod, Nat.mod_add_mod, Nat.add_right_comm]
  have hlast : (idx + (sh.capacity - sh.start p)) % sh.capacity + 1 ≠ sh.capacity := by
    intro he
    rw [he, Nat.mod_self] at hmod
    -- the round is over only back at the start
    have hdvd := Nat.dvd_of_mod_eq_zero hmod
    have hm : (idx + 1) % sh.capacity < sh.capacity := Nat.mod_lt _ hpos
    obtain ⟨q, hq⟩ := hdvd
    have hq1 : q = 1 := by
      have h2 : sh.capacity * q < sh.capacity * 2 := by omega
      have h3 := Nat.lt_of_mul_lt_mul_left h2
      have h4 : 0 < q := by
        rcases q with _ | q
        · omega
        · exact Nat.succ_pos q
      omega
    rw [hq1, Nat.mul_one] at hq
    omega
  have hsucc := Nat.mod_eq_of_lt (show (idx + (sh.capacity - sh.start p)) % sh.capacity + 1 <
    sh.capacity by omega)
  rw [slotsLeft, slotsLeft, hmod, hsucc]
  omega

/-! ### What a step leaves -/

omit [DecidableEq K] in
theorem ret_self (c : Caller) (p : Option K) (r : UInt32) (v : Bool) :
    (s.ret t c p r v).thread t = .idle :=
  Function.update_self ..

omit [DecidableEq K] in
theorem ret_other (hut : u ≠ t) (c : Caller) (p : Option K) (r : UInt32) (v : Bool) :
    (s.ret t c p r v).thread u = s.thread u :=
  Function.update_of_ne hut ..

variable (sh) in
omit [DecidableEq K] in
theorem afterGet_left (c : Caller) (p : Option K) (r : UInt32) :
    ((s.afterGet sh t c p r).thread t).stepsLeft sh ≤ c.stepsAfterGet sh := by
  cases c with
  | direct => exact (congrArg (Prober.stepsLeft sh) (ret_self ..)).le
  | map =>
    rcases afterGet_cases sh s t .map p r with ⟨h, -⟩ | h
    · rw [h, ret_self]
      exact Nat.zero_le _
    · rw [h, goto_self, Prober.stepsLeft, slotsLeft_start]
      exact le_refl _

omit [DecidableEq K] in
theorem afterGet_other (hut : u ≠ t) (c : Caller) (p : Option K) (r : UInt32) :
    (s.afterGet sh t c p r).thread u = s.thread u := by
  rcases afterGet_cases sh s t c p r with ⟨h, -⟩ | h
  · rw [h, ret_other hut]
  · rw [h, goto_other _ hut]

variable (sh) in
omit [DecidableEq K] in
theorem afterPut_left (c : Caller) (p : Option K) (r : UInt32) :
    ((s.afterPut t c p r).thread t).stepsLeft sh ≤ 1 := by
  rcases afterPut_cases s t c p r with ⟨h, -⟩ | ⟨h, -⟩ | ⟨h, -⟩
  · rw [h, ret_self]
    exact Nat.zero_le _
  · rw [h, goto_self]
    exact le_refl _
  · rw [h, ret_self]
    exact Nat.zero_le _

omit [DecidableEq K] in
theorem afterPut_other (hut : u ≠ t) (c : Caller) (p : Option K) (r : UInt32) :
    (s.afterPut t c p r).thread u = s.thread u := by
  rcases afterPut_cases s t c p r with ⟨h, -⟩ | ⟨h, -⟩ | ⟨h, -⟩
  · rw [h, ret_other hut]
  · rw [h, goto_other _ hut]
  · rw [h, ret_other hut]

variable (sh) in
omit [DecidableEq K] in
/-- A `Put` that goes on has less than at the slot it leaves. -/
theorem nextStep_left (c : Caller) (p : Option K) (idx : ℕ) :
    ((s.nextStep sh t c p idx).thread t).stepsLeft sh + 1 ≤ 2 * slotsLeft sh p idx + 2 := by
  rcases nextStep_cases sh s t c p idx with ⟨idx', hn, h⟩ | ⟨-, h⟩
  · have hleft := slotsLeft_next hn
    rw [h, goto_self, Prober.stepsLeft]
    omega
  · rw [h, ret_self, Prober.stepsLeft]
    omega

omit [DecidableEq K] in
theorem nextStep_other (hut : u ≠ t) (c : Caller) (p : Option K) (idx : ℕ) :
    (s.nextStep sh t c p idx).thread u = s.thread u := by
  rcases nextStep_cases sh s t c p idx with ⟨idx', -, h⟩ | ⟨-, h⟩
  · rw [h, goto_other _ hut]
  · rw [h, ret_other hut]

/-- STEP: a step of a thread's own brings it nearer the end of its call, and no other thread
    further from the end of its. -/
theorem go_left (h : go sh s t = some s') :
    (s'.thread t).stepsLeft sh + 1 ≤ (s.thread t).stepsLeft sh ∧
      ∀ u, u ≠ t → s'.thread u = s.thread u := by
  unfold go at h
  cases ht : s.thread t with
  | idle => rw [ht] at h; cases h
  | getPtr c p idx =>
    have hpos := slotsLeft_pos sh p idx
    have hmiss : s' = s.afterGet sh t c p noRef →
        (s'.thread t).stepsLeft sh + 1 ≤ slotsLeft sh p idx + 1 + c.stepsAfterGet sh ∧
          ∀ u, u ≠ t → s'.thread u = s.thread u := by
      rintro rfl
      have hleft := afterGet_left sh (s := s) (t := t) c p noRef
      exact ⟨by omega, fun u hu => afterGet_other hu c p noRef⟩
    rw [ht] at h
    simp only at h
    split at h
    · cases h
      rw [goto_self, Prober.stepsLeft, Prober.stepsLeft]
      exact ⟨by omega, fun u hu => goto_other _ hu⟩
    · split at h
      · cases h
        exact hmiss rfl
      · split at h
        · rename_i idx' hn
          cases h
          have hnext := slotsLeft_next hn
          rw [goto_self, Prober.stepsLeft, Prober.stepsLeft]
          exact ⟨by omega, fun u hu => goto_other _ hu⟩
        · cases h
          exact hmiss rfl
  | getValue c p idx =>
    rw [ht] at h
    cases h
    have hleft := afterGet_left sh (s := s) (t := t) c p (UInt32.ofNat (s.table.value idx))
    rw [Prober.stepsLeft]
    exact ⟨by omega, fun u hu => afterGet_other hu c p _⟩
  | putPtr c p idx =>
    rw [ht] at h
    simp only at h
    split at h
    · cases h
      have hleft := afterPut_left sh (s := s) (t := t) c p noRef
      rw [Prober.stepsLeft]
      exact ⟨by omega, fun u hu => afterPut_other hu c p noRef⟩
    · split at h
      · cases h
        rw [goto_self, Prober.stepsLeft, Prober.stepsLeft]
        exact ⟨by omega, fun u hu => goto_other _ hu⟩
      · cases h
        have hleft := nextStep_left sh (s := s) (t := t) c p idx
        rw [Prober.stepsLeft]
        exact ⟨by omega, fun u hu => nextStep_other hu c p idx⟩
  | putCas c p idx =>
    have hpos := slotsLeft_pos sh p idx
    rw [ht] at h
    simp only at h
    split at h
    · cases h
      rw [Prober.stepsLeft]
      refine ⟨?_, fun u hu => goto_other _ hu⟩
      show ((s.goto t (.putDraw c p idx)).thread t).stepsLeft sh + 1 ≤ _
      rw [goto_self, Prober.stepsLeft]
      omega
    · cases h
      rw [Prober.stepsLeft]
      exact ⟨nextStep_left sh c p idx, fun u hu => nextStep_other hu c p idx⟩
  | putDraw c p idx =>
    rw [ht] at h
    cases h
    refine ⟨?_, fun u hu => goto_other _ hu⟩
    show ((s.goto t _).thread t).stepsLeft sh + 1 ≤ _
    rw [goto_self]
    exact le_refl _
  | putStore c p idx i =>
    rw [ht] at h
    cases h
    have hleft := afterPut_left sh
      (s := { s with table := { s.table with value := Function.update s.table.value idx i } })
      (t := t) c p (UInt32.ofNat i)
    rw [Prober.stepsLeft]
    exact ⟨by omega, fun u hu => afterPut_other hu c p _⟩
  | offer p r =>
    rw [ht] at h
    cases h
    refine ⟨?_, fun u hu => ret_other hu .map p r true⟩
    show ((s.ret t .map p r true).thread t).stepsLeft sh + 1 ≤ _
    rw [ret_self]
    exact le_refl _

/-- STEP: what thread `t` may take after any action, beside what the action is or allows. -/
theorem step_left {a : Action T K} (h : step sh s a = some s') (t : T) :
    (s'.thread t).stepsLeft sh + (if a.isStepOf t then 1 else 0) ≤
      (s.thread t).stepsLeft sh + a.allows sh t := by
  have hcall : ∀ u pc, s' = s.goto u pc → a.isStepOf t = false →
      (u = t → pc.stepsLeft sh ≤ a.allows sh t) →
      (s'.thread t).stepsLeft sh + (if a.isStepOf t then 1 else 0) ≤
        (s.thread t).stepsLeft sh + a.allows sh t := by
    rintro u pc rfl hstep hpc
    rw [hstep, if_neg Bool.false_ne_true]
    by_cases hut : u = t
    · subst hut
      have := hpc rfl
      rw [goto_self]
      omega
    · rw [goto_other pc (Ne.symm hut)]
      omega
  have hown : ∀ u, a.isStepOf t = decide (u = t) → ((s'.thread u).stepsLeft sh + 1 ≤
      (s.thread u).stepsLeft sh ∧ ∀ v, v ≠ u → s'.thread v = s.thread v) →
      (s'.thread t).stepsLeft sh + (if a.isStepOf t then 1 else 0) ≤
        (s.thread t).stepsLeft sh + a.allows sh t := by
    rintro u hstep ⟨hleft, hother⟩
    by_cases hut : u = t
    · subst hut
      rw [hstep, decide_eq_true rfl, if_pos rfl]
      omega
    · rw [hstep, decide_eq_false hut, if_neg Bool.false_ne_true, hother t (Ne.symm hut)]
      omega
  cases a with
  | get u p =>
    simp only [step] at h
    split at h
    · refine hcall u _ (Option.some.inj h).symm rfl ?_
      intro hut
      rw [Prober.stepsLeft, slotsLeft_start, Action.allows, if_pos hut]
      exact le_refl _
    · cases h
  | put u p =>
    simp only [step] at h
    split at h
    · refine hcall u _ (Option.some.inj h).symm rfl ?_
      intro hut
      rw [Prober.stepsLeft, slotsLeft_start, Action.allows, if_pos hut]
      exact le_refl _
    · cases h
  | mapStringToReference u p =>
    simp only [step] at h
    split at h
    · refine hcall u _ (Option.some.inj h).symm rfl ?_
      intro hut
      rw [Prober.stepsLeft, slotsLeft_start, Action.allows, if_pos hut]
      exact le_refl _
    · cases h
  | go u => exact hown u rfl (go_left h)
  | casFails u =>
    simp only [step] at h
    split at h
    · rename_i c p idx hu
      cases h
      refine hown u rfl ⟨?_, fun v hv => nextStep_other hv c p idx⟩
      rw [hu, Prober.stepsLeft]
      exact nextStep_left sh c p idx
    · cases h

omit [DecidableEq T] [DecidableEq K] in
theorem idle_of_left {pc : Prober K} (h : pc.stepsLeft sh = 0) : pc = .idle := by
  cases pc with
  | idle => rfl
  | _ => simp only [Prober.stepsLeft] at h; omega

/-- A thread in the middle of a call has a step to take. -/
theorem go_enabled (h : s.thread t ≠ .idle) : (go sh s t).isSome = true := by
  unfold go
  cases ht : s.thread t with
  | idle => exact absurd ht h
  | getPtr c p idx =>
    simp only
    split
    · rfl
    · split
      · rfl
      · split <;> rfl
  | putPtr c p idx =>
    simp only
    split
    · rfl
    · split <;> rfl
  | putCas c p idx =>
    simp only
    split <;> rfl
  | _ => rfl

/-- CORRECT: whatever the threads do beside each other, and however often a CAS fails for no reason, a
    thread takes no more steps than its calls allow it; it can go on until its call has returned, and
    has returned when it has taken them all. -/
theorem waitFree_run (sh : Shape K) {as : List (Action T K)} (hr : run (step sh) State.new as = some s)
    (t : T) :
    as.countP (Action.isStepOf t) ≤ (as.map (Action.allows sh t)).sum ∧
      (s.thread t ≠ .idle → (go sh s t).isSome = true ∧
        as.countP (Action.isStepOf t) < (as.map (Action.allows sh t)).sum) := by
  have hbudget := run_budget_free (fun s : State T K => (s.thread t).stepsLeft sh)
    (fun a => if a.isStepOf t then 1 else 0) (Action.allows sh t)
    (fun s a s' hs => step_left hs t) hr
  have hstart : ((State.new : State T K).thread t).stepsLeft sh = 0 := rfl
  rw [sum_ones, hstart, Nat.zero_add] at hbudget
  refine ⟨by omega, fun hbusy => ⟨go_enabled hbusy, ?_⟩⟩
  have hleft : (s.thread t).stepsLeft sh ≠ 0 := fun h => hbusy (idle_of_left h)
  omega

/-- Two threads put the same name; the second finds the slot free and loses the CAS. -/
def lostCas : List (Action Bool Addr) :=
  [.put false (some nameA), .go false, .put true (some nameA), .go true, .go false, .go true]

theorem waitFree_run_lostCas : ∃ s : State Bool Addr, run (step espStrings) State.new lostCas = some s ∧
    s.thread true ≠ .idle ∧ (go espStrings s true).isSome = true ∧
      lostCas.countP (Action.isStepOf true) < 32771 := by
  have hbusy : ∀ c p idx, (Prober.putPtr c p idx : Prober Addr) ≠ .idle :=
    fun _ _ _ h => by cases h
  refine ⟨_, rfl, hbusy .direct (some nameA) _, ?_⟩
  obtain ⟨-, hgo⟩ := waitFree_run espStrings
    (rfl : run (step espStrings) State.new lostCas = some _) true
  exact hgo (hbusy .direct (some nameA) _)

end Esp.HashThreads
