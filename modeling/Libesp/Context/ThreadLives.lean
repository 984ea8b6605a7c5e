import Libesp.Context.CallForest

/-! @esp context | name:ProfileContext | scheme:state-machine |
    source:src/Context.cpp (InitThread), src/Context.h (threadCount, threadContexts),
    src/ESPConfig.h (espMaxThreadCount), src/profile.h (esp_thread_init)

    Threads that start and exit while a session is open. A new thread has a null `_thread_context`; its
    first `esp_thread_init` or unpaused recording call draws the next index, and the context of a
    thread that exits goes to nobody else.

        start ─▶ null ─▶ InitThread: index threadCount++ ─▶ ··· ─▶ exit
                         └ one for each life, never given back

    So the 64 contexts are enough for 64 lives, however few of them overlap. -/

namespace Esp.Context
open Event PointerHash Machine

variable {T K : Type}

/-- The process and the threads alive in it. -/
structure Living (T K : Type) where
  process : Process T K
  alive : Finset T

/-- A thread starts or exits, or somebody calls. A thread that has exited may leave its name to a new
    one. -/
inductive Life (T K : Type) where
  | start (t : T)
  | exit (t : T)
  | call (a : Action T K)

/-- The thread that makes the call, where the call is a thread's own. -/
def Action.caller : Action T K → Option T
  | .record t _ _ => some t
  | .threadInit t => some t
  | .frameEnd _ => none
  | .setPaused _ => none
  | .drainEvents _ => none
  | .drainString => none

variable [DecidableEq T]

/-- A new thread: its `_thread_context` is null. -/
def Process.fresh (P : Process T K) (t : T) : Process T K :=
  { P with threadContext := Function.update P.threadContext t none }

def life [DecidableEq K] (sh : Shape K) (s : Living T K) : Life T K → Option (Living T K)
  | .start t => if t ∈ s.alive then none else some ⟨s.process.fresh t, insert t s.alive⟩
  | .exit t => if t ∈ s.alive then some ⟨s.process, s.alive.erase t⟩ else none
  | .call a =>
    if ∀ t ∈ a.caller, t ∈ s.alive then (step sh s.process a).map fun P => ⟨P, s.alive⟩ else none

/-- The starts, exits and calls make sense, and at most `espMaxThreadCount` threads are alive at any
    moment. -/
def Legal : Finset T → List (Life T K) → Prop
  | alive, [] => alive.card ≤ espMaxThreadCount
  | alive, .start t :: as =>
    alive.card ≤ espMaxThreadCount ∧ t ∉ alive ∧ Legal (insert t alive) as
  | alive, .exit t :: as => alive.card ≤ espMaxThreadCount ∧ t ∈ alive ∧ Legal (alive.erase t) as
  | alive, .call a :: as =>
    alive.card ≤ espMaxThreadCount ∧ (∀ t ∈ a.caller, t ∈ alive) ∧ Legal alive as

/-- The call is the one by which its thread gets its context, when the threads `bound` have one. -/
def Action.binds (paused : Bool) (bound : Finset T) : Action T K → Option T
  | .record t _ _ => if paused = true ∨ t ∈ bound then none else some t
  | .threadInit t => if t ∈ bound then none else some t
  | .frameEnd _ => none
  | .setPaused _ => none
  | .drainEvents _ => none
  | .drainString => none

/-- Whether recording is paused after the call. -/
def Action.pauses (paused : Bool) : Action T K → Bool
  | .setPaused shouldPause => shouldPause
  | _ => paused

/-- How many threads get a context in the course of these starts, exits and calls; one name counts as
    often as its lives do. -/
def lives (paused : Bool) (bound : Finset T) : List (Life T K) → ℕ
  | [] => 0
  | .start t :: as => lives paused (bound.erase t) as
  | .exit _ :: as => lives paused bound as
  | .call a :: as =>
    match a.binds paused bound with
    | none => lives (a.pauses paused) bound as
    | some t => 1 + lives (a.pauses paused) (insert t bound) as

/-- Every live thread can get a context, no index is past the end, no two live threads share one, and
    a second `InitThread` changes nothing. -/
structure OwnContexts (s : Living T K) : Prop where
  given : ∀ t ∈ s.alive, ∃ P' p, s.process.espThreadInit t = some P' ∧ P'.threadContext t = some p
  inRange : ∀ t ∈ s.alive, ∀ p, s.process.threadContext t = some p →
    p.1 = s.process.session ∧ p.2 < espMaxThreadCount
  apart : ∀ t ∈ s.alive, ∀ u ∈ s.alive, ∀ p, s.process.threadContext t = some p →
    s.process.threadContext u = some p → t = u
  again : ∀ t ∈ s.alive, s.process.threadContext t ≠ none → s.process.espThreadInit t = some s.process

/-! ### What a call does to the threads' contexts -/

/-- The process in which thread `t` has just got the next context. -/
def Process.bindNext (P : Process T K) (C : ProfileContext K) (t : T) : Process T K :=
  { P with
    context := some { C with threadCount := C.threadCount + 1 }
    threadContext := Function.update P.threadContext t (some (P.session, C.threadCount)) }

/-- Between `P` and `P'`, no thread got a context. -/
structure SameThreads (P P' : Process T K) (n : ℕ) : Prop where
  context : ∃ C', P'.context = some C' ∧ C'.threadCount = n
  session : P'.session = P.session
  threadContext : P'.threadContext = P.threadContext

variable [DecidableEq K] {sh : Shape K} {P : Process T K} {C : ProfileContext K}

omit [DecidableEq T] [DecidableEq K] in
theorem sameThreads_map (hC : P.context = some C) {f : ProfileContext K → ProfileContext K}
    (hf : (f C).threadCount = C.threadCount) : ∃ P', P.mapContext f = some P' ∧
      SameThreads P P' C.threadCount ∧ P'.paused = P.paused :=
  ⟨_, mapContext_some hC f, ⟨⟨_, rfl, hf⟩, rfl, rfl⟩, rfl⟩

variable (sh) in
/-- STEP: a call whose thread has a context in range, or that is paused, binds nobody. -/
theorem step_bound (hC : P.context = some C) {a : Action T K}
    (ha : ∀ t ∈ a.caller, (∃ i, P.threadContext t = some (P.session, i) ∧ i < espMaxThreadCount) ∨
      a.binds P.paused ∅ = none) :
    ∃ P', step sh P a = some P' ∧ SameThreads P P' C.threadCount ∧
      P'.paused = a.pauses P.paused := by
  cases a with
  | record t now c =>
    rcases hp : P.paused with _ | _
    · rcases ha t rfl with ⟨i, ht, hi⟩ | hb
      · obtain ⟨hcount, -, -⟩ :=
          record_context sh (C.threadContexts i) C P.log.length now c
        exact ⟨_, espRecord_bound sh hp hC ht hi now c, ⟨⟨_, rfl, hcount⟩, rfl, rfl⟩, hp⟩
      · rw [Action.binds, hp, if_neg (by simp)] at hb
        cases hb
    · refine ⟨P, ?_, ⟨⟨C, hC, rfl⟩, rfl, rfl⟩, hp⟩
      rw [step, Process.espRecord, if_pos hp]
  | threadInit t =>
    rcases ha t rfl with ⟨i, ht, -⟩ | hb
    · exact ⟨P, espThreadInit_again ht, ⟨⟨C, hC, rfl⟩, rfl, rfl⟩, rfl⟩
    · rw [Action.binds, if_neg (Finset.notMem_empty t)] at hb
      cases hb
  | frameEnd now => exact sameThreads_map hC rfl
  | setPaused b => exact ⟨_, rfl, ⟨⟨C, hC, rfl⟩, rfl, rfl⟩, rfl⟩
  | drainEvents n => exact sameThreads_map hC rfl
  | drainString => exact sameThreads_map hC rfl

variable (sh) in
/-- A recording call of a thread whose index is past the end is undefined. -/
theorem espRecord_past (hp : P.paused = false) (hC : P.context = some C) {t : T} {i : ℕ}
    (ht : P.threadContext t = some (P.session, i)) (hi : espMaxThreadCount ≤ i) (now : Int64)
    (c : Call K) : P.espRecord sh t now c = none := by
  rw [Process.espRecord, if_neg (by rw [hp]; exact Bool.false_ne_true), espThreadInit_again ht,
    Option.bind_some]
  simp only [hC, ht]
  exact if_neg fun h => absurd h.2 (not_lt.mpr hi)

variable (sh) in
/-- STEP: the first call of a thread is that call made with the next context. -/
theorem step_first (hC : P.context = some C) {a : Action T K} {t : T}
    (ha : a.binds P.paused ∅ = some t) (hn : P.threadContext t = none) :
    step sh P a = step sh (P.bindNext C t) a := by
  have hinit : P.espThreadInit t = some (P.bindNext C t) := espThreadInit_fresh hC hn
  have hagain := (espThreadInit_idem hinit).1
  cases a with
  | record u now c =>
    rw [Action.binds] at ha
    split_ifs at ha with hu
    obtain rfl := Option.some.inj ha
    have hp : P.paused = false := eq_false_of_ne_true fun hp => hu (Or.inl hp)
    exact espRecord_threadInit sh hp hinit now c
  | threadInit u =>
    rw [Action.binds, if_neg (Finset.notMem_empty u)] at ha
    obtain rfl := Option.some.inj ha
    exact hinit.trans hagain.symm
  | frameEnd now => cases ha
  | setPaused b => cases ha
  | drainEvents n => cases ha
  | drainString => cases ha

omit [DecidableEq K] in
/-- A call that binds nobody is of a thread that is bound, or would bind no thread. -/
theorem Action.binds_none {a : Action T K} {paused : Bool} {bound : Finset T}
    (h : a.binds paused bound = none) :
    ∀ t ∈ a.caller, t ∈ bound ∨ a.binds paused ∅ = none := by
  cases a with
  | record u now c =>
    rintro t ht
    obtain rfl := Option.some.inj ht
    rw [Action.binds] at h ⊢
    split_ifs at h with hu
    rcases hu with hp | hu
    · exact Or.inr (if_pos (Or.inl hp))
    · exact Or.inl hu
  | threadInit u =>
    rintro t ht
    obtain rfl := Option.some.inj ht
    rw [Action.binds] at h
    split_ifs at h with hu
    exact Or.inl hu
  | frameEnd now => exact fun t ht => by cases ht
  | setPaused b => exact fun t ht => by cases ht
  | drainEvents n => exact fun t ht => by cases ht
  | drainString => exact fun t ht => by cases ht

omit [DecidableEq K] in
/-- A call that binds a thread is that thread's, and it has no context yet. -/
theorem Action.binds_some {a : Action T K} {paused : Bool} {bound : Finset T} {t : T}
    (h : a.binds paused bound = some t) :
    a.caller = some t ∧ t ∉ bound ∧ a.binds paused ∅ = some t ∧ a.pauses paused = paused := by
  cases a with
  | record u now c =>
    rw [Action.binds] at h ⊢
    split_ifs at h with hu
    obtain rfl := Option.some.inj h
    rw [not_or] at hu
    refine ⟨rfl, hu.2, if_neg ?_, rfl⟩
    rintro (hp | hmem)
    · exact hu.1 hp
    · exact Finset.notMem_empty u hmem
  | threadInit u =>
    rw [Action.binds] at h ⊢
    split_ifs at h with hu
    obtain rfl := Option.some.inj h
    exact ⟨rfl, hu, if_neg (Finset.notMem_empty u), rfl⟩
  | frameEnd now => cases h
  | setPaused b => cases h
  | drainEvents n => cases h
  | drainString => cases h

/-! ### The invariant -/

/-- INVARIANT: the threads of `bound` that are alive have contexts of their own, below `threadCount`;
    the other live threads have none. -/
structure LivesInv (s : Living T K) (C : ProfileContext K) (bound : Finset T) : Prop where
  context : s.process.context = some C
  bound : ∀ t ∈ s.alive, t ∈ bound ↔ s.process.threadContext t ≠ none
  range : ∀ t ∈ s.alive, ∀ p, s.process.threadContext t = some p →
    p.1 = s.process.session ∧ p.2 < C.threadCount
  inj : ∀ t ∈ s.alive, ∀ u ∈ s.alive, ∀ p, s.process.threadContext t = some p →
    s.process.threadContext u = some p → t = u

variable {s : Living T K} {bound : Finset T} {t : T}

omit [DecidableEq T] [DecidableEq K] in
theorem LivesInv.same (h : LivesInv s C bound) {P' : Process T K}
    (hs : SameThreads s.process P' C.threadCount) :
    ∃ C', LivesInv ⟨P', s.alive⟩ C' bound ∧ C'.threadCount = C.threadCount := by
  obtain ⟨⟨C', hC', hcount⟩, hsession, hctx⟩ := hs
  refine ⟨C', ⟨hC', ?_, ?_, ?_⟩, hcount⟩
  · rw [hctx]
    exact h.bound
  · rw [hctx, hsession, hcount]
    exact h.range
  · rw [hctx]
    exact h.inj

omit [DecidableEq K] in
/-- The next context is nobody's. -/
theorem LivesInv.bindNext (h : LivesInv s C bound) (t : T) :
    LivesInv ⟨s.process.bindNext C t, s.alive⟩ { C with threadCount := C.threadCount + 1 }
      (insert t bound) := by
  have hself : (s.process.bindNext C t).threadContext t = some (s.process.session, C.threadCount) :=
    Function.update_self ..
  have hother : ∀ u, u ≠ t →
      (s.process.bindNext C t).threadContext u = s.process.threadContext u := fun u hu =>
    Function.update_of_ne hu ..
  have howners := Owners.next ⟨h.range, h.inj⟩ t
  refine ⟨rfl, ?_, howners.bound, howners.inj⟩
  intro u hu
  by_cases hut : u = t
  · subst hut
    rw [hself]
    exact iff_of_true (Finset.mem_insert_self u bound) (Option.some_ne_none _)
  · rw [hother u hut, Finset.mem_insert, or_iff_right hut]
    exact h.bound u hu

omit [DecidableEq K] in
theorem LivesInv.start (h : LivesInv s C bound) (ht : t ∉ s.alive) :
    LivesInv ⟨s.process.fresh t, insert t s.alive⟩ C (bound.erase t) := by
  have hself : (s.process.fresh t).threadContext t = none := Function.update_self ..
  have hother : ∀ u ∈ s.alive,
      (s.process.fresh t).threadContext u = s.process.threadContext u := fun u hu =>
    Function.update_of_ne (by rintro rfl; exact ht hu) ..
  -- a live thread with a context was alive before
  have hold : ∀ u ∈ insert t s.alive, ∀ p, (s.process.fresh t).threadContext u = some p →
      u ∈ s.alive ∧ s.process.threadContext u = some p := by
    intro u hu p hp
    rcases Finset.mem_insert.mp hu with rfl | hu
    · rw [hself] at hp
      cases hp
    · exact ⟨hu, (hother u hu) ▸ hp⟩
  refine ⟨h.context, ?_, ?_, ?_⟩
  · intro u hu
    rcases Finset.mem_insert.mp hu with rfl | hmem
    · rw [hself]
      exact iff_of_false (Finset.notMem_erase u bound) (not_not_intro rfl)
    · have hut : u ≠ t := fun he => ht (he ▸ hmem)
      rw [hother u hmem, Finset.mem_erase, and_iff_right hut]
      exact h.bound u hmem
  · intro u hu p hp
    obtain ⟨hu, hp⟩ := hold u hu p hp
    exact h.range u hu p hp
  · intro u hu v hv p hpu hpv
    obtain ⟨hu, hpu⟩ := hold u hu p hpu
    obtain ⟨hv, hpv⟩ := hold v hv p hpv
    exact h.inj u hu v hv p hpu hpv

omit [DecidableEq K] in
theorem LivesInv.exit (h : LivesInv s C bound) (t : T) :
    LivesInv ⟨s.process, s.alive.erase t⟩ C bound where
  context := h.context
  bound u hu := h.bound u (Finset.mem_of_mem_erase hu)
  range u hu := h.range u (Finset.mem_of_mem_erase hu)
  inj u hu v hv := h.inj u (Finset.mem_of_mem_erase hu) v (Finset.mem_of_mem_erase hv)

omit [DecidableEq K] in
theorem LivesInv.ownContexts (h : LivesInv s C bound) (hle : C.threadCount ≤ espMaxThreadCount) :
    OwnContexts s := by
  refine ⟨?_, ?_, h.inj, ?_⟩
  · intro t _
    rcases hn : s.process.threadContext t with _ | p
    · exact ⟨_, _, espThreadInit_fresh h.context hn, Function.update_self ..⟩
    · exact ⟨_, p, espThreadInit_again hn, hn⟩
  · intro t ht p hp
    obtain ⟨hsession, hlt⟩ := h.range t ht p hp
    exact ⟨hsession, hlt.trans_le hle⟩
  · intro t _ hn
    obtain ⟨p, hp⟩ := Option.ne_none_iff_exists'.mp hn
    exact espThreadInit_again hp

/-! ### The session -/

variable (sh) in
/-- STEP: a call that binds nobody is defined and leaves the threads as they are. -/
theorem LivesInv.callBound (h : LivesInv s C bound) (hle : C.threadCount ≤ espMaxThreadCount)
    {a : Action T K} (hcaller : ∀ t ∈ a.caller, t ∈ s.alive)
    (hb : a.binds s.process.paused bound = none) :
    ∃ P' C', life sh s (.call a) = some ⟨P', s.alive⟩ ∧ LivesInv ⟨P', s.alive⟩ C' bound ∧
      C'.threadCount = C.threadCount ∧ P'.paused = a.pauses s.process.paused := by
  have hready : ∀ t ∈ a.caller,
      (∃ i, s.process.threadContext t = some (s.process.session, i) ∧ i < espMaxThreadCount) ∨
        a.binds s.process.paused ∅ = none := by
    intro t ht
    refine (Action.binds_none hb t ht).imp_left ?_
    intro hmem
    obtain ⟨p, hp⟩ := Option.ne_none_iff_exists'.mp ((h.bound t (hcaller t ht)).mp hmem)
    obtain ⟨hsession, hlt⟩ := h.range t (hcaller t ht) p hp
    exact ⟨p.2, by rw [hp, ← hsession], hlt.trans_le hle⟩
  obtain ⟨P', hs, hsame, hpaused⟩ := step_bound sh h.context hready
  obtain ⟨C', h', hcount⟩ := h.same hsame
  refine ⟨P', C', ?_, h', hcount, hpaused⟩
  rw [life, if_pos hcaller, hs, Option.map_some]

omit [DecidableEq K] in
/-- The thread that a call binds is alive and has no context. -/
theorem LivesInv.unbound (h : LivesInv s C bound) {a : Action T K}
    (hcaller : ∀ t ∈ a.caller, t ∈ s.alive) (hb : a.binds s.process.paused bound = some t) :
    t ∈ s.alive ∧ s.process.threadContext t = none := by
  obtain ⟨hcall, hnew, -⟩ := Action.binds_some hb
  have ht : t ∈ s.alive := hcaller t hcall
  refine ⟨ht, ?_⟩
  by_contra hne
  exact hnew ((h.bound t ht).mpr hne)

variable (sh) in
/-- STEP: while there is an index left, a call that binds a thread gives it that index. -/
theorem LivesInv.callFirst (h : LivesInv s C bound) (hlt : C.threadCount < espMaxThreadCount)
    {a : Action T K} (hcaller : ∀ t ∈ a.caller, t ∈ s.alive)
    (hb : a.binds s.process.paused bound = some t) :
    ∃ P' C', life sh s (.call a) = some ⟨P', s.alive⟩ ∧
      LivesInv ⟨P', s.alive⟩ C' (insert t bound) ∧ C'.threadCount = C.threadCount + 1 ∧
      P'.paused = a.pauses s.process.paused := by
  obtain ⟨hcall, -, hb₀, -⟩ := Action.binds_some hb
  obtain ⟨ht, hn⟩ := h.unbound hcaller hb
  have h' := h.bindNext t
  have hready : ∀ u ∈ a.caller, (∃ i, (s.process.bindNext C t).threadContext u =
      some (s.process.session, i) ∧ i < espMaxThreadCount) ∨
        a.binds s.process.paused ∅ = none := by
    intro u hu
    obtain rfl : t = u := Option.some.inj (hcall.symm.trans hu)
    exact Or.inl ⟨C.threadCount, Function.update_self .., hlt⟩
  obtain ⟨P', hs, hsame, hpaused⟩ := step_bound sh h'.context hready
  obtain ⟨C', h'', hcount⟩ := h'.same hsame
  refine ⟨P', C', ?_, h'', hcount, hpaused⟩
  rw [life, if_pos hcaller, step_first sh h.context hb₀ hn, hs, Option.map_some]

variable (sh) in
/-- STEP: with no index left, a call that binds a thread is undefined or gives it one past the end. -/
theorem LivesInv.callFull (h : LivesInv s C bound) (hfull : espMaxThreadCount ≤ C.threadCount)
    {a : Action T K} (hcaller : ∀ t ∈ a.caller, t ∈ s.alive)
    (hb : a.binds s.process.paused bound = some t) {as : List (Life T K)} :
    ¬ Always (life sh) OwnContexts s (.call a :: as) := by
  obtain ⟨hcall, -, hb₀, -⟩ := Action.binds_some hb
  obtain ⟨ht, hn⟩ := h.unbound hcaller hb
  have hself : (s.process.bindNext C t).threadContext t = some (s.process.session, C.threadCount) :=
    Function.update_self ..
  rintro ⟨-, s', hs, hrest⟩
  rw [life, if_pos hcaller, step_first sh h.context hb₀ hn] at hs
  obtain ⟨P', hcalled, rfl⟩ := Option.map_eq_some_iff.mp hs
  cases a with
  | record u now c =>
    obtain rfl := Option.some.inj hcall
    rw [Action.binds] at hb₀
    split_ifs at hb₀ with hpaused
    have hp : (s.process.bindNext C u).paused = false :=
      eq_false_of_ne_true fun hp => hpaused (Or.inl hp)
    rw [step, espRecord_past sh hp rfl hself hfull] at hcalled
    cases hcalled
  | threadInit u =>
    obtain rfl := Option.some.inj hcall
    obtain rfl := Option.some.inj ((espThreadInit_again hself).symm.trans hcalled)
    exact absurd (hrest.first.inRange _ ht _ hself).2 (not_lt.mpr hfull)
  | frameEnd now => cases hcall
  | setPaused b => cases hcall
  | drainEvents n => cases hcall
  | drainString => cases hcall

/-- RUN: from a state with an index to spare or none, the contexts are always the threads' own exactly
    when the indices drawn so far and those still to be drawn are no more than there are contexts. -/
theorem LivesInv.always_iff (h : LivesInv s C bound) (hle : C.threadCount ≤ espMaxThreadCount)
    {as : List (Life T K)} (has : Legal s.alive as) :
    Always (life sh) OwnContexts s as ↔
      C.threadCount + lives s.process.paused bound as ≤ espMaxThreadCount := by
  induction as generalizing s C bound with
  | nil => exact iff_of_true (h.ownContexts hle) hle
  | cons x as ih =>
    have hown := h.ownContexts hle
    cases x with
    | start t =>
      obtain ⟨-, ht, has⟩ := has
      have hs : life sh s (.start t) = some ⟨s.process.fresh t, insert t s.alive⟩ := if_neg ht
      rw [always_cons hs, and_iff_right hown]
      exact ih (h.start ht) hle has
    | exit t =>
      obtain ⟨-, ht, has⟩ := has
      have hs : life sh s (.exit t) = some ⟨s.process, s.alive.erase t⟩ := if_pos ht
      rw [always_cons hs, and_iff_right hown]
      exact ih (h.exit t) hle has
    | call a =>
      obtain ⟨-, hcaller, has⟩ := has
      rcases hb : a.binds s.process.paused bound with _ | t
      · obtain ⟨P', C', hs, h', hcount, hpaused⟩ := h.callBound sh hle hcaller hb
        rw [always_cons hs, and_iff_right hown, ih h' (hcount.trans_le hle) has, hcount]
        simp only [lives, hb, hpaused]
      · rcases Nat.lt_or_ge C.threadCount espMaxThreadCount with hlt | hfull
        · obtain ⟨P', C', hs, h', hcount, hpaused⟩ := h.callFirst sh hlt hcaller hb
          rw [always_cons hs, and_iff_right hown, ih h' (hcount.trans_le hlt) has, hcount]
          simp only [lives, hb, hpaused, Nat.add_assoc]
        · refine iff_of_false (h.callFull sh hfull hcaller hb) ?_
          simp only [lives, hb]
          omega

omit [DecidableEq K] in
/-- `esp_init` opens a session in which the calling thread has the first context. -/
theorem livesInv_espInit {ts : Finset T} {main : T} (hmain : main ∈ ts)
    (hfresh : ∀ t ∈ ts, P.threadContext t = none) (junk : Junk K) :
    ∃ P₀ C₀, P.espInit junk main = some P₀ ∧ LivesInv ⟨P₀, ts⟩ C₀ {main} ∧ C₀.threadCount = 1 ∧
      P₀.paused = P.paused := by
  let P₁ : Process T K :=
    { P with
      session := P.session + 1
      context := some (ProfileContext.new junk)
      log := [] }
  have h₁ : LivesInv ⟨P₁, ts⟩ (ProfileContext.new junk) ∅ := by
    have hnone : ∀ t ∈ ts, ∀ p, P₁.threadContext t ≠ some p := by
      intro t ht p hp
      exact Option.some_ne_none p (hp.symm.trans (hfresh t ht))
    refine ⟨rfl, ?_, fun t ht p hp => absurd hp (hnone t ht p),
      fun t ht _ _ p hp => absurd hp (hnone t ht p)⟩
    intro t ht
    exact iff_of_false (Finset.notMem_empty t) (not_not_intro (hfresh t ht))
  exact ⟨_, _, espThreadInit_fresh rfl (hfresh main hmain), h₁.bindNext main, rfl, rfl⟩

/-- EXACT: in a session with at most `espMaxThreadCount` threads alive at any moment, each live thread
    has a context of its own, in range, throughout exactly when no more than `espMaxThreadCount`
    threads get one in the whole session. -/
theorem ownContexts_iff (sh : Shape K) (junk : Junk K) {ts : Finset T} {main : T}
    {as : List (Life T K)} (hmain : main ∈ ts) (hfresh : ∀ t ∈ ts, P.threadContext t = none)
    (has : Legal ts as) :
    ∃ P₀, P.espInit junk main = some P₀ ∧
      (Always (life sh) OwnContexts ⟨P₀, ts⟩ as ↔
        1 + lives P.paused {main} as ≤ espMaxThreadCount) := by
  obtain ⟨P₀, C₀, hinit, h₀, hcount, hpaused⟩ := livesInv_espInit hmain hfresh junk
  refine ⟨P₀, hinit, ?_⟩
  have hle : C₀.threadCount ≤ espMaxThreadCount := by
    rw [hcount]
    decide
  rw [h₀.always_iff hle has, hcount, hpaused]

/-- A thread pool: `n` workers, one after the other, each of which calls `esp_thread_init` twice. -/
def pool : ℕ → List (Life Bool Addr)
  | 0 => []
  | n + 1 =>
    .start false :: .call (.threadInit false) :: .call (.threadInit false) :: .exit false :: pool n

theorem legal_pool (n : ℕ) : Legal {true} (pool n) := by
  induction n with
  | zero => exact (by decide : ({true} : Finset Bool).card ≤ 64)
  | succ n ih =>
    have hcard : (insert false {true} : Finset Bool).card ≤ 64 := by decide
    have hworker : ∀ t ∈ some false, t ∈ (insert false {true} : Finset Bool) := by decide
    have hback : (insert false {true} : Finset Bool).erase false = {true} := by decide
    refine ⟨by decide, by decide, hcard, hworker, hcard, hworker, hcard, by decide, ?_⟩
    rw [hback]
    exact ih

theorem lives_pool (n : ℕ) (bound : Finset Bool) : lives false bound (pool n) = n := by
  induction n generalizing bound with
  | zero => rfl
  | succ n ih =>
    simp only [pool, lives, Action.binds, Finset.notMem_erase, Finset.mem_insert_self, if_true,
      if_false, Action.pauses, ih]
    omega

/-- Eight workers, one after the other. -/
theorem ownContexts_iff_pool : ∃ P₀, Process.start.espInit (Junk.zero zoneName) true = some P₀ ∧
    Always (life espStrings) OwnContexts ⟨P₀, {true}⟩ (pool 8) := by
  obtain ⟨P₀, hinit, hiff⟩ := ownContexts_iff (P := (Process.start : Process Bool Addr)) espStrings
    (Junk.zero zoneName) (Finset.mem_singleton_self true) (fun _ _ => rfl) (legal_pool 8)
  exact ⟨P₀, hinit, hiff.mpr (by rw [Process.start, lives_pool]; decide)⟩

/-- REFUTED: with two threads alive at a time, the 64th worker's index is past the end. -/
theorem pool_pastEnd : Legal {true} (pool 64) ∧
    ∃ P₀, Process.start.espInit (Junk.zero zoneName) true = some P₀ ∧
      ¬ Always (life espStrings) OwnContexts ⟨P₀, {true}⟩ (pool 64) := by
  obtain ⟨P₀, C₀, hinit, h₀, hcount, hpaused⟩ := livesInv_espInit
    (P := (Process.start : Process Bool Addr)) (Finset.mem_singleton_self true) (fun _ _ => rfl)
    (Junk.zero zoneName)
  refine ⟨legal_pool 64, P₀, hinit, ?_⟩
  rw [h₀.always_iff (by rw [hcount]; decide) (legal_pool 64), hcount, hpaused, Process.start,
    lives_pool]
  decide

end Esp.Context
