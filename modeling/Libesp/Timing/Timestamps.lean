import Libesp.Context.NestedZones
import Libesp.Context.Sessions
import Libesp.Timing.Timespec

/-! @esp timing | name:_current_timestamp | scheme:state-machine |
    source:src/Timing.cpp (update_timestamp_thread, StartTimestampUpdate, StopTimestampUpdate),
    src/profile.cpp (esp_init, esp_shutdown), src/Context.cpp (StampEvent, End)

    The published time over several sessions. Each session's timer thread counts from its own first
    reading of the clock; what it finds in `_current_timestamp` is what the one before it left there,
    and until its first store the calls read that.

        timer      started ─▶ testing ─▶ sampling ─▶ storing ─▶ testing ─▶ ··· ─▶ finished
        published  7000 ···················· 7000        3          4  ···
                   └ left over                           └ the first store

    A call reads the published time once, and is one step here. A thread that stamped before the first
    store sees the time go back, unless it waits until what was left over is reached again
    (`inOrder_iff`). -/

namespace Esp.Timing
open Event PointerHash Machine
open Context (Process Entry Call Action Junk ThreadContext ProfileContext LocalStep OpenZone StackOk
  startOf zoneName)

variable {T K : Type}

/-- Where `update_timestamp_thread` is, with its locals; `finished` before the first session too. -/
inductive Timer where
  | started
  | testing (startTime : ℤ)
  | sampling (startTime : ℤ)
  | storing (startTime : ℤ) (lastTimeSpec : Timespec)
  | finished
  deriving DecidableEq

/-- The process, the published time and the timer thread of its session. -/
structure Timed (T K : Type) where
  process : Process T K
  currentTimestamp : Int64
  runTimestampThread : Bool
  timer : Timer
  /-- The reading that `CLOCK_MONOTONIC` gave last. -/
  clock : Timespec
  /-- History: what was published when the session was opened. -/
  leftOver : Int64
  /-- History: the number of calls logged in the session before its first store. -/
  firstStore : Option ℕ

def Timed.start (clock : Timespec) : Timed T K :=
  ⟨Process.start, 0, true, .finished, clock, 0, none⟩

inductive TimedAction (T K : Type) where
  | init (t : T) (junk : Junk K)
  /-- The timer thread reads the clock. -/
  | clockGettime (spec : Timespec)
  /-- The timer thread tests the flag, or stores. -/
  | timer
  /-- `esp_shutdown` clears the flag; then it joins the timer thread and deletes the context. -/
  | stop
  | shutdown
  | call (a : Action T K)

/-- The call with the clock reading it makes. -/
def readAt (now : Int64) : Action T K → Action T K
  | .record t _ c => .record t now c
  | .frameEnd _ => .frameEnd now
  | .threadInit t => .threadInit t
  | .setPaused shouldPause => .setPaused shouldPause
  | .drainEvents maxOut => .drainEvents maxOut
  | .drainString => .drainString

variable [DecidableEq T] [DecidableEq K] (sh : Shape K)

def timedStep (s : Timed T K) : TimedAction T K → Option (Timed T K)
  | .init t junk =>
    match s.process.context with
    | some _ => none
    | none => (s.process.espInit junk t).map fun P =>
      { s with
        process := P
        runTimestampThread := true
        timer := .started
        leftOver := s.currentTimestamp
        firstStore := none }
  | .clockGettime spec =>
    if spec.Normalised ∧ s.clock.nanos ≤ spec.nanos ∧ Fits64 (timespecToLinearMicroseconds spec) then
      match s.timer with
      | .started =>
        some { s with clock := spec, timer := .testing (timespecToLinearMicroseconds spec) }
      | .sampling startTime => some { s with clock := spec, timer := .storing startTime spec }
      | _ => none
    else none
  | .timer =>
    match s.timer with
    | .testing startTime =>
      if s.runTimestampThread then some { s with timer := .sampling startTime }
      else some { s with timer := .finished }
    | .storing startTime lastTimeSpec =>
      let now := timespecToLinearMicroseconds lastTimeSpec - startTime
      if Fits64 now then
        some { s with
          currentTimestamp := Int64.ofInt now
          timer := .testing startTime
          firstStore := some (s.firstStore.getD s.process.log.length) }
      else none
    | _ => none
  | .stop => s.process.context.map fun _ => { s with runTimestampThread := false }
  | .shutdown =>
    if s.runTimestampThread = false ∧ s.timer = .finished then
      s.process.espShutdown.map fun P => { s with process := P }
    else none
  | .call a =>
    (Context.step sh s.process (readAt s.currentTimestamp a)).map fun P => { s with process := P }

/-- In the calls of a session, each thread's stamps are not negative and do not go back, and no
    `esp_end` reads a time before the start of the zone it closes. -/
structure InOrder (log : List (T × Entry K)) : Prop where
  nonneg : ∀ x ∈ log, x.2.stamp ≠ none → 0 ≤ x.2.now.toInt
  forward : log.Pairwise fun x y => x.1 = y.1 → x.2.stamp ≠ none → y.2.stamp ≠ none →
    x.2.now.toInt ≤ y.2.now.toInt
  ends : ∀ x ∈ log, x.2.call = .endZone → ∀ ev, x.2.offered = some ev → startOf ev ≤ x.2.now.toInt

/-- The call gets as far as the clock: it stamps an event, or ends one. -/
def readsClock (t : ThreadContext) : Call K → Bool
  | .zone _ => t.profileIntervalStack.push.isSome
  | .endZone => t.profileIntervalStack.pop.isSome
  | .sample _ _ => true

/-- The calls logged before the first store of the session, and those after it. -/
def Timed.early (s : Timed T K) : List (T × Entry K) :=
  s.process.log.take (s.firstStore.getD s.process.log.length)

def Timed.late (s : Timed T K) : List (T × Entry K) :=
  s.process.log.drop (s.firstStore.getD s.process.log.length)

/-- The context that a recording call of the thread would go through. -/
def contextFor (P : Process T K) (t : T) : Option ThreadContext :=
  (P.espThreadInit t).bind fun P => P.context.bind fun C => (P.threadContext t).bind fun p =>
    if p.1 = P.session then some (C.threadContexts p.2) else none

/-- No thread that stamped before the first store of the session reads the clock after it, until the
    published time has come back to what was left over. -/
def CaughtUp (s : Timed T K) : TimedAction T K → Prop
  | .call (.record t _ c) => s.firstStore ≠ none → (∃ x ∈ s.early, x.1 = t ∧ x.2.stamp ≠ none) →
      s.process.paused = false → (∀ th ∈ contextFor s.process t, readsClock th c = true →
        s.leftOver.toInt ≤ s.currentTimestamp.toInt)
  | _ => True

instance (s : Timed T K) (a : TimedAction T K) : Decidable (CaughtUp s a) :=
  match a with
  | .init _ _ => isTrue trivial
  | .clockGettime _ => isTrue trivial
  | .timer => isTrue trivial
  | .stop => isTrue trivial
  | .shutdown => isTrue trivial
  | .call (.record t _ c) => inferInstanceAs (Decidable (s.firstStore ≠ none →
      (∃ x ∈ s.early, x.1 = t ∧ x.2.stamp ≠ none) → s.process.paused = false →
        ∀ th ∈ contextFor s.process t, readsClock th c = true →
          s.leftOver.toInt ≤ s.currentTimestamp.toInt))
  | .call (.threadInit _) => isTrue trivial
  | .call (.frameEnd _) => isTrue trivial
  | .call (.setPaused _) => isTrue trivial
  | .call (.drainEvents _) => isTrue trivial
  | .call .drainString => isTrue trivial

variable {sh} {P P' : Process T K} {C : ProfileContext K} {s s' : Timed T K} {t : T}

/-! ### The zones on the stacks -/

/-- INVARIANT: the contexts of the open session belong to one thread each, and the zones on the stack of
    one were stamped by that thread in this session, with the time the event has. -/
structure SessionLog (P : Process T K) (C : ProfileContext K) : Prop where
  bound : ∀ t i, P.threadContext t = some (P.session, i) → i < C.threadCount
  inj : ∀ t u i, P.threadContext t = some (P.session, i) → P.threadContext u = some (P.session, i) →
    t = u
  zones : ∀ i, ∃ st, StackOk (C.threadContexts i) st ∧ ∀ z ∈ st, ∃ x ∈ P.log,
    P.threadContext x.1 = some (P.session, i) ∧ x.2.stamp ≠ none ∧ x.2.now = z.event.data.timestamp

structure Traced (P : Process T K) : Prop where
  past : ∀ t p, P.threadContext t = some p → p.1 ≤ P.session
  session : ∀ C, P.context = some C → SessionLog P C

omit [DecidableEq T] [DecidableEq K] in
/-- What leaves the threads and the log alone. -/
theorem SessionLog.same (h : SessionLog P C) {D : ProfileContext K}
    (hcount : D.threadCount = C.threadCount) (hctx : D.threadContexts = C.threadContexts) :
    SessionLog { P with context := some D } D where
  bound := by rw [hcount]; exact h.bound
  inj := h.inj
  zones := by rw [hctx]; exact h.zones

omit [DecidableEq K] in
/-- A thread's first call gives it a context that is nobody's. -/
theorem SessionLog.bindNext (h : SessionLog P C) (hn : P.threadContext t = none) :
    SessionLog (P.bindNext C t) { C with threadCount := C.threadCount + 1 } := by
  have hself : (P.bindNext C t).threadContext t = some (P.session, C.threadCount) :=
    Function.update_self ..
  have hother : ∀ u, u ≠ t → (P.bindNext C t).threadContext u = P.threadContext u := fun u hu =>
    Function.update_of_ne hu ..
  have hnew : ∀ u, u ≠ t → (P.bindNext C t).threadContext u ≠ some (P.session, C.threadCount) := by
    intro u hu hp
    exact absurd (h.bound u _ ((hother u hu).symm.trans hp)) (lt_irrefl _)
  have hindex : ∀ i, (P.bindNext C t).threadContext t = some (P.session, i) → C.threadCount = i :=
    fun i hp => (Prod.mk.inj (Option.some.inj (hself.symm.trans hp))).2
  refine ⟨?_, ?_, ?_⟩
  · intro u i hp
    by_cases hut : u = t
    · subst hut
      exact hindex i hp ▸ Nat.lt_succ_self _
    · exact Nat.lt_succ_of_lt (h.bound u i ((hother u hut).symm.trans hp))
  · intro u v i hpu hpv
    by_cases hut : u = t <;> by_cases hvt : v = t
    · rw [hut, hvt]
    · subst hut
      obtain rfl := hindex i hpu
      exact absurd hpv (hnew v hvt)
    · subst hvt
      obtain rfl := hindex i hpv
      exact absurd hpu (hnew u hut)
    · exact h.inj u v i ((hother u hut).symm.trans hpu) ((hother v hvt).symm.trans hpv)
  · intro i
    obtain ⟨st, hst, hzones⟩ := h.zones i
    refine ⟨st, hst, ?_⟩
    intro z hz
    obtain ⟨x, hx, hctx, hstamp, hnow⟩ := hzones z hz
    have hxt : x.1 ≠ t := by
      intro he
      rw [he, hn] at hctx
      cases hctx
    exact ⟨x, hx, (hother x.1 hxt).trans hctx, hstamp, hnow⟩

omit [DecidableEq K] in
theorem Traced.threadInit (h : Traced P) (hinit : P.espThreadInit t = some P') : Traced P' := by
  rcases Context.espThreadInit_cases hinit with ⟨-, rfl⟩ | ⟨hn, C, hC, rfl⟩
  · exact h
  · refine ⟨?_, ?_⟩
    · intro u p hp
      by_cases hut : u = t
      · rw [hut] at hp
        simp only [Function.update_self, Option.some.injEq] at hp
        exact hp ▸ le_refl _
      · exact h.past u p ((Function.update_of_ne hut ..).symm.trans hp)
    · rintro D hD
      obtain rfl := Option.some.inj hD
      exact (h.session C hC).bindNext hn

omit [DecidableEq K] in
/-- Where the zones on the stack after a call come from. -/
theorem mem_of_localStep {cap i : ℕ} {st st' : List OpenZone} {e : Entry K}
    (h : LocalStep cap i st e st') :
    ∀ z ∈ st', z ∈ st ∨ (e.stamp ≠ none ∧ e.now = z.event.data.timestamp) := by
  intro z hz
  cases h with
  | zone frame hlt =>
    rcases List.mem_cons.mp hz with rfl | hz
    · exact Or.inr ⟨Option.some_ne_none _, rfl⟩
    · exact Or.inl hz
  | overflow hfull => exact Or.inl hz
  | close => exact Or.inl (List.mem_cons_of_mem _ hz)
  | stray => cases hz
  | sample frame => exact Or.inl hz

omit [DecidableEq T] in
variable (sh) in
/-- STEP: a recorded call. -/
theorem SessionLog.record (h : SessionLog P C) {i : ℕ}
    (hi : P.threadContext t = some (P.session, i)) (now : Int64) (c : Call K) :
    ∃ D, (P.recordIn sh C t i now c).context = some D ∧
      SessionLog (P.recordIn sh C t i now c) D := by
  obtain ⟨hcount, hctx, -⟩ :=
    Context.record_context sh (C.threadContexts i) C P.log.length now c
  refine ⟨_, rfl, ?_, h.inj, ?_⟩
  · intro u j hu
    exact (h.bound u j hu).trans_eq hcount.symm
  · intro j
    have hold : ∀ x, x ∈ P.log → x ∈ (P.recordIn sh C t i now c).log := fun x hx =>
      List.mem_append_left _ hx
    obtain ⟨st, hst, hzones⟩ := h.zones j
    by_cases hij : j = i
    · subst hij
      obtain ⟨st', hstep, hst'⟩ := Context.record_local C sh hst P.log.length now c
      refine ⟨st', ?_, ?_⟩
      · simp only [Function.update_self]
        exact hst'
      · intro z hz
        rcases mem_of_localStep hstep z hz with hz | ⟨hstamp, hnow⟩
        · obtain ⟨x, hx, hrest⟩ := hzones z hz
          exact ⟨x, hold x hx, hrest⟩
        · exact ⟨_, List.mem_append_right _ (List.mem_singleton_self _), hi, hstamp, hnow⟩
    · refine ⟨st, ?_, ?_⟩
      · simp only [Function.update_of_ne hij, hctx]
        exact hst
      · intro z hz
        obtain ⟨x, hx, hrest⟩ := hzones z hz
        exact ⟨x, hold x hx, hrest⟩

theorem Traced.record (h : Traced P) {now : Int64} {c : Call K}
    (hs : P.espRecord sh t now c = some P') : Traced P' := by
  rcases Context.espRecord_cases hs with
    ⟨-, rfl⟩ | ⟨-, hinit, -⟩ | ⟨-, P₁, C, i, hinit, hC, hi, -, rfl⟩
  · exact h
  · exact h.threadInit hinit
  · have h₁ := h.threadInit hinit
    obtain ⟨D, hD, hlog⟩ := (h₁.session C hC).record sh hi now c
    refine ⟨h₁.past, ?_⟩
    intro D' hD'
    obtain rfl := Option.some.inj (hD.symm.trans hD')
    exact hlog

omit [DecidableEq T] [DecidableEq K] in
theorem Traced.mapContext (h : Traced P) {f : ProfileContext K → ProfileContext K}
    (hs : P.mapContext f = some P') (hcount : ∀ C, (f C).threadCount = C.threadCount)
    (hctx : ∀ C, (f C).threadContexts = C.threadContexts) : Traced P' := by
  obtain ⟨C, hC, rfl⟩ := Option.map_eq_some_iff.mp hs
  refine ⟨h.past, ?_⟩
  rintro D hD
  obtain rfl := Option.some.inj hD
  exact (h.session C hC).same (hcount C) (hctx C)

omit [DecidableEq T] [DecidableEq K] in
theorem mapContext_log {f : ProfileContext K → ProfileContext K} (hs : P.mapContext f = some P') :
    P'.log = P.log := by
  obtain ⟨C, -, rfl⟩ := Option.map_eq_some_iff.mp hs
  rfl

omit [DecidableEq K] in
theorem Traced.espInit (h : Traced P) {junk : Junk K} (hinit : P.espInit junk t = some P') :
    Traced P' := by
  refine Traced.threadInit ⟨?_, ?_⟩ hinit
  · exact fun u p hp => Nat.le_succ_of_le (h.past u p hp)
  · rintro C hC
    obtain rfl := Option.some.inj hC
    -- no thread points into the new session
    have hnone : ∀ u i, P.threadContext u ≠ some (P.session + 1, i) := fun u i hp =>
      Nat.not_succ_le_self _ (h.past u _ hp)
    refine ⟨fun u i hp => absurd hp (hnone u i), fun u _ i hp => absurd hp (hnone u i), ?_⟩
    exact fun i => ⟨[], Context.stackOk_new i _, nofun⟩

/-- STEP: a call in a session keeps the stacks traced, and logs itself with its time or nothing. -/
theorem Traced.step (h : Traced P) {now : Int64} {a : Action T K}
    (hs : Context.step sh P (readAt now a) = some P') :
    Traced P' ∧ ∃ l, P'.log = P.log ++ l ∧ ∀ x ∈ l, x.2.now = now := by
  have hsame : ∀ {Q : Process T K}, Q.log = P.log →
      ∃ l, Q.log = P.log ++ l ∧ ∀ x ∈ l, x.2.now = now := fun hlog =>
    ⟨[], by rw [hlog, List.append_nil], nofun⟩
  cases a with
  | record t _ c =>
    refine ⟨h.record hs, ?_⟩
    rcases Context.espRecord_cases hs with
      ⟨-, rfl⟩ | ⟨-, hinit, -⟩ | ⟨-, P₁, C, i, hinit, -, -, -, rfl⟩
    · exact hsame rfl
    · exact hsame (Context.strings_threadInit hinit).2
    · refine ⟨[(t, ((C.threadContexts i).record sh C P₁.log.length now c).entry)], ?_, ?_⟩
      · rw [← (Context.strings_threadInit hinit).2]
        rfl
      · intro x hx
        obtain rfl := List.mem_singleton.mp hx
        exact (Context.record_entry sh (C.threadContexts i) C P₁.log.length now c).2.1
  | threadInit t => exact ⟨h.threadInit hs, hsame (Context.strings_threadInit hs).2⟩
  | frameEnd _ => exact ⟨h.mapContext hs (fun _ => rfl) fun _ => rfl, hsame (mapContext_log hs)⟩
  | setPaused b =>
    obtain rfl := Option.some.inj hs
    exact ⟨⟨h.past, fun C hC => ⟨(h.session C hC).bound, (h.session C hC).inj,
      (h.session C hC).zones⟩⟩, hsame rfl⟩
  | drainEvents n => exact ⟨h.mapContext hs (fun _ => rfl) fun _ => rfl, hsame (mapContext_log hs)⟩
  | drainString => exact ⟨h.mapContext hs (fun _ => rfl) fun _ => rfl, hsame (mapContext_log hs)⟩

/-! ### The published time -/

/-- The timer thread started no later than the clock says, and what it has published, if anything, is no
    more than the time since. -/
structure Behind (clock : Timespec) (firstStore : Option ℕ) (published : Int64) (startTime : ℤ) :
    Prop where
  started : startTime ≤ clock.nanos / 1000
  since : firstStore ≠ none → published.toInt ≤ clock.nanos / 1000 - startTime

def TimerOk (s : Timed T K) : Prop :=
  match s.timer with
  | .started => s.firstStore = none
  | .testing startTime => Behind s.clock s.firstStore s.currentTimestamp startTime
  | .sampling startTime => Behind s.clock s.firstStore s.currentTimestamp startTime
  | .storing startTime lastTimeSpec => Behind s.clock s.firstStore s.currentTimestamp startTime ∧
    lastTimeSpec = s.clock ∧ lastTimeSpec.Normalised
  | .finished => True

/-- INVARIANT: the calls before the first store read what was left over, and those after it no more
    than is published now. -/
structure TimedInv (s : Timed T K) : Prop where
  traced : Traced s.process
  timer : TimerOk s
  leftOver_nonneg : 0 ≤ s.leftOver.toInt
  current_nonneg : 0 ≤ s.currentTimestamp.toInt
  unstored : s.firstStore = none → s.currentTimestamp = s.leftOver
  cut : ∀ n, s.firstStore = some n → n ≤ s.process.log.length
  early : ∀ x ∈ s.early, x.2.now = s.leftOver
  late : ∀ x ∈ s.late, x.2.now.toInt ≤ s.currentTimestamp.toInt

omit [DecidableEq T] [DecidableEq K] in
theorem early_append_late (s : Timed T K) : s.early ++ s.late = s.process.log :=
  List.take_append_drop ..

omit [DecidableEq T] [DecidableEq K] in
theorem timedInv_start (clock : Timespec) : TimedInv (Timed.start clock : Timed T K) where
  traced := ⟨nofun, nofun⟩
  timer := trivial
  leftOver_nonneg := le_refl _
  current_nonneg := le_refl _
  unstored _ := rfl
  cut := nofun
  early := nofun
  late := nofun

omit [DecidableEq T] [DecidableEq K] in
/-- STEP: the process goes on, and logs calls that read the published time. -/
theorem TimedInv.logged (h : TimedInv s) (ht : Traced P') {l : List (T × Entry K)}
    (hlog : P'.log = s.process.log ++ l) (hl : ∀ x ∈ l, x.2.now = s.currentTimestamp) :
    TimedInv { s with process := P' } := by
  have hearly := h.early
  have hlate := h.late
  rw [Timed.early] at hearly
  rw [Timed.late] at hlate
  refine ⟨ht, h.timer, h.leftOver_nonneg, h.current_nonneg, h.unstored, ?_, ?_, ?_⟩
  · intro n hn
    rw [hlog, List.length_append]
    exact (h.cut n hn).trans (Nat.le_add_right _ _)
  · intro x hx
    rw [Timed.early] at hx
    rcases hstore : s.firstStore with _ | n
    · rw [hstore, Option.getD_none, List.take_length] at hearly
      simp only [hstore, Option.getD_none, List.take_length, hlog] at hx
      rcases List.mem_append.mp hx with hold | hnew
      · exact hearly x hold
      · rw [hl x hnew, h.unstored hstore]
    · rw [hstore, Option.getD_some] at hearly
      simp only [hstore, Option.getD_some, hlog, List.take_append_of_le_length (h.cut n hstore)] at hx
      exact hearly x hx
  · intro x hx
    rw [Timed.late] at hx
    rcases hstore : s.firstStore with _ | n
    · simp only [hstore, Option.getD_none, List.drop_length] at hx
      cases hx
    · rw [hstore, Option.getD_some] at hlate
      simp only [hstore, Option.getD_some, hlog, List.drop_append_of_le_length (h.cut n hstore)] at hx
      rcases List.mem_append.mp hx with hold | hnew
      · exact hlate x hold
      · rw [hl x hnew]

omit [DecidableEq T] [DecidableEq K] in
/-- STEP: the timer thread goes on without a store. -/
theorem TimedInv.timerOn (h : TimedInv s) {timer : Timer} {clock : Timespec} {go : Bool}
    (hok : TimerOk { s with timer := timer, clock := clock, runTimestampThread := go }) :
    TimedInv { s with timer := timer, clock := clock, runTimestampThread := go } :=
  ⟨h.traced, hok, h.leftOver_nonneg, h.current_nonneg, h.unstored, h.cut, h.early, h.late⟩

theorem Behind.later {clock spec : Timespec} {firstStore : Option ℕ} {published : Int64}
    {startTime : ℤ} (h : Behind clock firstStore published startTime)
    (hle : clock.nanos ≤ spec.nanos) : Behind spec firstStore published startTime := by
  have hdiv : clock.nanos / 1000 ≤ spec.nanos / 1000 := Int.ediv_le_ediv (by decide) hle
  exact ⟨h.started.trans hdiv, fun hstored => (h.since hstored).trans (by omega)⟩

omit [DecidableEq T] [DecidableEq K] in
/-- STEP: a store publishes no less than what was published in the session before. -/
theorem TimedInv.store (h : TimedInv s) {startTime : ℤ} {lastTimeSpec : Timespec}
    (htimer : s.timer = .storing startTime lastTimeSpec)
    (hfits : Fits64 (timespecToLinearMicroseconds lastTimeSpec - startTime)) :
    TimedInv { s with
      currentTimestamp := Int64.ofInt (timespecToLinearMicroseconds lastTimeSpec - startTime)
      timer := .testing startTime
      firstStore := some (s.firstStore.getD s.process.log.length) } := by
  have hok := h.timer
  rw [TimerOk, htimer] at hok
  obtain ⟨hbehind, rfl, hnormal⟩ := hok
  have hnow : (Int64.ofInt (timespecToLinearMicroseconds s.clock - startTime)).toInt =
      s.clock.nanos / 1000 - startTime := by
    rw [Int64.toInt_ofInt_of_le hfits.1 hfits.2, linear_eq hnormal.1]
  have hstarted := hbehind.started
  refine ⟨h.traced, ⟨hstarted, fun _ => hnow.le⟩, h.leftOver_nonneg, ?_, nofun, ?_, h.early, ?_⟩
  · rw [hnow]
    omega
  · intro n hn
    obtain rfl := Option.some.inj hn
    rcases hstore : s.firstStore with _ | n
    · exact le_refl _
    · exact h.cut n hstore
  · intro x hx
    have hx : x ∈ s.late := hx
    rcases hstore : s.firstStore with _ | n
    · simp only [Timed.late, hstore, Option.getD_none, List.drop_length] at hx
      cases hx
    · have hsince := hbehind.since (by rw [hstore]; exact Option.some_ne_none n)
      exact (h.late x hx).trans (hsince.trans hnow.ge)

theorem timedInv_step (h : TimedInv s) {a : TimedAction T K} (hs : timedStep sh s a = some s') :
    TimedInv s' := by
  cases a with
  | init t junk =>
    rw [timedStep] at hs
    split at hs
    · cases hs
    · obtain ⟨P, hinit, rfl⟩ := Option.map_eq_some_iff.mp hs
      have hlog : P.log = [] := (Context.strings_threadInit hinit).2
      refine ⟨h.traced.espInit hinit, rfl, h.current_nonneg, h.current_nonneg, fun _ => rfl, nofun,
        ?_, ?_⟩
      · intro x hx
        rw [Timed.early, hlog, List.take_nil] at hx
        cases hx
      · intro x hx
        rw [Timed.late, hlog, List.drop_nil] at hx
        cases hx
  | clockGettime spec =>
    rw [timedStep] at hs
    split_ifs at hs with hspec
    obtain ⟨hnormal, hle, -⟩ := hspec
    have htimer := h.timer
    rw [TimerOk] at htimer
    split at hs
    · rename_i hstate
      obtain rfl := Option.some.inj hs
      rw [hstate] at htimer
      exact h.timerOn ⟨(linear_eq hnormal.1).le, fun hstored => absurd htimer hstored⟩
    · rename_i startTime hstate
      obtain rfl := Option.some.inj hs
      rw [hstate] at htimer
      exact h.timerOn ⟨htimer.later hle, rfl, hnormal⟩
    · cases hs
  | timer =>
    rw [timedStep] at hs
    have htimer := h.timer
    rw [TimerOk] at htimer
    split at hs
    · rename_i startTime hstate
      rw [hstate] at htimer
      split_ifs at hs with hrun
      · obtain rfl := Option.some.inj hs
        exact h.timerOn htimer
      · obtain rfl := Option.some.inj hs
        exact h.timerOn trivial
    · rename_i startTime lastTimeSpec hstate
      simp only at hs
      split_ifs at hs with hfits
      obtain rfl := Option.some.inj hs
      exact h.store hstate hfits
    · cases hs
  | stop =>
    obtain ⟨C, hC, rfl⟩ := Option.map_eq_some_iff.mp hs
    exact h.timerOn h.timer
  | shutdown =>
    rw [timedStep] at hs
    split_ifs at hs with hjoined
    obtain ⟨P, hP, rfl⟩ := Option.map_eq_some_iff.mp hs
    obtain ⟨C, hC, rfl⟩ := Option.map_eq_some_iff.mp hP
    exact h.logged ⟨h.traced.past, nofun⟩ (List.append_nil _).symm nofun
  | call a =>
    obtain ⟨P, hP, rfl⟩ := Option.map_eq_some_iff.mp hs
    obtain ⟨htraced, l, hlog, hl⟩ := h.traced.step hP
    exact h.logged htraced hlog hl

/-! ### What a recording call reads -/

omit [DecidableEq T] [DecidableEq K] in
theorem inOrder_nil : InOrder ([] : List (T × Entry K)) where
  nonneg := nofun
  forward := List.Pairwise.nil
  ends := nofun

omit [DecidableEq T] [DecidableEq K] in
theorem inOrder_concat {log : List (T × Entry K)} {x : T × Entry K} :
    InOrder (log ++ [x]) ↔ InOrder log ∧ (x.2.stamp ≠ none → 0 ≤ x.2.now.toInt) ∧
      (∀ y ∈ log, y.1 = x.1 → y.2.stamp ≠ none → x.2.stamp ≠ none →
        y.2.now.toInt ≤ x.2.now.toInt) ∧
      (x.2.call = .endZone → ∀ ev, x.2.offered = some ev → startOf ev ≤ x.2.now.toInt) := by
  constructor
  · rintro ⟨hnonneg, hforward, hends⟩
    obtain ⟨hold, -, hcross⟩ := List.pairwise_append.mp hforward
    have hlast : x ∈ log ++ [x] := List.mem_append_right _ (List.mem_singleton_self x)
    exact ⟨⟨fun y hy => hnonneg y (List.mem_append_left _ hy), hold,
      fun y hy => hends y (List.mem_append_left _ hy)⟩, hnonneg x hlast,
      fun y hy => hcross y hy x (List.mem_singleton_self x), hends x hlast⟩
  · rintro ⟨⟨hnonneg, hforward, hends⟩, hnonneg', hcross, hends'⟩
    refine ⟨?_, List.pairwise_append.mpr ⟨hforward, List.pairwise_singleton _ _, ?_⟩, ?_⟩
    · intro y hy
      rcases List.mem_append.mp hy with hy | hy
      · exact hnonneg y hy
      · exact List.mem_singleton.mp hy ▸ hnonneg'
    · intro y hy z hz
      exact List.mem_singleton.mp hz ▸ hcross y hy
    · intro y hy
      rcases List.mem_append.mp hy with hy | hy
      · exact hends y hy
      · exact List.mem_singleton.mp hy ▸ hends'

variable (sh) in
omit [DecidableEq T] in
/-- A call reads the clock when it stamps an event or ends one. -/
theorem record_reads (th : ThreadContext) (C : ProfileContext K) (number : ℕ) (now : Int64)
    (c : Call K) :
    (readsClock th c = true ∧ ((th.record sh C number now c).entry.stamp ≠ none ∨
      (th.record sh C number now c).entry.call = .endZone ∧
        ∃ ev, (th.record sh C number now c).entry.offered = some ev)) ∨
    (readsClock th c = false ∧ (th.record sh C number now c).entry.stamp = none ∧
      (th.record sh C number now c).entry.offered = none) := by
  cases c with
  | zone name =>
    simp only [readsClock, ThreadContext.record, ThreadContext.zone]
    rcases th.profileIntervalStack.push with _ | ⟨slot, stack⟩
    · exact Or.inr ⟨rfl, rfl, rfl⟩
    · exact Or.inl ⟨rfl, Or.inl (Option.some_ne_none _)⟩
  | endZone =>
    simp only [readsClock, ThreadContext.record, ThreadContext.endZone]
    rcases th.profileIntervalStack.pop with _ | ⟨slot, stack⟩
    · exact Or.inr ⟨rfl, rfl, rfl⟩
    · exact Or.inl ⟨rfl, Or.inr ⟨rfl, _, rfl⟩⟩
  | sample name probe => exact Or.inl ⟨rfl, Or.inl (Option.some_ne_none _)⟩

omit [DecidableEq K] in
/-- The event that an `esp_end` offers starts when its zone was stamped. -/
theorem closes_of_localStep {cap i : ℕ} {st st' : List OpenZone} {e : Entry K}
    (h : LocalStep cap i st e st') (hend : e.call = .endZone) {ev : ProfileEvent}
    (hev : e.offered = some ev) : ∃ z ∈ st, ev.data.timestamp = z.event.data.timestamp := by
  cases h with
  | zone frame hlt => cases hend
  | overflow hfull => cases hend
  | close =>
    obtain rfl := Option.some.inj hev
    exact ⟨_, List.mem_cons_self, rfl⟩
  | stray => cases hev
  | sample frame => cases hend

/-- STEP: a recorded call keeps the order exactly when its thread has not been left behind. -/
theorem inOrder_recorded (h : TimedInv s) (hord : InOrder s.process.log) {P₁ : Process T K} {i : ℕ}
    (hinit : s.process.espThreadInit t = some P₁) (hC : P₁.context = some C)
    (hi : P₁.threadContext t = some (P₁.session, i)) (c : Call K) :
    InOrder (P₁.recordIn sh C t i s.currentTimestamp c).log ↔
      (s.firstStore ≠ none → (∃ x ∈ s.early, x.1 = t ∧ x.2.stamp ≠ none) →
        readsClock (C.threadContexts i) c = true →
        s.leftOver.toInt ≤ s.currentTimestamp.toInt) := by
  have hlog : P₁.log = s.process.log := (Context.strings_threadInit hinit).2
  obtain ⟨-, hinj, hzones⟩ := (h.traced.threadInit hinit).session C hC
  obtain ⟨st, hst, hzones⟩ := hzones i
  obtain ⟨-, hnow, -, -⟩ :=
    Context.record_entry sh (C.threadContexts i) C P₁.log.length s.currentTimestamp c
  obtain ⟨st', hstep, -⟩ := Context.record_local C sh hst P₁.log.length s.currentTimestamp c
  have hreads := record_reads sh (C.threadContexts i) C P₁.log.length s.currentTimestamp c
  rw [Process.recordIn, hlog]
  rw [hlog] at hnow hstep hreads hzones
  revert hnow hstep hreads
  generalize ((C.threadContexts i).record sh C s.process.log.length s.currentTimestamp c).entry = e
  intro hnow hstep hreads
  rw [inOrder_concat, and_iff_right hord, hnow]
  have hsplit := early_append_late s
  have hmem : ∀ x ∈ s.process.log, x ∈ s.early ∨ x ∈ s.late := fun x hx =>
    List.mem_append.mp (hsplit.symm ▸ hx)
  -- an `esp_end` closes a zone that this thread stamped
  have hcloses : e.call = .endZone → ∀ ev, e.offered = some ev →
      ∃ y ∈ s.process.log, y.1 = t ∧ y.2.stamp ≠ none ∧ startOf ev = y.2.now.toInt := by
    intro hend ev hev
    obtain ⟨z, hz, htime⟩ := closes_of_localStep hstep hend hev
    obtain ⟨y, hy, hctx, hstamp, hynow⟩ := hzones z hz
    exact ⟨y, hy, hinj y.1 t i hctx hi, hstamp, by rw [startOf, htime, hynow]⟩
  constructor
  · rintro ⟨-, hforward, hends⟩ - ⟨x, hx, hxt, hxs⟩ hread
    have hxlog : x ∈ s.process.log := hsplit ▸ List.mem_append_left _ hx
    rcases hreads with ⟨-, hstamp | ⟨hend, ev, hev⟩⟩ | ⟨hnot, -⟩
    · exact h.early x hx ▸ hforward x hxlog hxt hxs hstamp
    · obtain ⟨y, hy, hyt, hys, hstart⟩ := hcloses hend ev hev
      have hle := hstart ▸ hends hend ev hev
      rcases hmem y hy with hyearly | hylate
      · exact h.early y hyearly ▸ hle
      · -- the zone was opened after the first store, and so was not opened before `x`
        have hpairs := hord.forward
        rw [← hsplit] at hpairs
        have hxy := (List.pairwise_append.mp hpairs).2.2 x hx y hylate (hxt.trans hyt.symm) hxs hys
        rw [h.early x hx] at hxy
        exact hxy.trans hle
    · rw [hnot] at hread
      cases hread
  · intro hcaught
    have hle : readsClock (C.threadContexts i) c = true → ∀ y ∈ s.process.log, y.1 = t →
        y.2.stamp ≠ none → y.2.now.toInt ≤ s.currentTimestamp.toInt := by
      intro hread y hy hyt hys
      rcases hmem y hy with hyearly | hylate
      · rw [h.early y hyearly]
        by_cases hstored : s.firstStore = none
        · rw [h.unstored hstored]
        · exact hcaught hstored ⟨y, hyearly, hyt, hys⟩ hread
      · exact h.late y hylate
    refine ⟨fun _ => h.current_nonneg, ?_, ?_⟩
    · intro y hy hyt hys hstamp
      rcases hreads with ⟨hread, -⟩ | ⟨-, hnone, -⟩
      · exact hle hread y hy hyt hys
      · exact absurd hnone hstamp
    · intro hend ev hev
      rcases hreads with ⟨hread, -⟩ | ⟨-, -, hnone⟩
      · obtain ⟨y, hy, hyt, hys, hstart⟩ := hcloses hend ev hev
        exact hstart ▸ hle hread y hy hyt hys
      · rw [hnone] at hev
        cases hev

/-- INVERSION: `esp_init` clears the log, and nothing else but a recording call changes it. -/
theorem timedStep_log {a : TimedAction T K} (ha : ∀ t now c, a ≠ .call (.record t now c))
    (hs : timedStep sh s a = some s') :
    s'.process.log = [] ∨ s'.process.log = s.process.log := by
  cases a with
  | init t junk =>
    rw [timedStep] at hs
    split at hs
    · cases hs
    · obtain ⟨P, hinit, rfl⟩ := Option.map_eq_some_iff.mp hs
      exact Or.inl (Context.strings_threadInit hinit).2
  | clockGettime spec =>
    rw [timedStep] at hs
    split_ifs at hs
    split at hs
    · exact Or.inr (Option.some.inj hs ▸ rfl)
    · exact Or.inr (Option.some.inj hs ▸ rfl)
    · cases hs
  | timer =>
    rw [timedStep] at hs
    split at hs
    · split_ifs at hs
      · exact Or.inr (Option.some.inj hs ▸ rfl)
      · exact Or.inr (Option.some.inj hs ▸ rfl)
    · simp only at hs
      split_ifs at hs
      exact Or.inr (Option.some.inj hs ▸ rfl)
    · cases hs
  | stop =>
    obtain ⟨C, -, rfl⟩ := Option.map_eq_some_iff.mp hs
    exact Or.inr rfl
  | shutdown =>
    rw [timedStep] at hs
    split_ifs at hs
    obtain ⟨P, hP, rfl⟩ := Option.map_eq_some_iff.mp hs
    obtain ⟨C, -, rfl⟩ := Option.map_eq_some_iff.mp hP
    exact Or.inr rfl
  | call a =>
    obtain ⟨P, hP, rfl⟩ := Option.map_eq_some_iff.mp hs
    cases a with
    | record t now c => exact absurd rfl (ha t now c)
    | threadInit t => exact Or.inr (Context.strings_threadInit hP).2
    | frameEnd now => exact Or.inr (mapContext_log hP)
    | setPaused b => exact Or.inr (Option.some.inj hP ▸ rfl)
    | drainEvents n => exact Or.inr (mapContext_log hP)
    | drainString => exact Or.inr (mapContext_log hP)

omit [DecidableEq K] in
theorem caughtUp_of_quiet {a : TimedAction T K} (ha : ∀ t now c, a ≠ .call (.record t now c)) :
    CaughtUp s a := by
  unfold CaughtUp
  split
  · exact absurd rfl (ha _ _ _)
  · trivial

/-- STEP: a recording call keeps the order exactly when its thread has caught up. -/
theorem inOrder_record (h : TimedInv s) (hord : InOrder s.process.log) {now : Int64} {c : Call K}
    (hs : timedStep sh s (.call (.record t now c)) = some s') :
    InOrder s'.process.log ↔ CaughtUp s (.call (.record t now c)) := by
  obtain ⟨P, hP, rfl⟩ := Option.map_eq_some_iff.mp hs
  rcases Context.espRecord_cases hP with
    ⟨hp, rfl⟩ | ⟨-, hinit, hnone⟩ | ⟨hp, P₁, C, i, hinit, hC, hi, -, rfl⟩
  · exact iff_of_true hord fun _ _ hp' => absurd (hp.symm.trans hp') nofun
  · have hctx : contextFor s.process t = none := by
      rw [contextFor, hinit, Option.bind_some, hnone, Option.bind_none]
    refine iff_of_true ((Context.strings_threadInit hinit).2 ▸ hord) ?_
    intro _ _ _ th hth
    rw [hctx] at hth
    cases hth
  · have hctx : contextFor s.process t = some (C.threadContexts i) := by
      rw [contextFor, hinit, Option.bind_some, hC, Option.bind_some, hi, Option.bind_some,
        if_pos rfl]
    rw [inOrder_recorded h hord hinit hC hi]
    constructor
    · intro hcaught hstored hearly _ th hth
      obtain rfl := Option.some.inj (hctx.symm.trans hth)
      exact hcaught hstored hearly
    · intro hcaught hstored hearly
      exact hcaught hstored hearly hp _ hctx

/-- STEP: whatever happens keeps the order exactly when nobody who reads the clock was left behind. -/
theorem inOrder_step (h : TimedInv s) (hord : InOrder s.process.log) {a : TimedAction T K}
    (hs : timedStep sh s a = some s') : InOrder s'.process.log ↔ CaughtUp s a := by
  by_cases ha : ∀ t now c, a ≠ .call (.record t now c)
  · refine iff_of_true ?_ (caughtUp_of_quiet ha)
    rcases timedStep_log ha hs with hlog | hlog
    · exact hlog ▸ inOrder_nil
    · exact hlog ▸ hord
  · obtain ⟨t, now, c, rfl⟩ : ∃ t now c, a = .call (.record t now c) := by
      by_contra hne
      exact ha fun t now c he => hne ⟨t, now, c, he⟩
    exact inOrder_record h hord hs

/-- EXACT: over any sessions, any calls in them and any stores between these, time runs forward in
    every state exactly when no thread that stamped before the first store of its session reads the
    clock after it while less is published than was left over. -/
theorem inOrder_iff (sh : Shape K) (clock : Timespec) {as : List (TimedAction T K)}
    (hr : run (timedStep sh) (Timed.start clock) as = some s) :
    Always (timedStep sh) (fun s => InOrder s.process.log) (Timed.start clock) as ↔
      Meets (timedStep sh) CaughtUp (Timed.start clock) as := by
  refine always_iff_meets (I := TimedInv) ?_ (timedInv_start clock) inOrder_nil hr
  intro s a s' h hord hs
  exact ⟨timedInv_step h hs, inOrder_step h hord hs⟩

/-! ### Two sessions -/

/-- So many microseconds after the seventh second of uptime. -/
def uptime (microseconds : ℤ) : Timespec := ⟨7, microseconds * 1000⟩

/-- The timer thread starts and stores once. -/
def oneStore (first second : ℤ) : List (TimedAction Bool Addr) :=
  [.clockGettime (uptime first), .timer, .clockGettime (uptime second), .timer]

/-- A session that publishes 100 microseconds, and the `esp_init` of another thread. -/
def reopening : List (TimedAction Bool Addr) :=
  .init true (Junk.zero zoneName) :: oneStore 0 100 ++
    [.stop, .timer, .shutdown, .init false (Junk.zero zoneName)]

def zoneBy (t : Bool) : TimedAction Bool Addr := .call (.record t 0 (.zone (some zoneName)))

def endBy (t : Bool) : TimedAction Bool Addr := .call (.record t 0 .endZone)

/-- A zone of the second session around the return of the published time to 120. -/
theorem inOrder_iff_caughtUp : ∃ s, run (timedStep espStrings) (Timed.start (uptime 0))
    (reopening ++ zoneBy false :: oneStore 200 320 ++ [endBy false]) = some s ∧
      s.currentTimestamp = 120 ∧ s.process.log.length = 2 ∧
      Always (timedStep espStrings) (fun s => InOrder s.process.log) (Timed.start (uptime 0))
        (reopening ++ zoneBy false :: oneStore 200 320 ++ [endBy false]) := by
  have hrun : (run (timedStep espStrings) (Timed.start (uptime 0))
      (reopening ++ zoneBy false :: oneStore 200 320 ++ [endBy false])).map
        (fun s => (s.currentTimestamp, s.process.log.length)) = some (120, 2) := by decide +kernel
  obtain ⟨s, hr, hs⟩ := Option.map_eq_some_iff.mp hrun
  obtain ⟨hnow, hlen⟩ := Prod.mk.inj hs
  exact ⟨s, hr, hnow, hlen, (inOrder_iff espStrings (uptime 0) hr).mpr (by decide +kernel)⟩

/-- REFUTED: a zone opened before the first store of the second session, and closed when 5 microseconds
    are published, ends before it starts. -/
theorem secondSession_backwards : ∃ s, run (timedStep espStrings) (Timed.start (uptime 0))
    (reopening ++ zoneBy false :: oneStore 200 205 ++ [endBy false]) = some s ∧
      ¬ InOrder s.process.log := by
  have hrun : (run (timedStep espStrings) (Timed.start (uptime 0))
      (reopening ++ zoneBy false :: oneStore 200 205 ++ [endBy false])).map
        (fun s => s.process.log.map fun x => (x.2.call, x.2.now.toInt, x.2.offered.map startOf)) =
      some [(.zone (some zoneName), 100, none), (.endZone, 5, some 100)] := by decide +kernel
  obtain ⟨s, hr, hlog⟩ := Option.map_eq_some_iff.mp hrun
  refine ⟨s, hr, ?_⟩
  intro hord
  have hmem : (Call.endZone, (5 : ℤ), some (100 : ℤ)) ∈
      s.process.log.map fun x => (x.2.call, x.2.now.toInt, x.2.offered.map startOf) := by
    rw [hlog]
    exact List.mem_cons_of_mem _ (List.mem_singleton_self _)
  obtain ⟨x, hx, hread⟩ := List.mem_map.mp hmem
  simp only [Prod.mk.injEq, Option.map_eq_some_iff] at hread
  obtain ⟨hend, hnow, ev, hev, hstart⟩ := hread
  have hle := hord.ends x hx hend ev hev
  rw [hstart, hnow] at hle
  exact absurd hle (by decide)

end Esp.Timing
