import Libesp.Stream.Conservation

/-! @esp stream | name:EventStreamConsumer | scheme:machine |
    source:src/Comms.cpp (DrainLoop, ShutdownAndWait), src/EventStreamIO.cpp

    The drain thread against the producers and the thread that shuts the session down, one statement
    at a time, from the moment `StartDrainThread` returns. An enqueue, a dequeue, an `Empty` test and
    an `fwrite` are one step each; how many events an `fwrite` takes is the environment's choice.

        loopTest ─▶ dequeue ─▶ (fwrite … ─▶ flushStrings …) ─▶ flushStrings … ─▶ testEvents
           ▲ │ !runThread && !stillBusy                                              │
           │ └──▶ fwrite … ─▶ flushStrings … ─▶ done ─▶ join              testStrings
           └──────────────────────────────────────────────────────────────────┘

    The last `Flush` writes what was dequeued and dequeues no event. Whether the last pass has seen an
    event is decided at `testEvents`, and whether the loop ends by a flag cleared later: an event
    accepted in between, before `ShutdownAndWait` is called, stays in the ring (`shutdown_iff`). -/

namespace Esp.DrainLoop
open Event LocklessRing Memory Machine Writer

/-- Who runs `FlushStrings`: `Drain` itself, the `Flush` of a `Drain`, or the last `Flush`. -/
inductive Flusher where
  | inDrain
  | inFlush
  | atExit
  deriving DecidableEq

inductive DrainPc where
  | loopTest
  | dequeue
  | fwrite (exit : Bool) (written toWrite : ℤ)
  | flushStrings (f : Flusher)
  | testEvents
  | testStrings
  | done

/-- Where the thread is that calls `ShutdownAndWait`. -/
inductive MainPc where
  | before
  | called
  | joining
  | returned
  deriving DecidableEq

structure State (K : Type) where
  session : Session K
  runThread : Bool
  drain : DrainPc
  main : MainPc
  /-- History: the number of accepted events when `ShutdownAndWait` was called. -/
  acceptedAtCall : ℕ
  /-- History: the number of accepted events at the last `Empty` test of the event ring. -/
  acceptedAtTest : ℕ

inductive Action (K : Type) where
  | enqueueEvent (e : ProfileEvent)
  | enqueueString (r : RuntimeStringReference K)
  | drain (accepts : ℕ)
  | main

variable {K : Type} (mem : K → List UInt8)

def State.new (junk : ℤ → ProfileEvent) (junk' : ℤ → RuntimeStringReference K)
    (junk'' : ℤ → ProfileEvent) : State K :=
  ⟨Session.new junk junk' junk'', true, .loopTest, .before, 0, 0⟩

def State.goto (s : State K) (pc : DrainPc) : State K := { s with drain := pc }

def State.setWriter (s : State K) (w : RawEventWriter K) : State K :=
  { s with session := { s.session with writer := w } }

/-- Where the end of a `FlushStrings` leads. -/
def Flusher.next : Flusher → DrainPc
  | .inFlush => .flushStrings .inDrain
  | .inDrain => .testEvents
  | .atExit => .done

/-- The next step of the drain thread; an `fwrite` on the buffer takes at most `accepts` events. -/
def drainStep (accepts : ℕ) (s : State K) : Option (State K) :=
  let w := s.session.writer
  match s.drain with
  | .loopTest =>
    if s.runThread || w.stillBusy then some (s.goto .dequeue)
    else some (s.goto (.fwrite true 0 w.writeBufferUsed))
  | .dequeue =>
    let w' := w.dequeueEvents
    if w'.overThreshold then some ((s.setWriter w').goto (.fwrite false 0 w'.writeBufferUsed))
    else some ((s.setWriter w').goto (.flushStrings .inDrain))
  | .fwrite exit written toWrite =>
    let got := w.fwriteEvents (fun _ => accepts) written toWrite
    if toWrite - got.1 > 0 then
      some ((s.setWriter got.2).goto (.fwrite exit (written + got.1) (toWrite - got.1)))
    else
      some ((s.setWriter { got.2 with writeBufferUsed := 0 }).goto
        (.flushStrings (if exit then .atExit else .inFlush)))
  | .flushStrings f =>
    match w.flushString mem with
    | some w' => some (s.setWriter w')
    | none => some (s.goto f.next)
  | .testEvents =>
    let s' := { s with acceptedAtTest := s.session.events.length }
    if w.contextQueue.empty espMaxEventBuffer then some (s'.goto .testStrings)
    else some ((s'.setWriter { w with stillBusy := true }).goto .loopTest)
  | .testStrings =>
    some ((s.setWriter { w with stillBusy := !w.stringQueue.empty stringQueueCapacity }).goto
      .loopTest)
  | .done => none

/-- The next step of the main thread: call `ShutdownAndWait`, clear `runThread`, join. -/
def mainStep (s : State K) : Option (State K) :=
  match s.main with
  | .before => some { s with main := .called, acceptedAtCall := s.session.events.length }
  | .called =>
    if s.runThread then some { s with runThread := false, main := .joining }
    else some { s with main := .returned }
  | .joining =>
    match s.drain with
    | .done => some { s with main := .returned }
    | _ => none
  | .returned => none

def step (s : State K) : Action K → Option (State K)
  | .enqueueEvent e => some { s with session := s.session.enqueueEvent e }
  | .enqueueString r => some { s with session := s.session.enqueueString r }
  | .drain accepts => drainStep mem accepts s
  | .main => mainStep s

/-- The part of the write buffer that is still to be written. -/
def State.pending (s : State K) : ℤ × ℤ :=
  match s.drain with
  | .fwrite _ written toWrite => (written, toWrite)
  | _ => (0, s.session.writer.writeBufferUsed)

/-- What the buffer holds at each place. -/
def BufferOk (used : ℤ) : DrainPc → Prop
  | .fwrite _ _ toWrite => 0 ≤ toWrite
  | .flushStrings .inDrain | .loopTest | .dequeue | .testEvents | .testStrings =>
    0 ≤ used ∧ used < espWriteBufferThresholdPrecompute
  | .flushStrings _ | .done => used = 0

/-- The places where the last `Empty` test of the event ring saw it empty, and nothing has been
    dequeued since. -/
def DrainPc.settled (stillBusy : Bool) : DrainPc → Prop
  | .loopTest => stillBusy = false
  | .testStrings | .done => True
  | .fwrite exit _ _ => exit = true
  | .flushStrings f => f = .atExit
  | _ => False

/-- INVARIANT: the pipeline conserves, and the drain thread leaves having dequeued what the last
    `Empty` test had seen accepted. -/
structure DrainInv (s : State K) : Prop where
  conserves : Conserves mem s.session.writer s.pending.1 s.pending.2 s.session.events
    s.session.strings
  buffer : BufferOk s.session.writer.writeBufferUsed s.drain
  tested : s.drain.settled s.session.writer.stillBusy →
    s.session.writer.contextQueue.back = s.acceptedAtTest
  running : s.main = .before ∨ s.main = .called → s.runThread = true
  joined : s.main = .returned → s.drain = .done
  calledAt_le : s.acceptedAtCall ≤ s.session.events.length

/-- The two rings have taken fewer entries than there are `int`s. -/
def State.accepted (s : State K) : ℕ := max s.session.events.length s.session.strings.length

/-- Every event accepted before `ShutdownAndWait` was called is in the file. -/
def Flushed (s : State K) : Prop :=
  s.session.events.take s.acceptedAtCall <+: eventsOf s.session.writer.outputFile

variable {mem} {s s' : State K}

theorem drainInv_new (junk junk' junk'') : DrainInv mem (State.new junk junk' junk'' : State K) where
  conserves := conserves_new junk junk' junk''
  buffer := ⟨le_refl _, show (0 : ℤ) < espWriteBufferThresholdPrecompute by decide⟩
  tested := fun _ => rfl
  running := fun _ => rfl
  joined := nofun
  calledAt_le := le_refl _

/-- STEP: a producer keeps the invariant. -/
theorem DrainInv.enqueueEvent (h : DrainInv mem s) (hE : s.session.events.length < 2147483647)
    (e : ProfileEvent) : DrainInv mem { s with session := s.session.enqueueEvent e } where
  conserves := h.conserves.offerEvent hE e
  buffer := h.buffer
  tested := fun hs => (tryEnqueue_back _ e).trans (h.tested hs)
  running := h.running
  joined := h.joined
  calledAt_le := h.calledAt_le.trans (enqueueEvent_length s.session e).1

theorem DrainInv.enqueueString (h : DrainInv mem s) (hS : s.session.strings.length < 2147483647)
    (r : RuntimeStringReference K) :
    DrainInv mem { s with session := s.session.enqueueString r } :=
  { h with conserves := h.conserves.offerString hS r }

/-- A joined drain thread is at its end, so a step of it is before the join. -/
theorem DrainInv.not_returned (h : DrainInv mem s) (hd : s.drain ≠ .done) : s.main ≠ .returned :=
  fun hm => hd (h.joined hm)

/-- STEP: the loop test goes on, or leaves for the last `Flush`. -/
theorem DrainInv.loopTest {accepts : ℕ} (h : DrainInv mem s)
    (hpc : s.drain = .loopTest) (hs : drainStep mem accepts s = some s') : DrainInv mem s' := by
  have hcons := h.conserves
  have hbuf := h.buffer
  have htest := h.tested
  simp only [State.pending, hpc] at hcons hbuf htest
  simp only [drainStep, hpc] at hs
  have hjoin := h.not_returned (by simp [hpc])
  split at hs
  · obtain rfl := Option.some.inj hs
    exact ⟨hcons, hbuf, False.elim, h.running, fun hm => absurd hm hjoin, h.calledAt_le⟩
  · rename_i hexit
    obtain rfl := Option.some.inj hs
    rw [Bool.or_eq_true, not_or, Bool.not_eq_true, Bool.not_eq_true] at hexit
    exact ⟨hcons, hbuf.1, fun _ => htest hexit.2, h.running, fun hm => absurd hm hjoin,
      h.calledAt_le⟩

/-- STEP: a bulk dequeue, and whether it fills the buffer past the threshold. -/
theorem DrainInv.dequeue {accepts : ℕ} (h : DrainInv mem s)
    (hE : s.session.events.length < 2147483647)
    (hpc : s.drain = .dequeue) (hs : drainStep mem accepts s = some s') : DrainInv mem s' := by
  have hcons := h.conserves
  have hbuf := h.buffer
  have htest := h.tested
  simp only [State.pending, hpc] at hcons hbuf htest
  simp only [drainStep, hpc] at hs
  have hjoin := h.not_returned (by simp [hpc])
  have hsize := threshold_lt
  obtain ⟨hd, hge, hle⟩ := hcons.dequeueEvents hE hbuf.1 (by have := hbuf.2; omega)
  have hpos : 0 ≤ s.session.writer.dequeueEvents.writeBufferUsed := hbuf.1.trans hge
  split at hs
  · obtain rfl := Option.some.inj hs
    exact ⟨hd, hpos, (fun hset => by cases hset), h.running, fun hm => absurd hm hjoin, h.calledAt_le⟩
  · rename_i hover
    simp only [RawEventWriter.overThreshold, ge_iff_le, decide_eq_true_eq, not_le] at hover
    obtain rfl := Option.some.inj hs
    exact ⟨hd, ⟨hpos, hover⟩, (fun hset => by cases hset), h.running, fun hm => absurd hm hjoin,
      h.calledAt_le⟩

/-- STEP: one `fwrite` on the buffer, and the end of `Flush` when it was the last. -/
theorem DrainInv.fwrite {exit : Bool} {written toWrite : ℤ} {accepts : ℕ} (h : DrainInv mem s)
    (hpc : s.drain = .fwrite exit written toWrite) (hs : drainStep mem accepts s = some s') :
    DrainInv mem s' := by
  have hcons := h.conserves
  have hbuf := h.buffer
  have htest := h.tested
  simp only [State.pending, hpc] at hcons hbuf htest
  simp only [drainStep, hpc] at hs
  have hjoin := h.not_returned (by simp [hpc])
  have hw := hcons.fwriteEvents (fun _ => accepts) hbuf
  split at hs
  · rename_i hmore
    obtain rfl := Option.some.inj hs
    exact ⟨hw, by simp only [BufferOk, State.goto]; omega, htest, h.running,
      fun hm => absurd hm hjoin, h.calledAt_le⟩
  · rename_i hdone
    have hle : (s.session.writer.fwriteEvents (fun _ => accepts) written toWrite).1 ≤ toWrite :=
      min_le_right _ _
    have hall : toWrite - (s.session.writer.fwriteEvents (fun _ => accepts) written toWrite).1 = 0 :=
      by omega
    rw [hall] at hw
    obtain rfl := Option.some.inj hs
    refine ⟨hw.rewind, ?_, fun hset => htest ?_, h.running, fun hm => absurd hm hjoin,
      h.calledAt_le⟩
    · cases exit <;> rfl
    · cases exit with
      | true => rfl
      | false => cases hset

/-- STEP: one string written, or the end of `FlushStrings`. -/
theorem DrainInv.flushStrings {f : Flusher} {accepts : ℕ} (h : DrainInv mem s)
    (hS : s.session.strings.length < 2147483647) (hpc : s.drain = .flushStrings f)
    (hs : drainStep mem accepts s = some s') : DrainInv mem s' := by
  have hcons := h.conserves
  have hbuf := h.buffer
  have htest := h.tested
  simp only [State.pending, hpc] at hcons hbuf htest
  simp only [drainStep, hpc] at hs
  have hjoin := h.not_returned (by simp [hpc])
  split at hs
  · rename_i w' hw'
    obtain rfl := Option.some.inj hs
    obtain ⟨hc, hu, hq, -⟩ := hcons.flushString hS hw'
    refine ⟨?_, ?_, ?_, h.running, fun hm => absurd hm hjoin, h.calledAt_le⟩
    · simp only [State.pending, State.setWriter, hpc, hu]
      exact hc
    · simp only [State.setWriter, hpc, hu]
      exact hbuf
    · simp only [State.setWriter, hpc, hq]
      exact htest
  · obtain rfl := Option.some.inj hs
    cases f with
    | inDrain =>
      exact ⟨hcons, hbuf, False.elim, h.running, fun hm => absurd hm hjoin, h.calledAt_le⟩
    | inFlush =>
      refine ⟨hcons, ?_, (fun hset => by cases hset), h.running, fun hm => absurd hm hjoin,
        h.calledAt_le⟩
      simp only [BufferOk] at hbuf
      simp only [BufferOk, State.goto, Flusher.next, hbuf]
      decide
    | atExit =>
      exact ⟨hcons, hbuf, fun _ => htest rfl, h.running, fun _ => rfl, h.calledAt_le⟩

/-- STEP: the `Empty` test of the event ring. -/
theorem DrainInv.testEvents {accepts : ℕ} (h : DrainInv mem s)
    (hpc : s.drain = .testEvents) (hs : drainStep mem accepts s = some s') : DrainInv mem s' := by
  have hcons := h.conserves
  have hbuf := h.buffer
  have htest := h.tested
  simp only [State.pending, hpc] at hcons hbuf htest
  simp only [drainStep, hpc] at hs
  have hjoin := h.not_returned (by simp [hpc])
  split at hs
  · rename_i hempty
    obtain rfl := Option.some.inj hs
    have hnil := (empty_iff hcons.eventRing).mp hempty
    have hfront := hcons.eventRing.front_eq
    rw [hnil, hcons.eventCount] at hfront
    have hback : s.session.writer.contextQueue.back = s.session.events.length := by
      simpa using hfront.symm
    exact ⟨hcons, hbuf, fun _ => hback, h.running, fun hm => absurd hm hjoin, h.calledAt_le⟩
  · obtain rfl := Option.some.inj hs
    exact ⟨{ hcons with }, hbuf, (fun hset => by cases hset), h.running, fun hm => absurd hm hjoin,
      h.calledAt_le⟩

/-- STEP: the `Empty` test of the string ring. -/
theorem DrainInv.testStrings {accepts : ℕ} (h : DrainInv mem s)
    (hpc : s.drain = .testStrings) (hs : drainStep mem accepts s = some s') : DrainInv mem s' := by
  have hcons := h.conserves
  have hbuf := h.buffer
  have htest := h.tested
  simp only [State.pending, hpc] at hcons hbuf htest
  simp only [drainStep, hpc] at hs
  have hjoin := h.not_returned (by simp [hpc])
  obtain rfl := Option.some.inj hs
  exact ⟨{ hcons with }, hbuf, fun _ => htest trivial, h.running, fun hm => absurd hm hjoin,
    h.calledAt_le⟩

/-- STEP: the drain thread keeps the invariant. -/
theorem drainInv_drain {accepts : ℕ} (h : DrainInv mem s)
    (hE : s.session.events.length < 2147483647) (hS : s.session.strings.length < 2147483647)
    (hs : drainStep mem accepts s = some s') : DrainInv mem s' := by
  rcases hpc : s.drain with _ | _ | ⟨exit, written, toWrite⟩ | f | _ | _ | _
  case loopTest => exact h.loopTest hpc hs
  case dequeue => exact h.dequeue hE hpc hs
  case fwrite => exact h.fwrite hpc hs
  case flushStrings => exact h.flushStrings hS hpc hs
  case testEvents => exact h.testEvents hpc hs
  case testStrings => exact h.testStrings hpc hs
  case done =>
    simp only [drainStep, hpc] at hs
    cases hs

/-- STEP: the main thread keeps the invariant. -/
theorem drainInv_main (h : DrainInv mem s) (hs : mainStep s = some s') : DrainInv mem s' := by
  rcases hm : s.main with _ | _ | _ | _ <;> simp only [mainStep, hm] at hs
  case before =>
    obtain rfl := Option.some.inj hs
    exact { h with
      running := fun _ => h.running (Or.inl hm)
      joined := nofun
      calledAt_le := le_refl _ }
  case called =>
    rw [h.running (Or.inr hm), if_pos rfl] at hs
    obtain rfl := Option.some.inj hs
    exact { h with
      running := fun hr => by rcases hr with hr | hr <;> cases hr
      joined := nofun }
  case joining =>
    split at hs
    · rename_i hd
      obtain rfl := Option.some.inj hs
      exact { h with
        running := fun hr => by rcases hr with hr | hr <;> cases hr
        joined := fun _ => hd }
    · cases hs
  case returned => cases hs

/-- The drain thread accepts nothing. -/
theorem drainStep_logs {accepts : ℕ} (hs : drainStep mem accepts s = some s') :
    s'.session.events = s.session.events ∧ s'.session.strings = s.session.strings := by
  simp only [drainStep] at hs
  split at hs
  case h_4 => split at hs <;> obtain rfl := Option.some.inj hs <;> exact ⟨rfl, rfl⟩
  case h_6 => obtain rfl := Option.some.inj hs; exact ⟨rfl, rfl⟩
  case h_7 => cases hs
  all_goals split at hs <;> obtain rfl := Option.some.inj hs <;> exact ⟨rfl, rfl⟩

theorem mainStep_session (hs : mainStep s = some s') : s'.session = s.session := by
  simp only [mainStep] at hs
  split at hs
  case h_1 => obtain rfl := Option.some.inj hs; rfl
  case h_2 => split at hs <;> obtain rfl := Option.some.inj hs <;> rfl
  case h_3 =>
    split at hs
    · obtain rfl := Option.some.inj hs; rfl
    · cases hs
  case h_4 => cases hs

/-- The logs of accepted entries only grow. -/
theorem accepted_step {a : Action K} (hs : step mem s a = some s') : s.accepted ≤ s'.accepted := by
  cases a with
  | enqueueEvent e =>
    obtain rfl := Option.some.inj hs
    exact max_le_max (enqueueEvent_length s.session e).1 (le_refl _)
  | enqueueString r =>
    obtain rfl := Option.some.inj hs
    exact max_le_max (le_refl _) (enqueueString_length s.session r).1
  | drain accepts =>
    obtain ⟨he, hst⟩ := drainStep_logs hs
    rw [State.accepted, State.accepted, he, hst]
  | main => rw [State.accepted, State.accepted, mainStep_session hs]

/-- STEP: every step that keeps both rings below the last `int` keeps the invariant. -/
theorem drainInv_step {a : Action K} (h : DrainInv mem s) (hs : step mem s a = some s')
    (hN : s'.accepted < 2147483647) : DrainInv mem s' := by
  have hgrow := accepted_step hs
  have hE : s.session.events.length < 2147483647 :=
    lt_of_le_of_lt ((le_max_left _ _).trans hgrow) hN
  have hS : s.session.strings.length < 2147483647 :=
    lt_of_le_of_lt ((le_max_right _ _).trans hgrow) hN
  cases a with
  | enqueueEvent e => obtain rfl := Option.some.inj hs; exact h.enqueueEvent hE e
  | enqueueString r => obtain rfl := Option.some.inj hs; exact h.enqueueString hS r
  | drain accepts => exact drainInv_drain h hE hS hs
  | main => exact drainInv_main h hs

/-- RUN: the accounts hold in every state that is reached. -/
theorem drainInv_run (junk : ℤ → ProfileEvent) (junk' : ℤ → RuntimeStringReference K)
    (junk'' : ℤ → ProfileEvent) {as : List (Action K)}
    (hr : run (step mem) (State.new junk junk' junk'') as = some s) (hN : s.accepted < 2147483647) :
    DrainInv mem s :=
  run_inv_bounded (I := DrainInv mem) (fun _ _ _ => accepted_step)
    (fun _ _ _ hi _ hlt hst => drainInv_step hi hst hlt) as (meets_true _ _)
    (drainInv_new junk junk' junk'') hr hN

/-- When `ShutdownAndWait` has returned, the file holds the events accepted up to the last `Empty`
    test of the event ring. -/
theorem DrainInv.file_eq (h : DrainInv mem s) (hret : s.main = .returned) :
    eventsOf s.session.writer.outputFile = s.session.events.take s.acceptedAtTest ∧
      s.acceptedAtTest ≤ s.session.events.length := by
  have hdone := h.joined hret
  have hcons := h.conserves
  have hbuf := h.buffer
  have htest := h.tested
  rw [hdone] at hbuf htest
  have hback := htest trivial
  have hfront := hcons.eventRing.front_eq
  simp only [State.pending, hdone] at hcons
  have hused : s.session.writer.writeBufferUsed = 0 := hbuf
  have heq := hcons.events_eq
  rw [hused, Int.toNat_zero, slice_zero, List.append_nil] at heq
  have hlen := congrArg List.length heq
  rw [List.length_append] at hlen
  rw [hcons.eventCount] at hfront
  have hfile : (eventsOf s.session.writer.outputFile).length = s.acceptedAtTest := by omega
  exact ⟨by rw [← heq, ← hfile, List.take_left], by omega⟩

/-- EXACT: when `ShutdownAndWait` has returned, every event accepted before it was called is in the
    file if and only if none was accepted between the last `Empty` test of the event ring and the
    call. -/
theorem shutdown_iff (junk : ℤ → ProfileEvent) (junk' : ℤ → RuntimeStringReference K)
    (junk'' : ℤ → ProfileEvent) {as : List (Action K)}
    (hr : run (step mem) (State.new junk junk' junk'') as = some s)
    (hN : s.accepted < 2147483647) (hret : s.main = .returned) :
    Flushed s ↔ s.acceptedAtCall ≤ s.acceptedAtTest := by
  have h := drainInv_run junk junk' junk'' hr hN
  obtain ⟨hfile, hle⟩ := h.file_eq hret
  have hcall := h.calledAt_le
  rw [Flushed, hfile]
  constructor
  · intro hpre
    have := hpre.length_le
    simp only [List.length_take] at this
    omega
  · exact fun hle => List.take_prefix_take_left hle

/-- One idle pass of the drain thread, an event, and a shutdown. -/
def lateEvent : List (Action ℕ) :=
  [.drain 0, .drain 0, .drain 0, .drain 0, .drain 0, .enqueueEvent (tick 1), .main, .main,
   .drain 0, .drain 0, .drain 0, .main]

/-- REFUTED: after `lateEvent` the event accepted before the call is not in the file, and nothing
    will write it. -/
theorem lateEvent_lost :
    ¬ ∀ (as : List (Action ℕ)) (s : State ℕ),
      run (step fun _ => [104, 105])
        (State.new (fun _ => tick 0) (fun _ => ⟨0, 0⟩) fun _ => tick 0) as = some s →
        s.accepted < 2147483647 → s.main = .returned → Flushed s := by
  intro h
  have hflushed := h lateEvent _ rfl (by decide) rfl
  exact absurd hflushed.length_le (by decide)

/-- The same event, seen by the drain thread before the shutdown. -/
def earlyEvent : List (Action ℕ) :=
  [.enqueueEvent (tick 1), .drain 0, .drain 0, .drain 0, .drain 0, .drain 0, .main, .main,
   .drain 0, .drain 16384, .drain 0, .main]

theorem shutdown_iff_earlyEvent : ∃ s : State ℕ,
    run (step fun _ => [104, 105])
      (State.new (fun _ => tick 0) (fun _ => ⟨0, 0⟩) fun _ => tick 0) earlyEvent = some s ∧
    s.main = .returned ∧ eventsOf s.session.writer.outputFile = [tick 1] ∧ Flushed s := by
  refine ⟨_, rfl, rfl, by decide, ?_⟩
  exact (@shutdown_iff ℕ (fun _ => [104, 105]) _ (fun _ => tick 0) (fun _ => ⟨0, 0⟩)
    (fun _ => tick 0) earlyEvent rfl (by decide) rfl).mpr (by decide)

end Esp.DrainLoop
