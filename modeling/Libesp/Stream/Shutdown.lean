import Libesp.Schemes.Budget
import Libesp.Stream.DrainLoop
import Libesp.Stream.QuietLoop

/-! @esp stream | name:EventStreamConsumer | scheme:potential |
    source:src/Comms.cpp (DrainLoop, ShutdownAndWait), src/EventStreamIO.cpp

    The end of a session, statement by statement: how long `ShutdownAndWait` waits for the drain thread,
    and what becomes of the names. Once `runThread` is clear, a pass is made only where the pass before
    it saw a ring that was not empty, and then it takes something out of that ring. So an entry of a
    ring pays for a pass and for its own way to the file:

        event ring ──8──▶ writeBuffer ──1──▶ file        string ring ──8──▶ file
        loopTest 3 ─▶ dequeue 2 ─▶ … ─▶ testEvents 5 ─▶ testStrings 4 ─▶ loopTest 3

    The drain thread leaves through a `FlushStrings` that it starts after the call of `ShutdownAndWait`
    and ends with the string ring empty. So, unlike an event, no name that was accepted before the call
    is lost (`names_run`). -/

namespace Esp.DrainLoop
open Event LocklessRing Memory Machine Writer

variable {K : Type} (mem : K → List UInt8)

/-- The events in the ring. -/
def State.waiting (s : State K) : ℕ :=
  (s.session.writer.contextQueue.contents espMaxEventBuffer).length

/-- The strings in the ring. -/
def State.queued (s : State K) : ℕ :=
  (s.session.writer.stringQueue.contents stringQueueCapacity).length

/-- The events in the write buffer. -/
def State.unwritten (s : State K) : ℕ := s.pending.2.toNat

/-- The steps to the end of the drain thread, beside those that the entries of the rings and the buffer
    pay for. -/
def State.toGo (s : State K) : ℕ :=
  match s.drain with
  | .loopTest => 3
  | .dequeue => if s.waiting + s.queued = 0 then 7 else 2
  | .fwrite exit _ _ => if exit then 2 else 8
  | .flushStrings .inFlush => 7
  | .flushStrings .inDrain => if s.queued = 0 then 6 else 0
  | .flushStrings .atExit => 1
  | .testEvents => 5
  | .testStrings => 4
  | .done => 0

def State.potential (s : State K) : ℕ := 8 * (s.waiting + s.queued) + s.unwritten + s.toGo

/-- What the rings have accepted, weighed like what is in them. -/
def State.credit (s : State K) : ℕ := 8 * (s.session.events.length + s.session.strings.length)

/-- A step of the drain thread. -/
def Action.isDrain : Action K → Bool
  | .drain _ => true
  | _ => false

/-- An `fwrite` that has something to write and writes nothing. -/
def refusedWrite (s : State K) : Action K → Bool
  | .drain accepts =>
    match s.drain with
    | .fwrite _ _ toWrite => accepts == 0 && decide (0 < toWrite)
    | _ => false
  | _ => false

/-- What the drain thread may still do from `s₁`, where the actions `bs` lead to `s`: 8 steps for each
    entry of the rings and each that they accept, one for each event in the buffer and for each `fwrite`
    that writes nothing, and 8 more. -/
def waitBound (s₁ : State K) (bs : List (Action K)) (s : State K) : ℕ :=
  8 * (s₁.waiting + s₁.queued + (s.session.events.length - s₁.session.events.length) +
    (s.session.strings.length - s₁.session.strings.length)) +
  s₁.unwritten + (trace (step mem) s₁ bs).countP (fun x => refusedWrite x.1 x.2) + 8

/-- INVARIANT: the drain thread is busy for a reason. -/
def BusyOk (s : State K) : Prop :=
  s.drain = .loopTest → s.session.writer.stillBusy = true → 0 < s.waiting + s.queued

variable {mem} {s s' : State K}

/-! ### Accounts -/

/-- Every accepted event is in the file, in the buffer or in the ring. -/
theorem DrainInv.events_account (h : DrainInv mem s) :
    (eventsOf s.session.writer.outputFile).length + s.unwritten + s.waiting =
      s.session.events.length := by
  have hlen := congrArg List.length h.conserves.events_eq
  rw [List.length_append, List.length_append, length_slice] at hlen
  exact hlen

theorem DrainInv.strings_account (h : DrainInv mem s) :
    (stringsOf s.session.writer.outputFile).length + s.queued = s.session.strings.length := by
  have hlen := congrArg List.length h.conserves.strings_eq
  rw [List.length_append, List.length_map, List.length_map] at hlen
  exact hlen

/-- The end of a step that leaves the file, the buffer and the place of the drain thread alone. -/
theorem toGo_mono (hdrain : s'.drain = s.drain) (hw : s.waiting ≤ s'.waiting)
    (hq : s.queued ≤ s'.queued) : s'.toGo ≤ s.toGo := by
  rw [State.toGo, State.toGo, hdrain]
  rcases s.drain with _ | _ | ⟨exit, written, toWrite⟩ | f | _ | _ | _
  case dequeue =>
    simp only
    split <;> split <;> omega
  case flushStrings =>
    cases f with
    | inDrain =>
      simp only
      split <;> split <;> omega
    | _ => exact le_refl _
  all_goals exact le_refl _

/-- STEP: an accepted entry brings its potential with it. -/
theorem potential_enqueue (h : DrainInv mem s) (h' : DrainInv mem s') (hdrain : s'.drain = s.drain)
    (hfile : s'.session.writer.outputFile = s.session.writer.outputFile)
    (hused : s'.session.writer.writeBufferUsed = s.session.writer.writeBufferUsed)
    (hE : s.session.events.length ≤ s'.session.events.length)
    (hS : s.session.strings.length ≤ s'.session.strings.length) :
    s'.potential + s.credit ≤ s.potential + s'.credit ∧ s.waiting ≤ s'.waiting ∧
      s.queued ≤ s'.queued := by
  have he := h.events_account
  have he' := h'.events_account
  have hs := h.strings_account
  have hs' := h'.strings_account
  have hpending : s'.unwritten = s.unwritten := by
    rw [State.unwritten, State.unwritten, State.pending, State.pending, hdrain, hused]
  rw [hfile] at he' hs'
  have hgo := toGo_mono hdrain (by omega) (by omega)
  rw [State.potential, State.potential, State.credit, State.credit]
  omega

/-! ### The steps of the drain thread -/

/-- A step is paid for by the potential, or is an `fwrite` that writes nothing. -/
def Paid (s s' : State K) (a : Action K) : Prop :=
  s'.potential + 1 ≤ s.potential + (if refusedWrite s a then 1 else 0) ∧ BusyOk s'

theorem paid_loopTest {accepts : ℕ} (hbusy : BusyOk s) (hflag : s.runThread = false)
    (hpc : s.drain = .loopTest) (hs : drainStep mem accepts s = some s') :
    Paid s s' (.drain accepts) := by
  simp only [drainStep, hpc, hflag, Bool.false_or] at hs
  have hgo : s.toGo = 3 := by rw [State.toGo, hpc]
  have hunwritten : s.unwritten = s.session.writer.writeBufferUsed.toNat := by
    rw [State.unwritten, State.pending, hpc]
  split at hs
  · rename_i hstill
    obtain rfl := Option.some.inj hs
    have hpos := hbusy hpc hstill
    have hw : (s.goto .dequeue).waiting + (s.goto .dequeue).queued = s.waiting + s.queued := rfl
    have hnext : (s.goto .dequeue).toGo = 2 := by
      simp only [State.toGo, State.goto]
      exact if_neg hpos.ne'
    have hu : (s.goto .dequeue).unwritten = s.session.writer.writeBufferUsed.toNat := rfl
    refine ⟨?_, fun hpc' => by cases hpc'⟩
    rw [State.potential, State.potential, hw, hnext, hgo, hu, hunwritten]
    omega
  · obtain rfl := Option.some.inj hs
    refine ⟨?_, fun hpc' => by cases hpc'⟩
    have hw : (s.goto (.fwrite true 0 s.session.writer.writeBufferUsed)).waiting +
        (s.goto (.fwrite true 0 s.session.writer.writeBufferUsed)).queued =
          s.waiting + s.queued := rfl
    have hnext : (s.goto (.fwrite true 0 s.session.writer.writeBufferUsed)).toGo = 2 := rfl
    have hu : (s.goto (.fwrite true 0 s.session.writer.writeBufferUsed)).unwritten =
        s.session.writer.writeBufferUsed.toNat := rfl
    rw [State.potential, State.potential, hw, hnext, hgo, hu, hunwritten]
    omega

/-- The events that are dequeued pay for the pass; where there are none, the strings do, or it is the
    last of those that were begun with the flag set. -/
theorem paid_dequeue {accepts : ℕ} (h : DrainInv mem s) (hE : s.session.events.length < 2147483647)
    (hpc : s.drain = .dequeue) (hs : drainStep mem accepts s = some s') :
    Paid s s' (.drain accepts) := by
  have hbuf := h.buffer
  have hcons := h.conserves
  have hsize := threshold_lt
  simp only [State.pending, hpc, BufferOk] at hbuf hcons
  have hsession : SessionInv mem s.session := ⟨hcons, hbuf.1, hbuf.2⟩
  have htaken := hsession.dequeues hE
  obtain ⟨hd, hge, -⟩ := hcons.dequeueEvents hE hbuf.1 (by omega)
  have hunwritten : s.unwritten = s.session.writer.writeBufferUsed.toNat := by
    rw [State.unwritten, State.pending, hpc]
  have hgo : 2 ≤ s.toGo ∧ (s.waiting + s.queued = 0 → s.toGo = 7) := by
    rw [State.toGo, hpc]
    simp only
    split
    · exact ⟨by omega, fun _ => rfl⟩
    · exact ⟨le_refl _, fun hzero => absurd hzero (by assumption)⟩
  -- what leaves the ring goes to the buffer
  have haccount := h.events_account
  have haccount' := congrArg List.length hd.events_eq
  have hfile : s.session.writer.dequeueEvents.outputFile = s.session.writer.outputFile := rfl
  rw [List.length_append, List.length_append, length_slice, hfile] at haccount'
  have hless : (s.session.writer.dequeueEvents.contextQueue.contents espMaxEventBuffer).length <
      s.waiting ∨ (s.session.writer.dequeueEvents.contextQueue.contents espMaxEventBuffer).length = 0 ∧
        s.waiting = 0 := by
    rcases htaken with hnil | hlt
    · rw [hnil, List.length_nil]
      omega
    · exact Or.inl hlt
  simp only [drainStep, hpc] at hs
  split at hs
  · rename_i hover
    obtain rfl := Option.some.inj hs
    refine ⟨Nat.le_add_right_of_le ?_, fun hpc' => by cases hpc'⟩
    simp only [RawEventWriter.overThreshold, ge_iff_le, decide_eq_true_eq] at hover
    show 8 * ((s.session.writer.dequeueEvents.contextQueue.contents espMaxEventBuffer).length +
      s.queued) + s.session.writer.dequeueEvents.writeBufferUsed.toNat + 8 + 1 ≤ _
    rw [State.potential]
    omega
  · obtain rfl := Option.some.inj hs
    refine ⟨Nat.le_add_right_of_le ?_, fun hpc' => by cases hpc'⟩
    have hnext : (if s.queued = 0 then 6 else 0) + 1 ≤ 7 ∧
        (0 < s.queued → (if s.queued = 0 then 6 else 0) = 0) := by
      split
      · exact ⟨le_refl _, fun hpos => absurd hpos (by omega)⟩
      · exact ⟨by omega, fun _ => rfl⟩
    show 8 * ((s.session.writer.dequeueEvents.contextQueue.contents espMaxEventBuffer).length +
      s.queued) + s.session.writer.dequeueEvents.writeBufferUsed.toNat +
        (if s.queued = 0 then 6 else 0) + 1 ≤ _
    rw [State.potential]
    omega

theorem paid_fwrite {exit : Bool} {written toWrite : ℤ} {accepts : ℕ} (h : DrainInv mem s)
    (hpc : s.drain = .fwrite exit written toWrite) (hs : drainStep mem accepts s = some s') :
    Paid s s' (.drain accepts) := by
  have hbuf := h.buffer
  simp only [hpc, BufferOk] at hbuf
  have hgo : s.toGo = if exit then 2 else 8 := by rw [State.toGo, hpc]
  have hunwritten : s.unwritten = toWrite.toNat := by rw [State.unwritten, State.pending, hpc]
  have hgot : (s.session.writer.fwriteEvents (fun _ => accepts) written toWrite).1 =
      min (accepts : ℤ) toWrite := rfl
  have hrefused : refusedWrite s (.drain accepts) = (accepts == 0 && decide (0 < toWrite)) := by
    simp only [refusedWrite, hpc]
  simp only [drainStep, hpc, hgot] at hs
  split at hs
  · rename_i hmore
    obtain rfl := Option.some.inj hs
    refine ⟨?_, fun hpc' => by cases hpc'⟩
    set s' := (s.setWriter (s.session.writer.fwriteEvents (fun _ => accepts) written toWrite).2).goto
      (.fwrite exit (written + min (accepts : ℤ) toWrite) (toWrite - min (accepts : ℤ) toWrite))
      with hs'
    have hw : s'.waiting + s'.queued = s.waiting + s.queued := rfl
    have hu : s'.unwritten = (toWrite - min (accepts : ℤ) toWrite).toNat := rfl
    have hnext : s'.toGo = if exit then 2 else 8 := rfl
    rw [State.potential, State.potential, hw, hnext, hgo, hu, hunwritten, hrefused]
    rcases Nat.eq_zero_or_pos accepts with rfl | hpos
    · have hsome : 0 < toWrite := by omega
      simp only [beq_self_eq_true, hsome, decide_true, Bool.and_self, if_true]
      omega
    · omega
  · rename_i hdone
    obtain rfl := Option.some.inj hs
    refine ⟨?_, fun hpc' => by cases hpc'⟩
    set s' := (s.setWriter { (s.session.writer.fwriteEvents (fun _ => accepts) written toWrite).2 with
      writeBufferUsed := 0 }).goto (.flushStrings (if exit then .atExit else .inFlush)) with hs'
    have hw : s'.waiting + s'.queued = s.waiting + s.queued := rfl
    have hu : s'.unwritten = 0 := rfl
    have hnext : s'.toGo = if exit then 1 else 7 := by
      rw [hs']
      cases exit <;> rfl
    rw [State.potential, State.potential, hw, hnext, hgo, hu]
    cases exit <;> simp only [Bool.false_eq_true, if_true, if_false] <;> omega

theorem paid_flushStrings {f : Flusher} {accepts : ℕ} (h : DrainInv mem s)
    (hS : s.session.strings.length < 2147483647) (hpc : s.drain = .flushStrings f)
    (hs : drainStep mem accepts s = some s') : Paid s s' (.drain accepts) := by
  have hcons := h.conserves
  have hunwritten : s.unwritten = s.session.writer.writeBufferUsed.toNat := by
    rw [State.unwritten, State.pending, hpc]
  simp only [drainStep, hpc] at hs
  split at hs
  · rename_i w' hw'
    obtain rfl := Option.some.inj hs
    obtain ⟨-, hused, hqueue, hlen⟩ := hcons.flushString hS hw'
    refine ⟨?_, fun hpc' => by rw [State.setWriter, hpc] at hpc'; cases hpc'⟩
    have hw : (s.setWriter w').waiting = s.waiting := by
      rw [State.waiting, State.waiting, ← hqueue]
      rfl
    have hq : s.queued = (s.setWriter w').queued + 1 := hlen
    have hu : (s.setWriter w').unwritten = s.unwritten := by
      rw [hunwritten, ← hused, State.unwritten, State.pending]
      simp only [State.setWriter, hpc]
    have hgo : (s.setWriter w').toGo ≤ s.toGo + 6 := by
      rw [State.toGo, State.toGo]
      simp only [State.setWriter, hpc]
      cases f with
      | inDrain =>
        simp only
        split <;> omega
      | _ => simp only; omega
    rw [State.potential, State.potential, hw, hu]
    omega
  · rename_i hnone
    obtain rfl := Option.some.inj hs
    have hempty : s.queued = 0 := by rw [State.queued, hcons.flushString_none hS hnone]; rfl
    have hw : (s.goto f.next).waiting + (s.goto f.next).queued = s.waiting + s.queued := rfl
    have hu : (s.goto f.next).unwritten = s.unwritten := by
      rw [hunwritten]
      cases f <;> rfl
    have hgo : (s.goto f.next).toGo + 1 ≤ s.toGo := by
      have hq : (s.goto f.next).queued = 0 := hempty
      rw [State.toGo, State.toGo, hpc]
      cases f with
      | inDrain =>
        simp only [State.goto, Flusher.next, hempty, if_true]
        omega
      | inFlush =>
        simp only [State.goto, Flusher.next]
        exact (Nat.succ_le_succ (if_pos hq).le)
      | atExit => exact le_refl _
    refine ⟨?_, fun hpc' => by cases f <;> cases hpc'⟩
    rw [State.potential, State.potential, hw, hu]
    omega

theorem paid_testEvents {accepts : ℕ} (h : DrainInv mem s) (hpc : s.drain = .testEvents)
    (hs : drainStep mem accepts s = some s') : Paid s s' (.drain accepts) := by
  have hgo : s.toGo = 5 := by rw [State.toGo, hpc]
  have hunwritten : s.unwritten = s.session.writer.writeBufferUsed.toNat := by
    rw [State.unwritten, State.pending, hpc]
  have hempty := empty_iff h.conserves.eventRing
  simp only [drainStep, hpc] at hs
  split at hs
  · obtain rfl := Option.some.inj hs
    refine ⟨?_, fun hpc' => by cases hpc'⟩
    show 8 * (s.waiting + s.queued) + s.session.writer.writeBufferUsed.toNat + 4 + 1 ≤ _
    rw [State.potential, hgo, hunwritten]
    omega
  · rename_i hsome
    obtain rfl := Option.some.inj hs
    refine ⟨?_, ?_⟩
    · show 8 * (s.waiting + s.queued) + s.session.writer.writeBufferUsed.toNat + 3 + 1 ≤ _
      rw [State.potential, hgo, hunwritten]
      omega
    · intro _ _
      have hpos : 0 < s.waiting := List.length_pos_iff.mpr fun hnil => hsome (hempty.mpr hnil)
      exact Nat.add_pos_left hpos _

theorem paid_testStrings {accepts : ℕ} (h : DrainInv mem s) (hpc : s.drain = .testStrings)
    (hs : drainStep mem accepts s = some s') : Paid s s' (.drain accepts) := by
  have hgo : s.toGo = 4 := by rw [State.toGo, hpc]
  have hunwritten : s.unwritten = s.session.writer.writeBufferUsed.toNat := by
    rw [State.unwritten, State.pending, hpc]
  have hempty := empty_iff h.conserves.stringRing
  simp only [drainStep, hpc] at hs
  obtain rfl := Option.some.inj hs
  refine ⟨?_, ?_⟩
  · show 8 * (s.waiting + s.queued) + s.session.writer.writeBufferUsed.toNat + 3 + 1 ≤ _
    rw [State.potential, hgo, hunwritten]
    omega
  · intro _ hstill
    have hfalse : s.session.writer.stringQueue.empty stringQueueCapacity = false :=
      (Bool.not_eq_true' _).mp hstill
    have hpos : 0 < s.queued := by
      refine List.length_pos_iff.mpr fun hnil => ?_
      rw [RingQueue.empty, hempty.mpr hnil] at hfalse
      cases hfalse
    exact Nat.add_pos_right _ hpos

/-- STEP: with the flag clear every step of the drain thread is paid for. -/
theorem paid_drain {accepts : ℕ} (h : DrainInv mem s) (hbusy : BusyOk s)
    (hflag : s.runThread = false) (hE : s.session.events.length < 2147483647)
    (hS : s.session.strings.length < 2147483647) (hs : drainStep mem accepts s = some s') :
    Paid s s' (.drain accepts) := by
  rcases hpc : s.drain with _ | _ | ⟨exit, written, toWrite⟩ | f | _ | _ | _
  case loopTest => exact paid_loopTest hbusy hflag hpc hs
  case dequeue => exact paid_dequeue h hE hpc hs
  case fwrite => exact paid_fwrite h hpc hs
  case flushStrings => exact paid_flushStrings h hS hpc hs
  case testEvents => exact paid_testEvents h hpc hs
  case testStrings => exact paid_testStrings h hpc hs
  case done =>
    simp only [drainStep, hpc] at hs
    cases hs

/-! ### Runs -/

theorem busyOk_drain {accepts : ℕ} (h : DrainInv mem s) (hE : s.session.events.length < 2147483647)
    (hS : s.session.strings.length < 2147483647) (hs : drainStep mem accepts s = some s') :
    BusyOk s' := by
  rcases hpc : s.drain with _ | _ | ⟨exit, written, toWrite⟩ | f | _ | _ | _
  case loopTest =>
    simp only [drainStep, hpc] at hs
    split at hs <;> obtain rfl := Option.some.inj hs <;> exact fun hpc' => by cases hpc'
  case dequeue => exact (paid_dequeue h hE hpc hs).2
  case fwrite => exact (paid_fwrite h hpc hs).2
  case flushStrings => exact (paid_flushStrings h hS hpc hs).2
  case testEvents => exact (paid_testEvents h hpc hs).2
  case testStrings => exact (paid_testStrings h hpc hs).2
  case done =>
    simp only [drainStep, hpc] at hs
    cases hs

/-- The main thread moves no one else. -/
theorem mainStep_drain (hs : mainStep s = some s') :
    s'.session = s.session ∧ s'.drain = s.drain ∧ (s.runThread = false → s'.runThread = false) := by
  simp only [mainStep] at hs
  split at hs
  case h_1 => obtain rfl := Option.some.inj hs; exact ⟨rfl, rfl, id⟩
  case h_2 =>
    split at hs <;> obtain rfl := Option.some.inj hs
    · exact ⟨rfl, rfl, fun _ => rfl⟩
    · exact ⟨rfl, rfl, id⟩
  case h_3 =>
    split at hs
    · obtain rfl := Option.some.inj hs; exact ⟨rfl, rfl, id⟩
    · cases hs
  case h_4 => cases hs

theorem drainStep_runThread {accepts : ℕ} (hs : drainStep mem accepts s = some s') :
    s'.runThread = s.runThread ∧ s'.main = s.main := by
  simp only [drainStep] at hs
  split at hs
  case h_4 => split at hs <;> obtain rfl := Option.some.inj hs <;> exact ⟨rfl, rfl⟩
  case h_6 => obtain rfl := Option.some.inj hs; exact ⟨rfl, rfl⟩
  case h_7 => cases hs
  all_goals split at hs <;> obtain rfl := Option.some.inj hs <;> exact ⟨rfl, rfl⟩

/-- An offer moves the ring it is made to, and no thread. -/
theorem potential_offer (h : DrainInv mem s) {session : Session K}
    (h' : DrainInv mem { s with session := session }) (hbusy : BusyOk s)
    (hfile : session.writer.outputFile = s.session.writer.outputFile)
    (hused : session.writer.writeBufferUsed = s.session.writer.writeBufferUsed)
    (hstill : session.writer.stillBusy = s.session.writer.stillBusy)
    (hE : s.session.events.length ≤ session.events.length)
    (hS : s.session.strings.length ≤ session.strings.length) :
    BusyOk { s with session := session } ∧
      State.potential { s with session := session } + s.credit ≤
        s.potential + State.credit { s with session := session } := by
  obtain ⟨hpaid, hw, hq⟩ := potential_enqueue h h' rfl hfile hused hE hS
  refine ⟨?_, hpaid⟩
  intro hpc hb
  have := hbusy hpc (hstill ▸ hb)
  omega

/-- STEP: whoever moves, the step is paid for, and no one sets the flag again. -/
theorem step_paid {a : Action K} (h : DrainInv mem s) (h' : DrainInv mem s') (hbusy : BusyOk s)
    (hN : s'.accepted < 2147483647) (hs : step mem s a = some s') :
    BusyOk s' ∧ (s.runThread = false → s'.runThread = false ∧
      s'.potential + (if a.isDrain then 1 else 0) + s.credit ≤
        s.potential + (if refusedWrite s a then 1 else 0) + s'.credit) := by
  have hgrow := accepted_step hs
  have hE : s.session.events.length < 2147483647 :=
    lt_of_le_of_lt ((le_max_left _ _).trans hgrow) hN
  have hS : s.session.strings.length < 2147483647 :=
    lt_of_le_of_lt ((le_max_right _ _).trans hgrow) hN
  cases a with
  | enqueueEvent e =>
    obtain rfl := Option.some.inj hs
    obtain ⟨hb, hpaid⟩ := potential_offer h h' hbusy rfl rfl rfl (enqueueEvent_length s.session e).1
      (le_refl _)
    exact ⟨hb, fun hflag => ⟨hflag, hpaid⟩⟩
  | enqueueString r =>
    obtain rfl := Option.some.inj hs
    obtain ⟨hb, hpaid⟩ := potential_offer h h' hbusy rfl rfl rfl (le_refl _)
      (enqueueString_length s.session r).1
    exact ⟨hb, fun hflag => ⟨hflag, hpaid⟩⟩
  | drain accepts =>
    refine ⟨busyOk_drain h hE hS hs, fun hflag => ⟨(drainStep_runThread hs).1.trans hflag, ?_⟩⟩
    obtain ⟨hpaid, -⟩ := paid_drain h hbusy hflag hE hS hs
    obtain ⟨he, hst⟩ := drainStep_logs hs
    have hcredit : s'.credit = s.credit := by rw [State.credit, State.credit, he, hst]
    rw [hcredit]
    exact Nat.add_le_add_right hpaid _
  | main =>
    obtain ⟨hsession, hdrain, hflag'⟩ := mainStep_drain hs
    have hw : s'.waiting = s.waiting := by rw [State.waiting, State.waiting, hsession]
    have hq : s'.queued = s.queued := by rw [State.queued, State.queued, hsession]
    have hcredit : s'.credit = s.credit := by rw [State.credit, State.credit, hsession]
    have hpotential : s'.potential = s.potential := by
      rw [State.potential, State.potential, hw, hq, State.unwritten, State.unwritten, State.pending,
        State.pending, State.toGo, State.toGo, hdrain, hsession, hw, hq]
    refine ⟨?_, fun hflag => ⟨hflag' hflag, ?_⟩⟩
    · intro hpc hb
      rw [hw, hq]
      exact hbusy (hdrain ▸ hpc) (hsession ▸ hb)
    · rw [hcredit, hpotential]
      exact le_refl _

theorem toGo_le (s : State K) : s.toGo ≤ 8 := by
  rw [State.toGo]
  rcases s.drain with _ | _ | ⟨exit, written, toWrite⟩ | f | _ | _ | _
  case fwrite => cases exit <;> simp
  case dequeue => simp only; split <;> omega
  case flushStrings =>
    cases f with
    | inDrain => simp only; split <;> omega
    | _ => simp
  all_goals simp

/-- A drain thread that is not at its end has a step to take, and potential left for it. -/
theorem drain_enabled (accepts : ℕ) (hpc : s.drain ≠ .done) :
    (drainStep mem accepts s).isSome = true := by
  rw [drainStep]
  rcases hd : s.drain with _ | _ | ⟨exit, written, toWrite⟩ | f | _ | _ | _
  case done => exact absurd hd hpc
  case testStrings => rfl
  all_goals simp only; split <;> rfl

theorem potential_pos (hpc : s.drain ≠ .done) : 0 < s.potential := by
  have hsum : 0 < 8 * (s.waiting + s.queued) + s.toGo := by
    rw [State.toGo]
    rcases hd : s.drain with _ | _ | ⟨exit, written, toWrite⟩ | f | _ | _ | _
    case done => exact absurd hd hpc
    case dequeue => simp only; split <;> omega
    case fwrite => cases exit <;> simp
    case flushStrings =>
      cases f with
      | inDrain => simp only; split <;> omega
      | _ => simp
    all_goals simp
  rw [State.potential]
  omega

theorem logs_grow {a : Action K} (hs : step mem s a = some s') :
    s.session.events.length ≤ s'.session.events.length ∧
      s.session.strings.length ≤ s'.session.strings.length := by
  cases a with
  | enqueueEvent e =>
    obtain rfl := Option.some.inj hs
    exact ⟨(enqueueEvent_length s.session e).1, le_refl _⟩
  | enqueueString r =>
    obtain rfl := Option.some.inj hs
    exact ⟨le_refl _, (enqueueString_length s.session r).1⟩
  | drain accepts =>
    obtain ⟨he, hst⟩ := drainStep_logs hs
    exact ⟨(congrArg List.length he).ge, (congrArg List.length hst).ge⟩
  | main =>
    rw [mainStep_session hs]
    exact ⟨le_refl _, le_refl _⟩

/-- CORRECT: from the moment the flag is clear, however the producers go on, the drain thread takes no
    more steps than the bound. It can take its next step, and has not taken them all, until it is at
    its end; then the main thread can join it. -/
theorem shutdownEnds_run (junk : ℤ → ProfileEvent) (junk' : ℤ → RuntimeStringReference K)
    (junk'' : ℤ → ProfileEvent) {as bs : List (Action K)} {s₁ : State K}
    (has : run (step mem) (State.new junk junk' junk'') as = some s₁) (hflag : s₁.runThread = false)
    (hbs : run (step mem) s₁ bs = some s) (hN : s.accepted < 2147483647) :
    bs.countP Action.isDrain ≤ waitBound mem s₁ bs s ∧
      (s.drain ≠ .done → bs.countP Action.isDrain < waitBound mem s₁ bs s ∧
        ∀ accepts, (drainStep mem accepts s).isSome = true) ∧
      (s.drain = .done → s.main = .joining → (mainStep s).isSome = true) := by
  have hN₁ : s₁.accepted < 2147483647 :=
    lt_of_le_of_lt (run_mono (fun _ _ _ => accepted_step) bs hbs) hN
  have hstart : DrainInv mem s₁ ∧ BusyOk s₁ := run_inv_bounded (I := fun s => DrainInv mem s ∧ BusyOk s)
    (G := fun _ _ => True) (fun _ _ _ => accepted_step)
    (fun _ _ _ hi _ hlt hst => by
      have hi' := drainInv_step hi.1 hst hlt
      exact ⟨hi', (step_paid hi.1 hi' hi.2 hlt hst).1⟩) as (meets_true _ _)
    ⟨drainInv_new junk junk' junk'', fun _ hb => by cases hb⟩ has hN₁
  have hledger : s.potential + ((trace (step mem) s₁ bs).map
        fun x => if x.2.isDrain then 1 else 0).sum + s₁.credit ≤
      s₁.potential + ((trace (step mem) s₁ bs).map
        fun x => if refusedWrite x.1 x.2 then 1 else 0).sum + s.credit := (run_ledger
    (I := fun s : State K => (DrainInv mem s ∧ BusyOk s) ∧ s.runThread = false)
    State.potential State.credit (fun _ a => if a.isDrain then 1 else 0)
    (fun s a => if refusedWrite s a then 1 else 0)
    (fun u a v hi hbelow hs => by
      have hi' := drainInv_step hi.1.1 hs (hbelow v hs)
      obtain ⟨hb, hpaid⟩ := step_paid hi.1.1 hi' hi.1.2 (hbelow v hs) hs
      obtain ⟨hflag', hpay⟩ := hpaid hi.2
      exact ⟨⟨⟨hi', hb⟩, hflag'⟩, hpay⟩) bs
    (meets_below (fun _ _ _ => accepted_step) bs hbs hN) ⟨hstart, hflag⟩ hbs).2
  have hcount : ((trace (step mem) s₁ bs).map fun x => if x.2.isDrain then 1 else 0).sum =
      bs.countP Action.isDrain := by
    rw [sum_ones (fun x : State K × Action K => x.2.isDrain)]
    conv_rhs => rw [← trace_actions hbs, List.countP_map]
    rfl
  have hevents := run_mono (m := fun s : State K => s.session.events.length)
    (fun _ _ _ hs => (logs_grow hs).1) bs hbs
  have hstrings := run_mono (m := fun s : State K => s.session.strings.length)
    (fun _ _ _ hs => (logs_grow hs).2) bs hbs
  have hpotential : s₁.potential = 8 * (s₁.waiting + s₁.queued) + s₁.unwritten + s₁.toGo := rfl
  have hgo := toGo_le s₁
  rw [hcount, sum_ones (fun x : State K × Action K => refusedWrite x.1 x.2), State.credit,
    State.credit] at hledger
  rw [waitBound]
  refine ⟨by omega, fun hpc => ⟨?_, fun accepts => drain_enabled accepts hpc⟩, ?_⟩
  · have hpos := potential_pos hpc
    omega
  · intro hdone hjoin
    rw [mainStep, hjoin]
    simp only [hdone]
    rfl

/-- `earlyEvent` up to the moment the flag is clear: one event is in the buffer and the writer is not
    busy. -/
theorem shutdownEnds_run_earlyEvent : ∃ s₁ s : State ℕ,
    run (step fun _ => [104, 105])
      (State.new (fun _ => tick 0) (fun _ => ⟨0, 0⟩) fun _ => tick 0) (earlyEvent.take 8) = some s₁ ∧
    run (step fun _ => [104, 105]) s₁ (earlyEvent.drop 8) = some s ∧ s.drain = .done ∧
    (earlyEvent.drop 8).countP Action.isDrain = 3 ∧
    (earlyEvent.drop 8).countP Action.isDrain ≤
      waitBound (fun _ => [104, 105]) s₁ (earlyEvent.drop 8) s := by
  refine ⟨_, _, rfl, rfl, rfl, rfl, ?_⟩
  exact (@shutdownEnds_run ℕ (fun _ => [104, 105]) _ (fun _ => tick 0) (fun _ => ⟨0, 0⟩)
    (fun _ => tick 0) (earlyEvent.take 8) (earlyEvent.drop 8) _ rfl rfl rfl (by decide)).1

/-! ### Names -/

/-- The places after the last loop test. -/
def DrainPc.leaving : DrainPc → Prop
  | .fwrite exit _ _ => exit = true
  | .flushStrings f => f = .atExit
  | .done => True
  | _ => False

/-- INVARIANT: the drain thread leaves the loop only where the flag is clear, and ends with the first
    `n` strings in the file. -/
structure NamesInv (n : ℕ) (s : State K) : Prop where
  cleared : s.drain.leaving → s.runThread = false
  written : s.drain = .done → n ≤ (stringsOf s.session.writer.outputFile).length

/-- STEP: a `FlushStrings` at its end has written every string, and it is the last thing the thread
    does. -/
theorem NamesInv.drain {n accepts : ℕ} (hn : NamesInv n s) (h : DrainInv mem s)
    (hle : n ≤ s.session.strings.length) (hS : s.session.strings.length < 2147483647)
    (hs : drainStep mem accepts s = some s') : NamesInv n s' := by
  have hclear := hn.cleared
  rcases hpc : s.drain with _ | _ | ⟨exit, written, toWrite⟩ | f | _ | _ | _ <;>
    simp only [drainStep, hpc] at hs <;> rw [hpc] at hclear
  case loopTest =>
    split at hs <;> obtain rfl := Option.some.inj hs
    · exact ⟨False.elim, fun hd => by cases hd⟩
    · rename_i hexit
      rw [Bool.or_eq_true, not_or, Bool.not_eq_true] at hexit
      exact ⟨fun _ => hexit.1, fun hd => by cases hd⟩
  case dequeue =>
    split at hs <;> obtain rfl := Option.some.inj hs
    · exact ⟨fun hl => absurd hl Bool.false_ne_true, fun hd => by cases hd⟩
    · exact ⟨(fun hl => by cases hl), fun hd => by cases hd⟩
  case fwrite =>
    split at hs <;> obtain rfl := Option.some.inj hs
    · exact ⟨hclear, fun hd => by cases hd⟩
    · refine ⟨fun hl => hclear ?_, fun hd => by cases exit <;> cases hd⟩
      cases exit with
      | true => rfl
      | false => cases hl
  case flushStrings =>
    split at hs
    · obtain rfl := Option.some.inj hs
      exact ⟨by simpa only [State.setWriter, hpc] using hclear,
        fun hd => by rw [State.setWriter, hpc] at hd; cases hd⟩
    · rename_i hnone
      obtain rfl := Option.some.inj hs
      cases f with
      | atExit =>
        refine ⟨fun _ => hclear rfl, fun _ => ?_⟩
        have haccount := h.strings_account
        rw [State.queued, h.conserves.flushString_none hS hnone, List.length_nil] at haccount
        exact hle.trans haccount.ge
      | inFlush => exact ⟨(fun hl => by cases hl), fun hd => by cases hd⟩
      | inDrain => exact ⟨False.elim, fun hd => by cases hd⟩
  case testEvents =>
    split at hs <;> obtain rfl := Option.some.inj hs <;>
      exact ⟨False.elim, fun hd => by cases hd⟩
  case testStrings =>
    obtain rfl := Option.some.inj hs
    exact ⟨False.elim, fun hd => by cases hd⟩
  case done => cases hs

/-- STEP: no one else writes to the file, or sets the flag. -/
theorem namesInv_step {n : ℕ} {a : Action K} (hn : NamesInv n s) (h : DrainInv mem s)
    (hle : n ≤ s.session.strings.length) (hN : s'.accepted < 2147483647)
    (hs : step mem s a = some s') : NamesInv n s' := by
  have hS : s.session.strings.length < 2147483647 :=
    lt_of_le_of_lt ((le_max_right _ _).trans (accepted_step hs)) hN
  cases a with
  | enqueueEvent e =>
    obtain rfl := Option.some.inj hs
    exact ⟨hn.cleared, hn.written⟩
  | enqueueString r =>
    obtain rfl := Option.some.inj hs
    exact ⟨hn.cleared, hn.written⟩
  | drain accepts => exact hn.drain h hle hS hs
  | main =>
    obtain ⟨hsession, hdrain, hflag⟩ := mainStep_drain hs
    exact ⟨fun hl => hflag (hn.cleared (hdrain ▸ hl)), fun hd => hsession ▸ hn.written (hdrain ▸ hd)⟩

theorem strings_grow {a : Action K} (hs : step mem s a = some s') :
    s.session.strings <+: s'.session.strings := by
  cases a with
  | enqueueEvent e => obtain rfl := Option.some.inj hs; exact List.prefix_rfl
  | enqueueString r =>
    obtain rfl := Option.some.inj hs
    rw [Session.enqueueString]
    split
    · exact List.prefix_append _ _
    · exact List.prefix_rfl
  | drain accepts => exact (drainStep_logs hs).2 ▸ List.prefix_rfl
  | main => rw [mainStep_session hs]

/-- RUN: the strings that are accepted while the flag is set. -/
theorem namesInv_run (junk : ℤ → ProfileEvent) (junk' : ℤ → RuntimeStringReference K)
    (junk'' : ℤ → ProfileEvent) {as bs : List (Action K)} {s₁ : State K}
    (has : run (step mem) (State.new junk junk' junk'') as = some s₁) (hflag : s₁.runThread = true)
    (hbs : run (step mem) s₁ bs = some s) (hN : s.accepted < 2147483647) :
    DrainInv mem s ∧ NamesInv s₁.session.strings.length s ∧
      s₁.session.strings <+: s.session.strings := by
  have hN₁ : s₁.accepted < 2147483647 :=
    lt_of_le_of_lt (run_mono (fun _ _ _ => accepted_step) bs hbs) hN
  -- up to `s₁` nothing is asked of the file
  have hstart : DrainInv mem s₁ ∧ NamesInv 0 s₁ := run_inv_bounded
    (I := fun s => DrainInv mem s ∧ NamesInv 0 s) (G := fun _ _ => True) (fun _ _ _ => accepted_step)
    (fun _ _ _ hi _ hlt hst =>
      ⟨drainInv_step hi.1 hst hlt, namesInv_step hi.2 hi.1 (Nat.zero_le _) hlt hst⟩) as
    (meets_true _ _) ⟨drainInv_new junk junk' junk'', False.elim, fun _ => Nat.zero_le _⟩ has hN₁
  have hrunning : ¬ s₁.drain.leaving := fun hl => by
    rw [hstart.2.cleared hl] at hflag
    cases hflag
  have hnames : NamesInv s₁.session.strings.length s₁ :=
    ⟨fun hl => absurd hl hrunning, fun hd => absurd (hd ▸ trivial) hrunning⟩
  exact run_inv_bounded
    (I := fun s => DrainInv mem s ∧ NamesInv s₁.session.strings.length s ∧
      s₁.session.strings <+: s.session.strings) (G := fun _ _ => True)
    (fun _ _ _ => accepted_step)
    (fun _ _ _ hi _ hlt hst => ⟨drainInv_step hi.1 hst hlt,
      namesInv_step hi.2.1 hi.1 hi.2.2.length_le hlt hst, hi.2.2.trans (strings_grow hst)⟩)
    bs (meets_true _ _) ⟨hstart.1, hnames, List.prefix_rfl⟩ hbs hN

/-- RETURNS: then they are in the file. -/
theorem NamesInv.returned {strings : List (RuntimeStringReference K)}
    (h : NamesInv strings.length s) (hinv : DrainInv mem s) (hpre : strings <+: s.session.strings)
    (hret : s.main = .returned) :
    strings.map (stored mem) <+: stringsOf s.session.writer.outputFile := by
  have hfile : stringsOf s.session.writer.outputFile <+: s.session.strings.map (stored mem) :=
    ⟨_, hinv.conserves.strings_eq⟩
  refine List.prefix_of_prefix_length_le (hpre.map _) hfile ?_
  rw [List.length_map]
  exact h.written (hinv.joined hret)

/-- CORRECT: every string that is accepted before the flag is cleared is in the file, in its order,
    when `ShutdownAndWait` has returned. -/
theorem names_run (junk : ℤ → ProfileEvent) (junk' : ℤ → RuntimeStringReference K)
    (junk'' : ℤ → ProfileEvent) {as bs : List (Action K)} {s₁ : State K}
    (has : run (step mem) (State.new junk junk' junk'') as = some s₁) (hflag : s₁.runThread = true)
    (hbs : run (step mem) s₁ bs = some s) (hN : s.accepted < 2147483647)
    (hret : s.main = .returned) :
    s₁.session.strings.map (stored mem) <+: stringsOf s.session.writer.outputFile := by
  obtain ⟨hinv, hnames, hpre⟩ := namesInv_run junk junk' junk'' has hflag hbs hN
  exact hnames.returned hinv hpre hret

/-- One idle pass of the drain thread, a name and an event, and a shutdown: the event is lost. -/
def lateName : List (Action ℕ) :=
  [.drain 0, .drain 0, .drain 0, .drain 0, .drain 0, .enqueueString ⟨7, 1⟩, .enqueueEvent (tick 1),
   .main, .main, .drain 0, .drain 0, .drain 0, .drain 0, .main]

theorem names_run_lateName : ∃ s₁ s : State ℕ,
    run (step fun _ => [104, 105])
      (State.new (fun _ => tick 0) (fun _ => ⟨0, 0⟩) fun _ => tick 0) (lateName.take 8) = some s₁ ∧
    run (step fun _ => [104, 105]) s₁ (lateName.drop 8) = some s ∧
    s.main = .returned ∧ s.session.events = [tick 1] ∧ eventsOf s.session.writer.outputFile = [] ∧
    s₁.session.strings.map (stored fun _ => [104, 105]) <+:
      stringsOf s.session.writer.outputFile := by
  refine ⟨_, _, rfl, rfl, rfl, rfl, rfl, ?_⟩
  exact @names_run ℕ (fun _ => [104, 105]) _ (fun _ => tick 0) (fun _ => ⟨0, 0⟩)
    (fun _ => tick 0) (lateName.take 8) (lateName.drop 8) _ rfl rfl rfl (by decide) rfl

end Esp.DrainLoop
