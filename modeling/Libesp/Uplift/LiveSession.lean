import Libesp.Context.Rings
import Libesp.Stream.Shutdown
import Libesp.Uplift.SessionFile

/-! @esp uplift | name:ProfileContext, EventStreamConsumer | scheme:simulation |
    source:src/Context.cpp (Zone, End, Sample, MapStringToReference), src/Comms.cpp (DrainLoop,
    ShutdownAndWait), src/EventStreamIO.cpp

    A session beside its drain thread, statement by statement. A recording call is cut at the enqueues
    it makes, so that the calls of other threads, the statements of `DrainLoop` and those of
    `ShutdownAndWait` come between its string and its event:

        begins ──▶ stamp, stack, table ──▶ TryEnqueue string ──▶ TryEnqueue event
                                        ▲                     ▲
                     other calls, drain thread, shutdown ─────┘

    Two threads that pass the same new name at a time can have the event of the one in the file before
    the string of the other is in its ring. The string is in the file at the end if it got to its ring
    before the flag was cleared (`settledNames_run`). -/

namespace Esp.Uplift
open Event PointerHash LocklessRing Memory Machine
open Context (Process ProfileContext ThreadContext Call Junk Recorder RecorderAction onRings Entry
  queuedNames espRecord_cases espThreadInit_cases mapString_lists namesId)
open Context (oneLetter zoneName probeName openedByTrue)
open Writer (RawEventWriter Session stored)

variable {T K : Type} [DecidableEq T] [DecidableEq K] (sh : Shape K) (mem : K → List UInt8)

/-- An enqueue that a call makes. -/
inductive Offer (K : Type) where
  | string (r : RuntimeStringReference K)
  | event (e : ProfileEvent)

def Offer.string? : Offer K → Option (RuntimeStringReference K)
  | .string r => some r
  | .event _ => none

structure LiveSession (T K : Type) where
  /-- The context; its rings are those of the stream. -/
  process : Process T K
  stream : DrainLoop.State K
  /-- The enqueues that the calls have still to make. -/
  pending : List (T × Offer K)

inductive LiveAction (T K : Type) where
  /-- A recording call, up to its first enqueue. -/
  | begins (t : T) (now : Int64) (c : Call K)
  /-- The next enqueue of the call of `t`. -/
  | offers (t : T)
  | threadInit (t : T)
  | frameEnd (now : Int64)
  | setPaused (shouldPause : Bool)
  /-- The next statement of the drain thread, of the thread in `ShutdownAndWait`. -/
  | drain (accepts : ℕ)
  | main

def LiveSession.new (P : Process T K) (junk : Junk K) (buffer : ℤ → ProfileEvent) :
    LiveSession T K :=
  ⟨P, DrainLoop.State.new junk.events junk.strings buffer, []⟩

/-- The session as a recording call finds it. -/
def LiveSession.recorder (s : LiveSession T K) : Recorder T K :=
  { process := { s.process with
      context := s.process.context.map fun C =>
        C.withRings s.stream.session.writer.contextQueue s.stream.session.writer.stringQueue }
    writer := s.stream.session.writer }

/-- The enqueues of a call: the string of a new name, then the event. -/
def LiveSession.enqueues (s : LiveSession T K) (t : T) (now : Int64) (c : Call K) : List (Offer K) :=
  (offeredString sh s.recorder (.recorder (.record t now c))).toList.map Offer.string ++
    (offeredEvent sh s.recorder (.recorder (.record t now c))).toList.map Offer.event

/-- The first enqueue that the call of `t` has still to make; `none` when `t` is in no call. -/
def LiveSession.next (s : LiveSession T K) (t : T) : Option (T × Offer K) :=
  s.pending.find? fun x => x.1 = t

def Offer.enqueue (session : Session K) : Offer K → Session K
  | .string r => session.enqueueString r
  | .event e => session.enqueueEvent e

def LiveSession.onProcess (s : LiveSession T K) (P : Option (Process T K)) :
    Option (LiveSession T K) :=
  P.map fun P => { s with process := P }

def liveStep (s : LiveSession T K) : LiveAction T K → Option (LiveSession T K)
  | .begins t now c =>
    match s.next t with
    | some _ => none
    | none => (s.recorder.process.espRecord sh t now c).map fun P => { s with
        process := P
        pending := s.pending ++ (s.enqueues sh t now c).map (Prod.mk t) }
  | .offers t => (s.next t).map fun x => { s with
    stream := { s.stream with session := x.2.enqueue s.stream.session }
    pending := s.pending.eraseP fun y => y.1 = t }
  | .threadInit t => s.onProcess (s.process.espThreadInit t)
  | .frameEnd now => s.onProcess (s.process.mapContext fun C => C.frameEnd now)
  | .setPaused shouldPause => s.onProcess (some { s.process with paused := shouldPause })
  | .drain accepts => (DrainLoop.drainStep mem accepts s.stream).map fun d => { s with stream := d }
  | .main => (DrainLoop.mainStep s.stream).map fun d => { s with stream := d }

/-- The condition on one step: the string of this pointer does not find its ring full. -/
def StringRoom (ptr : K) (s : LiveSession T K) : LiveAction T K → Prop
  | .offers t => ∀ r ∈ (s.next t).bind fun x => x.2.string?, r.ptr = ptr →
    s.stream.session.writer.stringQueue.full stringQueueCapacity = false
  | _ => True

instance (ptr : K) (s : LiveSession T K) (a : LiveAction T K) : Decidable (StringRoom ptr s a) :=
  match a with
  | .offers t => inferInstanceAs (Decidable (∀ r ∈ (s.next t).bind fun x => x.2.string?,
    r.ptr = ptr → s.stream.session.writer.stringQueue.full stringQueueCapacity = false))
  | .begins _ _ _ | .threadInit _ | .frameEnd _ | .setPaused _ | .drain _ | .main =>
    inferInstanceAs (Decidable True)

/-- The pointer has this reference, and its string has been handed to the string ring. -/
def Settled (s : LiveSession T K) (ptr : K) (ref : UInt32) : Prop :=
  (∃ C, s.process.context = some C ∧ C.strings.get sh (some ptr) = ref) ∧
    ∀ x ∈ s.pending, x.2 ≠ .string ⟨ref, ptr⟩

variable {sh mem} {s s' : LiveSession T K} {C : ProfileContext K} {names names' : List K}
  {refused : List (RuntimeStringReference K)}

/-! ### The drain thread -/

/-- REFINEMENT: the drain thread sees producers that enqueue. -/
theorem stream_step {a : LiveAction T K} (hs : liveStep sh mem s a = some s') :
    s'.stream = s.stream ∨ ∃ b, DrainLoop.step mem s.stream b = some s'.stream := by
  cases a with
  | begins t now c =>
    rw [liveStep] at hs
    split at hs
    · cases hs
    · obtain ⟨P, -, rfl⟩ := Option.map_eq_some_iff.mp hs
      exact Or.inl rfl
  | offers t =>
    obtain ⟨⟨u, o⟩, -, rfl⟩ := Option.map_eq_some_iff.mp hs
    cases o with
    | string r => exact Or.inr ⟨.enqueueString r, rfl⟩
    | event e => exact Or.inr ⟨.enqueueEvent e, rfl⟩
  | threadInit t =>
    obtain ⟨P, -, rfl⟩ := Option.map_eq_some_iff.mp hs
    exact Or.inl rfl
  | frameEnd now =>
    obtain ⟨P, -, rfl⟩ := Option.map_eq_some_iff.mp hs
    exact Or.inl rfl
  | setPaused b =>
    obtain rfl := Option.some.inj hs
    exact Or.inl rfl
  | drain accepts =>
    obtain ⟨d, hd, rfl⟩ := Option.map_eq_some_iff.mp hs
    exact Or.inr ⟨.drain accepts, hd⟩
  | main =>
    obtain ⟨d, hd, rfl⟩ := Option.map_eq_some_iff.mp hs
    exact Or.inr ⟨.main, hd⟩

/-! ### A call alone -/

omit [DecidableEq K] in
theorem next_none {t : T} : s.next t = none ↔ ∀ x ∈ s.pending, x.1 ≠ t := by
  rw [LiveSession.next, List.find?_eq_none]
  exact forall₂_congr fun x _ => not_congr decide_eq_true_iff

/-- The enqueues of one call, one after the other. -/
theorem offers_alone {t : T} {ps : List (T × Offer K)} (hps : ∀ x ∈ ps, x.1 ≠ t) (os : List (Offer K))
    (hpending : s.pending = ps ++ os.map (Prod.mk t)) :
    run (liveStep sh mem) s (List.replicate os.length (.offers t)) =
      some { s with
        stream := { s.stream with session := os.foldl Offer.enqueue s.stream.session }
        pending := ps } := by
  induction os generalizing s with
  | nil =>
    rw [List.map_nil, List.append_nil] at hpending
    rw [← hpending]
    rfl
  | cons o os ih =>
    have hnext : s.next t = some (t, o) := by
      have hnone : ps.find? (fun x => decide (x.1 = t)) = none :=
        List.find?_eq_none.mpr fun x hx => by simpa using hps x hx
      rw [LiveSession.next, hpending, List.find?_append, hnone, Option.none_or, List.map_cons]
      exact List.find?_cons_of_pos (decide_eq_true rfl)
    have hrest : s.pending.eraseP (fun y => y.1 = t) = ps ++ os.map (Prod.mk t) := by
      rw [hpending, List.eraseP_append_right _ fun x hx => by simpa using hps x hx, List.map_cons]
      exact congrArg (ps ++ ·) (List.eraseP_cons_of_pos (decide_eq_true rfl))
    have hs : liveStep sh mem s (.offers t) =
        some { s with
          stream := { s.stream with session := o.enqueue s.stream.session }
          pending := ps ++ os.map (Prod.mk t) } := by
      rw [liveStep, hnext, Option.map_some, hrest]
    rw [List.length_cons, List.replicate_succ]
    exact run_cons_some.mpr ⟨_, hs, ih rfl⟩

omit [DecidableEq K] in
theorem enqueued_rings (session : Session K) (r : Option (RuntimeStringReference K))
    (ev : Option ProfileEvent) :
    ((r.toList.map Offer.string ++ ev.toList.map Offer.event).foldl Offer.enqueue
        session).writer.contextQueue = ev.elim session.writer.contextQueue (fun ev =>
          (session.writer.contextQueue.tryEnqueue espMaxEventBuffer ev).2) ∧
      ((r.toList.map Offer.string ++ ev.toList.map Offer.event).foldl Offer.enqueue
        session).writer.stringQueue = r.elim session.writer.stringQueue fun r =>
          (session.writer.stringQueue.tryEnqueue stringQueueCapacity r).2 := by
  cases r <;> cases ev <;> exact ⟨rfl, rfl⟩

/-- REFINEMENT: a call that runs alone does what the call does from start to end. -/
theorem live_alone {t : T} {now : Int64} {c : Call K} {P : Process T K} (hfree : s.next t = none)
    (hC : s.process.context = some C) (hP : s.recorder.process.espRecord sh t now c = some P) :
    ∃ n s', run (liveStep sh mem) s (.begins t now c :: List.replicate n (.offers t)) = some s' ∧
      s'.recorder.process = P ∧ s'.pending = s.pending ∧ s'.stream.drain = s.stream.drain := by
  have hbegins : liveStep sh mem s (.begins t now c) = some { s with
      process := P
      pending := s.pending ++ (s.enqueues sh t now c).map (Prod.mk t) } := by
    simp only [liveStep, hfree, hP, Option.map_some]
  refine ⟨_, _, run_cons_some.mpr ⟨_, hbegins, offers_alone (next_none.mp hfree) _ rfl⟩, ?_, rfl, rfl⟩
  have hcontext : s.recorder.process.context = some (C.withRings
      s.stream.session.writer.contextQueue s.stream.session.writer.stringQueue) :=
    congrArg (Option.map _) hC
  rcases espRecord_cases hP with ⟨hp, rfl⟩ | ⟨-, hinit, hnone⟩ | ⟨hp, P₁, C₁, i, hinit, hC₁, hi, hlt, rfl⟩
  · obtain ⟨hstring, hevent⟩ := @offered_paused T K _ _ sh s.recorder t now c hp
    rw [LiveSession.enqueues, hstring, hevent]
    simp only [LiveSession.recorder, hC, Option.map_some]
    rfl
  · obtain ⟨n, hn⟩ := Context.threadInit_context hinit hcontext
    rw [hn] at hnone
    cases hnone
  · obtain ⟨n, hn⟩ := Context.threadInit_context hinit hcontext
    obtain rfl := Option.some.inj (hn.symm.trans hC₁)
    rw [LiveSession.enqueues, offeredString_recorded hp hinit hC₁ hi hlt,
      offeredEvent_recorded hinit hP]
    set D : ProfileContext K := { C.withRings s.stream.session.writer.contextQueue
      s.stream.session.writer.stringQueue with threadCount := n } with hD
    obtain ⟨hevents, hstrings⟩ := record_rings sh (D.threadContexts i) D P₁.log.length now c
    obtain ⟨hevents', hstrings'⟩ := enqueued_rings s.stream.session
      (((D.threadContexts i).passes c).bind (newString sh D))
      ((D.threadContexts i).record sh D P₁.log.length now c).entry.offered
    have hqueue := hevents'.trans hevents.symm
    have hqueue' := hstrings'.trans hstrings.symm
    simp only [LiveSession.recorder, Process.recordIn, Option.map_some, ProfileContext.withRings,
      hqueue, hqueue']

/-! ### References -/

/-- The event has no name reference, or that of one of the names. -/
def Known (names : List K) (ev : ProfileEvent) : Prop :=
  ev.data.eventNameRef = noRef ∨ ∃ i < names.length, ev.data.eventNameRef = UInt32.ofNat i

omit [DecidableEq K] in
theorem Known.grow {ev : ProfileEvent} (h : Known names ev) (hn : names <+: names') :
    Known names' ev :=
  h.imp_right fun ⟨i, hi, hev⟩ => ⟨i, hi.trans_le hn.length_le, hev⟩

/-- What a call does to the table: the string it hands on, if any, is that of one more name. -/
structure Names (sh : Shape K) (names : List K) (new : Option (RuntimeStringReference K))
    (T' : Table K) (names' : List K) : Prop where
  table : Lists sh T' names'
  grown : names <+: names'
  queued : queuedNames names' = queuedNames names ++ new.toList

omit [DecidableEq T] in
/-- STEP: `MapStringToReference` answers a known reference. -/
theorem names_mapString {T' : Table K} (hT : C.strings = T') (h : Lists sh T' names) (k : K) :
    ∃ names', Names sh names (newString sh C (some k))
        (C.mapStringToReference sh (some k)).2.strings names' ∧
      ((C.mapStringToReference sh (some k)).1 = noRef ∨
        ∃ i < names'.length, (C.mapStringToReference sh (some k)).1 = UInt32.ofNat i) := by
  subst hT
  rw [ProfileContext.mapStringToReference, newString]
  by_cases hk : k ∈ names
  · obtain ⟨i, hi, hki⟩ := List.mem_iff_getElem.mp hk
    have hget := h.get_of_getElem? (List.getElem?_eq_some_iff.mpr ⟨hi, hki⟩)
    simp only [h.isIndex_get.mpr hk, if_true]
    exact ⟨names, ⟨h, List.prefix_rfl, (List.append_nil _).symm⟩, Or.inr ⟨i, hi, hget⟩⟩
  · have hget : isIndex (C.strings.get sh (some k)) = false := by
      rw [h.get_of_notMem hk]
      rfl
    rcases h.put hk with ⟨hput, hfull⟩ | ⟨hput, hlists⟩
    · have hno : isIndex (C.strings.put sh (some k)).1 = false := by
        rw [hput]
        rfl
      simp only [hget, hno, Bool.false_eq_true, if_false]
      exact ⟨names, ⟨by rw [hput]; exact h, List.prefix_rfl, (List.append_nil _).symm⟩, Or.inl trivial⟩
    · have hlt : names.length < (names ++ [k]).length := by
        rw [List.length_append, List.length_singleton]
        exact Nat.lt_succ_self _
      have hidx : isIndex (C.strings.put sh (some k)).1 = true := by
        rw [hput]
        exact isIndex_ofNat (hlists.index_lt hlt)
      simp only [hget, hidx, Bool.false_eq_true, if_false, if_true]
      refine ⟨names ++ [k], ⟨hlists, List.prefix_append _ _, ?_⟩, Or.inr ⟨_, hlt, hput⟩⟩
      rw [Context.queuedNames_concat, hput]
      rfl

omit [DecidableEq T] in
/-- STEP: a recording call leaves only known references on the stack, and offers only such. -/
theorem names_record (th : ThreadContext) (number : ℕ) (now : Int64) {c : Call K} (hc : c.Named)
    (h : Lists sh C.strings names) (hst : ∀ z ∈ th.profileIntervalStack.contents, Known names z) :
    ∃ names', Names sh names ((th.passes c).bind (newString sh C))
        (th.record sh C number now c).context.strings names' ∧
      (∀ z ∈ (th.record sh C number now c).thread.profileIntervalStack.contents, Known names' z) ∧
      ∀ ev, (th.record sh C number now c).entry.offered = some ev → Known names' ev := by
  cases c with
  | zone name =>
    obtain ⟨k, rfl⟩ := Option.ne_none_iff_exists'.mp hc
    rcases hpush : th.profileIntervalStack.push with _ | ⟨slot, stack⟩
    · rw [Context.record_zone_full sh th C number now (some k) hpush, ThreadContext.passes, hpush]
      exact ⟨names, ⟨h, List.prefix_rfl, (List.append_nil _).symm⟩, hst, (fun _ he => by cases he)⟩
    · obtain ⟨names', hn, href⟩ := names_mapString (C := C.nextEventID.2) rfl h k
      simp only [ThreadContext.record, ThreadContext.zone, hpush, ThreadContext.passes,
        Context.push_contents hpush, ThreadContext.stampEvent]
      refine ⟨names', hn, ?_, (fun _ he => by cases he)⟩
      rw [List.forall_mem_cons]
      exact ⟨href, fun z hz => (hst z hz).grow hn.grown⟩
  | endZone =>
    refine ⟨names, ?_⟩
    rcases hpop : th.profileIntervalStack.pop with _ | ⟨slot, stack⟩
    · rw [Context.record_end_empty sh th C number now hpop]
      exact ⟨⟨h, List.prefix_rfl, (List.append_nil _).symm⟩, hst, (fun _ he => by cases he)⟩
    · obtain ⟨evs, hcontents, hstore⟩ := Context.pop_contents hpop
      rw [hcontents, List.forall_mem_cons] at hst
      simp only [ThreadContext.record, ThreadContext.endZone, hpop, hstore, ThreadContext.passes]
      refine ⟨⟨h, List.prefix_rfl, (List.append_nil _).symm⟩, hst.2, ?_⟩
      rintro ev ⟨⟩
      exact hst.1
  | sample name probe =>
    obtain ⟨k, rfl⟩ := Option.ne_none_iff_exists'.mp hc
    obtain ⟨names', hn, href⟩ := names_mapString (C := C.nextEventID.2) rfl h k
    refine ⟨names', hn, fun z hz => (hst z hz).grow hn.grown, ?_⟩
    rintro ev ⟨⟩
    exact href

/-! ### Steps -/

/-- INVARIANT: every name of the table has its string in the ring's log, in a call, or refused; and
    every event, wherever it is, has a known reference. -/
structure LiveInv (sh : Shape K) (s : LiveSession T K) (C : ProfileContext K) (names : List K)
    (refused : List (RuntimeStringReference K)) : Prop where
  context : s.process.context = some C
  table : Lists sh C.strings names
  zones : ∀ i, ∀ z ∈ (C.threadContexts i).profileIntervalStack.contents, Known names z
  offered : ∀ x ∈ s.pending, ∀ ev, x.2 = .event ev → Known names ev
  accepted : ∀ ev ∈ s.stream.session.events, Known names ev
  strings : (s.stream.session.strings ++ (s.pending.filterMap fun x => x.2.string?) ++
    refused).Perm (queuedNames names)

theorem enqueues_strings (s : LiveSession T K) (t : T) (now : Int64) (c : Call K) :
    ((s.enqueues sh t now c).map (Prod.mk t)).filterMap (fun x => x.2.string?) =
      (offeredString sh s.recorder (.recorder (.record t now c))).toList := by
  rw [LiveSession.enqueues]
  cases offeredString sh s.recorder (.recorder (.record t now c)) <;>
    cases offeredEvent sh s.recorder (.recorder (.record t now c)) <;> rfl

theorem enqueues_event {t : T} {now : Int64} {c : Call K} {x : T × Offer K} {ev : ProfileEvent}
    (hx : x ∈ (s.enqueues sh t now c).map (Prod.mk t)) (hev : x.2 = .event ev) :
    offeredEvent sh s.recorder (.recorder (.record t now c)) = some ev := by
  obtain ⟨o, ho, rfl⟩ := List.mem_map.mp hx
  obtain rfl : o = .event ev := hev
  rcases List.mem_append.mp ho with hstring | hevent
  · obtain ⟨r, -, hr⟩ := List.mem_map.mp hstring
    cases hr
  · obtain ⟨e, he, hev⟩ := List.mem_map.mp hevent
    cases hev
    exact Option.mem_toList.mp he

omit [DecidableEq K] in
theorem liveInv_new {P₀ P : Process T K} {junk : Junk K} {main : T} {buffer : ℤ → ProfileEvent}
    (hinit : P₀.espInit junk main = some P) :
    ∃ C, LiveInv sh (LiveSession.new P junk buffer) C [] [] := by
  obtain ⟨n, hn⟩ := Context.threadInit_context hinit rfl
  have htable : Lists sh { ProfileContext.new junk with threadCount := n }.strings [] := lists_new sh
  refine ⟨_, hn, htable, ?_, nofun, nofun, List.Perm.refl _⟩
  intro i z hz
  have hnil : z ∈ ([] : List ProfileEvent) :=
    Slab.contents_new espMaxZoneRecursion (junk.slabs i) ▸ hz
  cases hnil

/-- STEP: a recording call, up to its first enqueue. -/
theorem LiveInv.begins (h : LiveInv sh s C names refused) {t : T} {now : Int64} {c : Call K}
    (hc : c.Named) (hs : liveStep sh mem s (.begins t now c) = some s') :
    ∃ C' names', LiveInv sh s' C' names' refused := by
  rw [liveStep] at hs
  split at hs
  · cases hs
  obtain ⟨P', hP, rfl⟩ := Option.map_eq_some_iff.mp hs
  have hcontext : s.recorder.process.context = some (C.withRings
      s.stream.session.writer.contextQueue s.stream.session.writer.stringQueue) :=
    congrArg (Option.map _) h.context
  rcases espRecord_cases hP with ⟨hp, rfl⟩ | ⟨-, hinit, hnone⟩ | ⟨hp, P₁, C₁, i, hinit, hC₁, hi, hlt, rfl⟩
  · obtain ⟨hstring, hevent⟩ := @offered_paused T K _ _ sh s.recorder t now c hp
    refine ⟨_, names, hcontext, h.table, h.zones, ?_, h.accepted, ?_⟩ <;>
      rw [LiveSession.enqueues, hstring, hevent] <;> simp only [Option.toList_none, List.map_nil,
        List.append_nil]
    · exact h.offered
    · exact h.strings
  · obtain ⟨n, hn⟩ := Context.threadInit_context hinit hcontext
    rw [hn] at hnone
    cases hnone
  · obtain ⟨n, hn⟩ := Context.threadInit_context hinit hcontext
    obtain rfl := Option.some.inj (hn.symm.trans hC₁)
    set D : ProfileContext K := { C.withRings s.stream.session.writer.contextQueue
      s.stream.session.writer.stringQueue with threadCount := n } with hD
    have htable : Lists sh D.strings names := h.table
    obtain ⟨names', hnames, hzones, hoff⟩ := names_record (D.threadContexts i) P₁.log.length now hc
      htable (h.zones i)
    obtain ⟨-, hthreads, -⟩ := Context.record_context sh (D.threadContexts i) D P₁.log.length now c
    refine ⟨_, names', rfl, hnames.table, ?_, ?_, ?_, ?_⟩
    · intro j
      by_cases hj : j = i
      · subst hj
        simpa only [Function.update_self] using hzones
      · simp only [Function.update_of_ne hj, hthreads]
        exact fun z hz => (h.zones j z hz).grow hnames.grown
    · intro x hx ev hev
      rcases List.mem_append.mp hx with hold | hnew
      · exact (h.offered x hold ev hev).grow hnames.grown
      · refine hoff ev ?_
        rw [← offeredEvent_recorded hinit hP]
        exact enqueues_event hnew hev
    · exact fun ev hev => (h.accepted ev hev).grow hnames.grown
    · rw [List.filterMap_append, enqueues_strings, offeredString_recorded hp hinit hC₁ hi hlt,
        hnames.queued]
      refine List.Perm.trans ?_ (h.strings.append_right _)
      simp only [List.append_assoc]
      exact ((List.perm_append_comm).append_left _).append_left _

omit [DecidableEq K] in
/-- The next enqueue of a thread, and those that are left. -/
theorem next_perm {t : T} {x : T × Offer K} (h : s.next t = some x) :
    s.pending.Perm (x :: s.pending.eraseP fun y => y.1 = t) := by
  obtain ⟨hx, before, after, hpending, hfirst⟩ := List.find?_eq_some_iff_append.mp h
  have herase : s.pending.eraseP (fun y => y.1 = t) = before ++ after := by
    rw [hpending, List.eraseP_append_right _ fun y hy => by simpa using hfirst y hy]
    exact congrArg (before ++ ·) (List.eraseP_cons_of_pos hx)
  rw [herase, hpending]
  exact List.perm_middle

/-- STEP: an enqueue. A string is refused where its ring is full. -/
theorem LiveInv.offers (h : LiveInv sh s C names refused) {t : T}
    (hs : liveStep sh mem s (.offers t) = some s') :
    ∃ refused', LiveInv sh s' C names refused' ∧ ∀ ptr, (∀ r ∈ refused, r.ptr ≠ ptr) →
      StringRoom ptr s (.offers t) → ∀ r ∈ refused', r.ptr ≠ ptr := by
  obtain ⟨⟨u, o⟩, hnext, rfl⟩ := Option.map_eq_some_iff.mp hs
  have hperm := next_perm hnext
  have hrest : ∀ x ∈ s.pending.eraseP (fun y => y.1 = t), ∀ ev, x.2 = .event ev → Known names ev :=
    fun x hx => h.offered x (List.mem_of_mem_eraseP hx)
  have hstrings := (((hperm.filterMap fun x => x.2.string?).append_left
    s.stream.session.strings).append_right refused).symm.trans h.strings
  cases o with
  | string r =>
    have hthis : (((u, Offer.string r) :: s.pending.eraseP fun y => y.1 = t).filterMap
        fun x => x.2.string?) = r :: (s.pending.eraseP fun y => y.1 = t).filterMap
          fun x => x.2.string? := rfl
    rw [hthis] at hstrings
    by_cases hfull : s.stream.session.writer.stringQueue.full stringQueueCapacity = true
    · refine ⟨refused ++ [r], ⟨h.context, h.table, h.zones, hrest, h.accepted, ?_⟩, ?_⟩
      · simp only [Offer.enqueue, Session.enqueueString, tryEnqueue_full hfull]
        refine List.Perm.trans ?_ hstrings
        rw [← List.append_assoc]
        refine List.perm_append_comm.trans ?_
        rw [List.append_assoc _ (r :: _)]
        simpa only [List.append_assoc, List.singleton_append, Bool.false_eq_true, if_false,
          List.cons_append, List.nil_append] using List.perm_middle.symm
      · intro ptr hnone hroom r' hr'
        rcases List.mem_append.mp hr' with hold | hnew
        · exact hnone r' hold
        · obtain rfl := List.mem_singleton.mp hnew
          intro hptr
          have hfree := hroom r' (by rw [hnext]; rfl) hptr
          rw [hfull] at hfree
          cases hfree
    · refine ⟨refused, ⟨h.context, h.table, h.zones, hrest, h.accepted, ?_⟩,
        fun _ hnone _ => hnone⟩
      simp only [Offer.enqueue, Session.enqueueString, tryEnqueue_room hfull, if_true]
      rwa [List.append_assoc s.stream.session.strings]
  | event e =>
    refine ⟨refused, ⟨h.context, h.table, h.zones, hrest, ?_, hstrings⟩, fun _ hnone _ => hnone⟩
    intro ev hev
    simp only [Offer.enqueue, Session.enqueueEvent] at hev
    split at hev
    · rcases List.mem_append.mp hev with hold | hnew
      · exact h.accepted ev hold
      · exact h.offered _ (List.mem_of_find?_eq_some hnext) ev
          (congrArg Offer.event (List.mem_singleton.mp hnew).symm)
    · exact h.accepted ev hev

/-- STEP: whatever happens in a session whose calls all pass names. -/
theorem LiveInv.step (h : LiveInv sh s C names refused) {a : LiveAction T K}
    (ha : ∀ t now c, a = .begins t now c → c.Named) (hs : liveStep sh mem s a = some s') :
    ∃ C' names' refused', LiveInv sh s' C' names' refused' ∧ ∀ ptr, (∀ r ∈ refused, r.ptr ≠ ptr) →
      StringRoom ptr s a → ∀ r ∈ refused', r.ptr ≠ ptr := by
  cases a with
  | begins t now c =>
    obtain ⟨C', names', h'⟩ := h.begins (ha t now c rfl) hs
    exact ⟨C', names', refused, h', fun _ hnone _ => hnone⟩
  | offers t =>
    obtain ⟨refused', h', hnone⟩ := h.offers hs
    exact ⟨C, names, refused', h', hnone⟩
  | threadInit t =>
    obtain ⟨P, hP, rfl⟩ := Option.map_eq_some_iff.mp hs
    obtain ⟨n, hn⟩ := Context.threadInit_context hP h.context
    exact ⟨_, names, refused, ⟨hn, h.table, h.zones, h.offered, h.accepted, h.strings⟩,
      fun _ hnone _ => hnone⟩
  | frameEnd now =>
    obtain ⟨P, hP, rfl⟩ := Option.map_eq_some_iff.mp hs
    obtain rfl := Option.some.inj ((Context.mapContext_some h.context _).symm.trans hP)
    exact ⟨_, names, refused, ⟨rfl, h.table, h.zones, h.offered, h.accepted, h.strings⟩,
      fun _ hnone _ => hnone⟩
  | setPaused shouldPause =>
    obtain rfl := Option.some.inj hs
    exact ⟨C, names, refused, ⟨h.context, h.table, h.zones, h.offered, h.accepted, h.strings⟩,
      fun _ hnone _ => hnone⟩
  | drain accepts =>
    obtain ⟨d, hd, rfl⟩ := Option.map_eq_some_iff.mp hs
    obtain ⟨hevents, hstrings⟩ := DrainLoop.drainStep_logs hd
    refine ⟨C, names, refused, ⟨h.context, h.table, h.zones, h.offered, ?_, ?_⟩, fun _ hnone _ => hnone⟩
    · exact fun ev hev => h.accepted ev (hevents ▸ hev)
    · rw [hstrings]
      exact h.strings
  | main =>
    obtain ⟨d, hd, rfl⟩ := Option.map_eq_some_iff.mp hs
    have hsession := DrainLoop.mainStep_session hd
    refine ⟨C, names, refused, ⟨h.context, h.table, h.zones, h.offered, ?_, ?_⟩, fun _ hnone _ => hnone⟩
    · exact fun ev hev => h.accepted ev (hsession ▸ hev)
    · rw [hsession]
      exact h.strings

/-- RUN: names are added to the table, and a name is not refused that finds room in the string ring. -/
theorem LiveInv.run (h : LiveInv sh s C names refused) {as : List (LiveAction T K)}
    (has : ∀ t now c, .begins t now c ∈ as → c.Named)
    (hr : run (liveStep sh mem) s as = some s') :
    ∃ C' names' refused', LiveInv sh s' C' names' refused' ∧ ∀ ptr, (∀ r ∈ refused, r.ptr ≠ ptr) →
      Meets (liveStep sh mem) (StringRoom ptr) s as → ∀ r ∈ refused', r.ptr ≠ ptr := by
  induction as generalizing s C names refused with
  | nil =>
    obtain rfl := Option.some.inj hr
    exact ⟨C, names, refused, h, fun _ hnone _ => hnone⟩
  | cons a as ih =>
    obtain ⟨s₁, hs, hr⟩ := run_cons_some.mp hr
    obtain ⟨C₁, names₁, refused₁, h₁, hnone₁⟩ := h.step
      (fun t now c hac => has t now c (hac ▸ List.mem_cons_self)) hs
    obtain ⟨C', names', refused', h', hnone⟩ := ih h₁
      (fun t now c hm => has t now c (List.mem_cons_of_mem a hm)) hr
    refine ⟨C', names', refused', h', fun ptr hold hroom => ?_⟩
    obtain ⟨hfirst, hrest⟩ := (meets_cons hs).mp hroom
    exact hnone ptr (hnone₁ ptr hold hfirst) hrest

/-! ### The file -/

omit [DecidableEq K] in
theorem mem_queuedNames {i : ℕ} {k : K} (h : names[i]? = some k) :
    (⟨UInt32.ofNat i, k⟩ : RuntimeStringReference K) ∈ queuedNames names := by
  refine List.mem_of_getElem? (i := i) ?_
  rw [queuedNames, List.getElem?_mapIdx, h, Option.map_some]

omit [DecidableEq T] in
/-- A reference is given to one pointer only. -/
theorem get_eq_iff {T' : Table K} (h : Lists sh T' names) {i : ℕ} {k : K} (hi : names[i]? = some k)
    (k' : K) : T'.get sh (some k') = UInt32.ofNat i ↔ k' = k := by
  have hlt : i < 2147483648 := h.index_lt (List.getElem?_eq_some_iff.mp hi).1
  constructor
  · intro hget
    have hmem : k' ∈ names := h.isIndex_get.mp (by rw [hget]; exact isIndex_ofNat hlt)
    obtain ⟨j, hj, hk'⟩ := List.mem_iff_getElem.mp hmem
    have hj' : names[j]? = some k' := List.getElem?_eq_some_iff.mpr ⟨hj, hk'⟩
    obtain rfl := ofNat_inj (h.index_lt hj) hlt ((h.get_of_getElem? hj').symm.trans hget)
    exact Option.some.inj (hj'.symm.trans hi)
  · rintro rfl
    exact h.get_of_getElem? hi

omit [DecidableEq T] [DecidableEq K] in
/-- A string that is in the file is there once, since the ids of the strings differ. -/
theorem LiveInv.filter_file (h : LiveInv sh s C names refused)
    (hinv : DrainLoop.DrainInv mem s.stream) {r : RuntimeStringReference K}
    (hr : stored mem r ∈ stringsOf s.stream.session.writer.outputFile) :
    s.stream.session.writer.outputFile.filter (namesId r.id) = [stored mem r] := by
  obtain ⟨l, l', hl, hfile, -⟩ := List.map_eq_append_iff.mp hinv.conserves.strings_eq.symm
  have hids := Context.queuedNames_ids names
    (lt_of_le_of_lt h.table.length_le sh.capacity_int)
  rw [← (h.strings.map RuntimeStringReference.id).nodup_iff, List.map_append, List.map_append, hl,
    List.map_append] at hids
  have hnodup : (l.map RuntimeStringReference.id).Nodup :=
    (((hids.sublist (List.sublist_append_left _ _)).sublist (List.sublist_append_left _ _)).sublist
      (List.sublist_append_left _ _))
  rw [← hfile] at hr
  obtain ⟨r', hr', heq⟩ := List.mem_map.mp hr
  obtain ⟨hid, -⟩ := Record.string.inj heq
  rw [Context.filter_stringsOf, ← hfile, List.filter_map, ← heq, ← hid]
  exact congrArg (List.map (stored mem)) (Context.filter_key hnodup hr')

/-- CORRECT: every event of the file that has a reference has that of exactly one pointer of the table;
    and if the string of that pointer was handed to a string ring with room before `ShutdownAndWait`
    cleared the flag, its record is in the file, once, when `ShutdownAndWait` has returned. -/
theorem settledNames_run {P₀ P : Process T K} {junk : Junk K} {main : T}
    {buffer : ℤ → ProfileEvent} {as bs : List (LiveAction T K)} {s₁ : LiveSession T K}
    (hinit : P₀.espInit junk main = some P)
    (has : run (liveStep sh mem) (LiveSession.new P junk buffer) as = some s₁)
    (hflag : s₁.stream.runThread = true) (hbs : run (liveStep sh mem) s₁ bs = some s)
    (hnamed : ∀ t now c, .begins t now c ∈ as ++ bs → c.Named)
    (hN : s.stream.accepted < 2147483647) (hret : s.stream.main = .returned) :
    ∃ C, s.process.context = some C ∧ ∀ ev ∈ eventsOf s.stream.session.writer.outputFile,
      ev.data.eventNameRef ≠ noRef → ∃ ptr,
        (∀ ptr', C.strings.get sh (some ptr') = ev.data.eventNameRef ↔ ptr' = ptr) ∧
        (Meets (liveStep sh mem) (StringRoom ptr) (LiveSession.new P junk buffer) as →
          Settled sh s₁ ptr ev.data.eventNameRef → s.stream.session.writer.outputFile.filter
            (namesId ev.data.eventNameRef) = [stored mem ⟨ev.data.eventNameRef, ptr⟩]) := by
  obtain ⟨C₀, h₀⟩ := @liveInv_new T K _ sh P₀ P junk main buffer hinit
  obtain ⟨C₁, names₁, refused₁, h₁, hnone⟩ := h₀.run
    (fun t now c hm => hnamed t now c (List.mem_append_left bs hm)) has
  obtain ⟨C, names, refused, h, -⟩ := h₁.run
    (fun t now c hm => hnamed t now c (List.mem_append_right as hm)) hbs
  -- the drain thread and its producers
  obtain ⟨as', has'⟩ := run_project LiveSession.stream (fun _ _ _ => stream_step) has
  obtain ⟨bs', hbs'⟩ := run_project LiveSession.stream (fun _ _ _ => stream_step) hbs
  obtain ⟨hinv, hnamesInv, hpre⟩ :=
    DrainLoop.namesInv_run junk.events junk.strings buffer has' hflag hbs' hN
  have hkept := hnamesInv.returned hinv hpre hret
  refine ⟨C, h.context, fun ev hev href => ?_⟩
  have hmem : ev ∈ s.stream.session.events := by
    rw [← hinv.conserves.events_eq]
    exact List.mem_append_left _ (List.mem_append_left _ hev)
  obtain ⟨i, hi, hevent⟩ := (h.accepted ev hmem).resolve_left href
  have hptr : names[i]? = some names[i] := List.getElem?_eq_getElem hi
  rw [hevent]
  refine ⟨names[i], get_eq_iff h.table hptr, ?_⟩
  rintro hroom ⟨⟨C', hC', hget⟩, hhanded⟩
  obtain rfl := Option.some.inj (h₁.context.symm.trans hC')
  -- the pointer was in the table already, at this place
  have hold : names[i] ∈ names₁ := h₁.table.isIndex_get.mp (by
    rw [hget]
    exact isIndex_ofNat (h.table.index_lt hi))
  obtain ⟨j, hj, hji⟩ := List.mem_iff_getElem.mp hold
  have hj' : names₁[j]? = some names[i] := List.getElem?_eq_some_iff.mpr ⟨hj, hji⟩
  obtain rfl := ofNat_inj (h₁.table.index_lt hj) (h.table.index_lt hi)
    ((h₁.table.get_of_getElem? hj').symm.trans hget)
  refine h.filter_file (r := ⟨UInt32.ofNat j, names[j]⟩) hinv
    (hkept.subset (List.mem_map_of_mem ?_))
  have hqueued := h₁.strings.mem_iff.mpr (mem_queuedNames hj')
  rw [List.mem_append, List.mem_append] at hqueued
  have hoffered := hqueued.resolve_right fun hrefused =>
    hnone _ (List.forall_mem_nil _) hroom _ hrefused rfl
  refine hoffered.resolve_right fun hpending => ?_
  obtain ⟨x, hx, hstring⟩ := List.mem_filterMap.mp hpending
  refine hhanded x hx ?_
  cases hoff : x.2 with
  | string r =>
    rw [hoff] at hstring
    exact congrArg Offer.string (Option.some.inj hstring)
  | event e =>
    rw [hoff] at hstring
    cases hstring

/-- Two threads pass the same new name, and the event of the second is drained before the string of the
    first is in its ring. -/
def crossing : List (LiveAction Bool Addr) :=
  [.begins true 10 (.sample (some zoneName) (.int 1)),
    .begins false 11 (.sample (some zoneName) (.int 2)), .offers false,
    .drain 0, .drain 0, .drain 0, .drain 0, .drain 0]

/-- The first call ends, and then the session. -/
def closing : List (LiveAction Bool Addr) :=
  [.main, .main, .drain 0, .drain 16384, .drain 0, .drain 0, .main]

def liveStart : LiveSession Bool Addr :=
  LiveSession.new openedByTrue (Junk.zero zoneName) fun _ => Writer.tick 0

/-- The reference of a name in the open session. -/
def refIn (s : LiveSession Bool Addr) (ptr : Addr) : Option UInt32 :=
  s.process.context.map fun C => C.strings.get espStrings (some ptr)

theorem settledNames_run_crossing : ∃ s₁ s ev,
    run (liveStep espStrings oneLetter) liveStart (crossing ++ [.offers true, .offers true]) = some s₁ ∧
    run (liveStep espStrings oneLetter) s₁ closing = some s ∧
    ev ∈ eventsOf s.stream.session.writer.outputFile ∧
    s.stream.session.writer.outputFile.filter (namesId ev.data.eventNameRef) =
      [stored oneLetter ⟨ev.data.eventNameRef, zoneName⟩] := by
  have hstart : (run (liveStep espStrings oneLetter) liveStart
      (crossing ++ [.offers true, .offers true])).map (fun s =>
        (s.stream.runThread, s.pending.length, refIn s zoneName)) = some (true, 0, some 0) := by
    decide +kernel
  obtain ⟨s₁, has, hs₁⟩ := Option.map_eq_some_iff.mp hstart
  obtain ⟨hflag, hpending, href⟩ : s₁.stream.runThread = true ∧ s₁.pending.length = 0 ∧
      refIn s₁ zoneName = some 0 := by
    simpa only [Prod.mk.injEq] using hs₁
  have hend : ((run (liveStep espStrings oneLetter) liveStart
      (crossing ++ [.offers true, .offers true])).bind fun s =>
        run (liveStep espStrings oneLetter) s closing).map (fun s =>
          ((eventsOf s.stream.session.writer.outputFile).map fun ev => ev.data.eventNameRef,
            refIn s zoneName, s.stream.main, s.stream.accepted)) =
      some ([0], some 0, .returned, 2) := by
    decide +kernel
  rw [has, Option.bind_some] at hend
  obtain ⟨s, hbs, hs⟩ := Option.map_eq_some_iff.mp hend
  obtain ⟨hrefs, hname, hret, haccepted⟩ :
      (eventsOf s.stream.session.writer.outputFile).map (fun ev => ev.data.eventNameRef) = [0] ∧
        refIn s zoneName = some 0 ∧ s.stream.main = .returned ∧ s.stream.accepted = 2 := by
    simpa only [Prod.mk.injEq] using hs
  obtain ⟨ev, hevents, hzero⟩ := List.map_eq_singleton_iff.mp hrefs
  have hinit : Process.start.espInit (Junk.zero zoneName) true = some openedByTrue := rfl
  have hroom : Meets (liveStep espStrings oneLetter) (StringRoom zoneName) liveStart
      (crossing ++ [.offers true, .offers true]) := by decide +kernel
  have hmem : ev ∈ eventsOf s.stream.session.writer.outputFile := by
    rw [hevents]
    exact List.mem_singleton_self ev
  have hnamed : ∀ t now c, LiveAction.begins t now c ∈
      (crossing ++ [.offers true, .offers true]) ++ closing → c.Named := by
    intro t now c hm
    simp only [crossing, closing, List.cons_append, List.nil_append, List.mem_cons, reduceCtorEq,
      LiveAction.begins.injEq, List.not_mem_nil, or_false] at hm
    rcases hm with ⟨-, -, rfl⟩ | ⟨-, -, rfl⟩ <;> exact Option.some_ne_none _
  obtain ⟨C, hC, hall⟩ := settledNames_run hinit has hflag hbs hnamed
    (by rw [haccepted]; decide) hret
  obtain ⟨ptr, hptr, hfile⟩ := hall ev hmem (by rw [hzero]; decide)
  rw [refIn, hC] at hname
  obtain rfl := (hptr zoneName).mp ((Option.some.inj hname).trans hzero.symm)
  refine ⟨s₁, s, ev, has, hbs, hmem, hfile hroom ⟨?_, ?_⟩⟩
  · obtain ⟨C₁, hC₁, hget⟩ := Option.map_eq_some_iff.mp href
    exact ⟨C₁, hC₁, hget.trans hzero.symm⟩
  · rw [List.eq_nil_of_length_eq_zero hpending]
    exact List.forall_mem_nil _

/-- REFUTED: not so for a string that is still to come. The second event is in the file when the
    drain thread has ended, and the name it refers to is not. -/
theorem crossing_unresolved : ∃ s ev,
    run (liveStep espStrings oneLetter) liveStart (crossing ++ closing.take 5 ++ [.offers true, .main]) =
      some s ∧
    s.stream.main = .returned ∧ eventsOf s.stream.session.writer.outputFile = [ev] ∧
    ev.data.eventNameRef = 0 ∧ s.stream.session.writer.outputFile.filter (namesId 0) = [] := by
  have hend : (run (liveStep espStrings oneLetter) liveStart
      (crossing ++ closing.take 5 ++ [.offers true, .main])).map (fun s =>
        (s.stream.main, (eventsOf s.stream.session.writer.outputFile).map fun ev => ev.data.eventNameRef,
          (s.stream.session.writer.outputFile.filter (namesId 0)).length)) =
      some (.returned, [0], 0) := by
    decide +kernel
  obtain ⟨s, hr, hs⟩ := Option.map_eq_some_iff.mp hend
  obtain ⟨hret, hrefs, hnone⟩ : s.stream.main = .returned ∧
      (eventsOf s.stream.session.writer.outputFile).map (fun ev => ev.data.eventNameRef) = [0] ∧
      (s.stream.session.writer.outputFile.filter (namesId 0)).length = 0 := by
    simpa only [Prod.mk.injEq] using hs
  obtain ⟨ev, hevents, hzero⟩ := List.map_eq_singleton_iff.mp hrefs
  exact ⟨s, ev, hr, hret, hevents, hzero, List.eq_nil_of_length_eq_zero hnone⟩

end Esp.Uplift
