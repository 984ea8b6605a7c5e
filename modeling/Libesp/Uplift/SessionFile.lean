import Libesp.Context.EventIds
import Libesp.Context.Scenes
import Libesp.Uplift.ProbeValues

/-! @esp uplift | name:ProfileContext, RawEventWriter | scheme:conservation |
    source:src/Context.cpp (Zone, End, Sample, MapStringToReference), src/EventStreamIO.cpp,
    src/profile.cpp (esp_set_paused, esp_frame_end, esp_thread_init), src/uplift/uplift.cpp

    The file of a session, entry by entry. Whatever the threads do between the passes of the drain
    thread, what a call offers to a ring that is not full is kept, and nothing else is:

        offered ── ring full ──▶ gone
           └─ room ──▶ accepted = file ++ writeBuffer[0, used) ++ ring      in this order

    So a file that is cut anywhere gives the reader the first events of the session, and the first of
    its names, the last of them perhaps cut (`cutSession_run`). -/

namespace Esp.Uplift
open Event PointerHash LocklessRing Memory Machine
open Context (Process ProfileContext ThreadContext Call Junk Recorder RecorderAction onRings Shows Scene
  consume_some espRecord_cases espThreadInit_cases)
open Context (oneLetter steady zoneName probeName openedByTrue)
open Writer (RawEventWriter Session SessionInv Conserves stored)

variable {T K : Type} [DecidableEq T] [DecidableEq K] (sh : Shape K) (mem : K → List UInt8)
  (disk : ℕ → ℕ)

/-- What `MapStringToReference` hands to the string ring. -/
def newString (C : ProfileContext K) : Option K → Option (RuntimeStringReference K)
  | none => none
  | some ptr =>
    if isIndex (C.strings.get sh (some ptr)) then none
    else if isIndex (C.strings.put sh (some ptr)).1 then some ⟨(C.strings.put sh (some ptr)).1, ptr⟩
    else none

/-- The event that an action hands to the event ring. -/
def offeredEvent (s : Recorder T K) : SessionAction T K → Option ProfileEvent
  | .recorder (.record t now c) => (s.process.espRecord sh t now c).bind fun P =>
    (P.log[s.process.log.length]?).bind fun x => x.2.offered
  | _ => none

/-- The string reference that an action hands to the string ring. -/
def offeredString (s : Recorder T K) : SessionAction T K → Option (RuntimeStringReference K)
  | .recorder (.record t _ c) => (s.process.toStamp t c).bind fun (_, C, i) =>
    ((C.threadContexts i).passes c).bind (newString sh C)
  | _ => none

omit [DecidableEq T] [DecidableEq K] in
/-- The event ring is full. -/
def eventsFull (s : Recorder T K) : Bool :=
  s.process.context.elim false fun C => C.eventQueue.full espMaxEventBuffer

omit [DecidableEq T] [DecidableEq K] in
/-- The string ring is full. -/
def stringsFull (s : Recorder T K) : Bool :=
  s.process.context.elim false fun C => C.stringQueue.full stringQueueCapacity

/-- The event that an action puts into the event ring. -/
def acceptedEvent (s : Recorder T K) (a : SessionAction T K) : Option ProfileEvent :=
  if eventsFull s then none else offeredEvent sh s a

def acceptedString (s : Recorder T K) (a : SessionAction T K) : Option (RuntimeStringReference K) :=
  if stringsFull s then none else offeredString sh s a

/-- What a run puts into the rings, in order. -/
def acceptedEvents (fuel : ℕ) (s : Recorder T K) (as : List (SessionAction T K)) :
    List ProfileEvent :=
  (trace (sessionStep sh mem disk fuel) s as).filterMap fun x => acceptedEvent sh x.1 x.2

def acceptedStrings (fuel : ℕ) (s : Recorder T K) (as : List (SessionAction T K)) :
    List (RuntimeStringReference K) :=
  (trace (sessionStep sh mem disk fuel) s as).filterMap fun x => acceptedString sh x.1 x.2

/-- INVARIANT: the writer and its rings hold these events and strings. -/
structure Kept (s : Recorder T K) (C : ProfileContext K) (events : List ProfileEvent)
    (strings : List (RuntimeStringReference K)) : Prop where
  context : s.process.context = some C
  writer : SessionInv mem ⟨onRings s.writer C, events, strings⟩

variable {sh mem disk} {s s' : Recorder T K} {C : ProfileContext K} {P P' : Process T K}
  {events : List ProfileEvent} {strings : List (RuntimeStringReference K)}

/-! ### What a call puts into the rings -/

omit [DecidableEq T] in
variable (sh) in
theorem mapString_rings (C : ProfileContext K) (name : Option K) :
    (C.mapStringToReference sh name).2.eventQueue = C.eventQueue ∧
      (C.mapStringToReference sh name).2.stringQueue =
        (newString sh C name).elim C.stringQueue fun r =>
          (C.stringQueue.tryEnqueue stringQueueCapacity r).2 := by
  unfold ProfileContext.mapStringToReference
  rcases hget : isIndex (C.strings.get sh name) with _ | _
  · rcases hput : isIndex (C.strings.put sh name).1 with _ | _
    · rcases name with _ | ptr
      · simp only [hget, hput, newString]
        exact ⟨rfl, rfl⟩
      · simp only [hget, hput, newString]
        exact ⟨rfl, rfl⟩
    · rcases name with _ | ptr
      · simp only [hget, hput, newString]
        exact ⟨rfl, rfl⟩
      · simp only [hget, hput, newString]
        exact ⟨rfl, rfl⟩
  · rcases name with _ | ptr
    · simp only [hget, newString]
      exact ⟨rfl, rfl⟩
    · simp only [hget, newString]
      exact ⟨rfl, rfl⟩

omit [DecidableEq T] in
variable (sh) in
/-- A recording call enqueues the name it is the first to pass, and the event it logs. -/
theorem record_rings (th : ThreadContext) (C : ProfileContext K) (number : ℕ) (now : Int64)
    (c : Call K) :
    (th.record sh C number now c).context.eventQueue =
        (th.record sh C number now c).entry.offered.elim C.eventQueue (fun ev =>
          (C.eventQueue.tryEnqueue espMaxEventBuffer ev).2) ∧
      (th.record sh C number now c).context.stringQueue =
        ((th.passes c).bind (newString sh C)).elim C.stringQueue fun r =>
          (C.stringQueue.tryEnqueue stringQueueCapacity r).2 := by
  rw [Context.record_effects]
  generalize (th.record sh C number now c).entry.offered = ev
  rcases th.passes c with _ | name
  · cases ev <;> exact ⟨rfl, rfl⟩
  · obtain ⟨he, hs⟩ := mapString_rings sh C.nextEventID.2 name
    cases ev with
    | none => exact ⟨he, hs⟩
    | some ev =>
      exact ⟨congrArg (fun q => (RingQueue.tryEnqueue espMaxEventBuffer q ev).2) he, hs⟩

/-! ### Steps -/

omit [DecidableEq T] [DecidableEq K] in
/-- An offered event is in the ring or the ring is full. -/
theorem sessionInv_event {w : RawEventWriter K}
    (h : SessionInv mem ⟨onRings w C, events, strings⟩) (hE : events.length < 2147483647)
    {D : ProfileContext K} (ev : Option ProfileEvent)
    (hD : D.eventQueue = ev.elim C.eventQueue fun ev =>
      (C.eventQueue.tryEnqueue espMaxEventBuffer ev).2) (hstrings : D.stringQueue = C.stringQueue) :
    SessionInv mem ⟨onRings w D, events ++
      (if C.eventQueue.full espMaxEventBuffer then none else ev).toList, strings⟩ := by
  have hsame : ∀ q, D.eventQueue = q → onRings w D =
      { onRings w C with contextQueue := q } := by
    rintro q rfl
    rw [onRings, onRings, hstrings]
  cases ev with
  | none =>
    rw [ite_self, Option.toList_none, List.append_nil, hsame C.eventQueue hD]
    exact h
  | some ev =>
    have hoffer := h.conserves.offerEvent hE ev
    rw [hsame _ hD]
    by_cases hfull : C.eventQueue.full espMaxEventBuffer = true
    · rw [if_pos hfull, Option.toList_none, List.append_nil]
      simp only [Session.enqueueEvent, onRings, tryEnqueue_full hfull] at hoffer
      simp only [Option.elim_some, tryEnqueue_full hfull]
      exact ⟨hoffer, h.used_nonneg, h.used_lt⟩
    · rw [if_neg hfull]
      simp only [Session.enqueueEvent, onRings, tryEnqueue_room hfull] at hoffer
      simp only [Option.elim_some, tryEnqueue_room hfull]
      exact ⟨hoffer, h.used_nonneg, h.used_lt⟩

omit [DecidableEq T] [DecidableEq K] in
theorem sessionInv_string {w : RawEventWriter K}
    (h : SessionInv mem ⟨onRings w C, events, strings⟩) (hS : strings.length < 2147483647)
    {D : ProfileContext K} (r : Option (RuntimeStringReference K))
    (hD : D.stringQueue = r.elim C.stringQueue fun r =>
      (C.stringQueue.tryEnqueue stringQueueCapacity r).2) (hevents : D.eventQueue = C.eventQueue) :
    SessionInv mem ⟨onRings w D, events, strings ++
      (if C.stringQueue.full stringQueueCapacity then none else r).toList⟩ := by
  have hsame : ∀ q, D.stringQueue = q → onRings w D =
      { onRings w C with stringQueue := q } := by
    rintro q rfl
    rw [onRings, onRings, hevents]
  cases r with
  | none =>
    rw [ite_self, Option.toList_none, List.append_nil, hsame C.stringQueue hD]
    exact h
  | some r =>
    have hoffer := h.conserves.offerString hS r
    rw [hsame _ hD]
    by_cases hfull : C.stringQueue.full stringQueueCapacity = true
    · rw [if_pos hfull, Option.toList_none, List.append_nil]
      simp only [Session.enqueueString, onRings, tryEnqueue_full hfull] at hoffer
      simp only [Option.elim_some, tryEnqueue_full hfull]
      exact ⟨hoffer, h.used_nonneg, h.used_lt⟩
    · rw [if_neg hfull]
      simp only [Session.enqueueString, onRings, tryEnqueue_room hfull] at hoffer
      simp only [Option.elim_some, tryEnqueue_room hfull]
      exact ⟨hoffer, h.used_nonneg, h.used_lt⟩

omit [DecidableEq K] in
/-- A call that is recorded reaches `NextEventID` when it has a name to pass. -/
theorem toStamp_recorded {t : T} {c : Call K} {P₁ : Process T K} {i : ℕ}
    (hp : P.paused = false) (hinit : P.espThreadInit t = some P₁) (hC : P₁.context = some C)
    (hi : P₁.threadContext t = some (P₁.session, i)) (hlt : i < espMaxThreadCount) :
    P.toStamp t c = if (C.threadContexts i).passes c ≠ none then some (P₁, C, i) else none := by
  rw [Process.toStamp, if_neg (by rw [hp]; exact Bool.false_ne_true), hinit, Option.bind_some]
  simp only [hC, hi]
  by_cases hpass : (C.threadContexts i).passes c ≠ none
  · rw [if_pos hpass, if_pos ⟨trivial, hlt, hpass⟩]
  · rw [if_neg hpass, if_neg fun h => hpass h.2.2]

/-- A call that is recorded hands on the string of the name it passes. -/
theorem offeredString_recorded {t : T} {now : Int64} {c : Call K} {P₁ : Process T K} {i : ℕ}
    (hp : s.process.paused = false) (hinit : s.process.espThreadInit t = some P₁)
    (hC : P₁.context = some C) (hi : P₁.threadContext t = some (P₁.session, i))
    (hlt : i < espMaxThreadCount) : offeredString sh s (.recorder (.record t now c)) =
      ((C.threadContexts i).passes c).bind (newString sh C) := by
  rw [offeredString, toStamp_recorded hp hinit hC hi hlt]
  by_cases hpass : (C.threadContexts i).passes c = none
  · rw [if_neg (not_not.mpr hpass), hpass]
    rfl
  · rw [if_pos hpass]
    rfl

/-- A call that the pause swallows hands on nothing. -/
theorem offered_paused {t : T} {now : Int64} {c : Call K} (hp : s.process.paused = true) :
    offeredString sh s (.recorder (.record t now c)) = none ∧
      offeredEvent sh s (.recorder (.record t now c)) = none := by
  have hnothing : s.process.log[s.process.log.length]? = none := List.getElem?_eq_none (le_refl _)
  rw [offeredString, Process.toStamp, if_pos hp, Option.bind_none, offeredEvent, Process.espRecord,
    if_pos hp, Option.bind_some, hnothing, Option.bind_none]
  exact ⟨rfl, rfl⟩

/-- A call that is recorded hands on the event it logs. -/
theorem offeredEvent_recorded {t : T} {now : Int64} {c : Call K} {P₁ : Process T K} {i : ℕ}
    (hinit : s.process.espThreadInit t = some P₁)
    (hs : s.process.espRecord sh t now c = some (P₁.recordIn sh C t i now c)) :
    offeredEvent sh s (.recorder (.record t now c)) =
      ((C.threadContexts i).record sh C P₁.log.length now c).entry.offered := by
  have hlog : P₁.log = s.process.log := (Context.strings_threadInit hinit).2
  rw [offeredEvent, hs, Option.bind_some, Process.recordIn, hlog, List.getElem?_concat_length,
    Option.bind_some]

/-- STEP: a recording call. -/
theorem Kept.record (h : Kept mem s C events strings) (hE : events.length < 2147483647)
    (hS : strings.length < 2147483647) {t : T} {now : Int64} {c : Call K}
    (hs : s.process.espRecord sh t now c = some P') :
    ∃ D, Kept mem { s with process := P' } D
      (events ++ (acceptedEvent sh s (.recorder (.record t now c))).toList)
      (strings ++ (acceptedString sh s (.recorder (.record t now c))).toList) := by
  have hevents : eventsFull s = C.eventQueue.full espMaxEventBuffer := by
    rw [eventsFull, h.context, Option.elim_some]
  have hstrings : stringsFull s = C.stringQueue.full stringQueueCapacity := by
    rw [stringsFull, h.context, Option.elim_some]
  rw [acceptedEvent, acceptedString, hevents, hstrings]
  rcases espRecord_cases hs with ⟨hp, rfl⟩ | ⟨-, hinit, hnone⟩ | ⟨hp, P₁, C₁, i, hinit, hC₁, hi, hlt, rfl⟩
  · obtain ⟨hstring, hevent⟩ := @offered_paused T K _ _ sh s t now c hp
    rw [hstring, hevent, ite_self, ite_self, Option.toList_none, Option.toList_none, List.append_nil,
      List.append_nil]
    exact ⟨C, h⟩
  · obtain ⟨n, hn⟩ := Context.threadInit_context hinit h.context
    rw [hn] at hnone
    cases hnone
  · obtain ⟨n, hn⟩ := Context.threadInit_context hinit h.context
    obtain rfl := Option.some.inj (hn.symm.trans hC₁)
    obtain ⟨hqueue, hqueue'⟩ := record_rings sh (C.threadContexts i) { C with threadCount := n }
      P₁.log.length now c
    rw [offeredString_recorded hp hinit hC₁ hi hlt, offeredEvent_recorded hinit hs]
    have hfirst := sessionInv_string (D := { C with
      stringQueue := ((C.threadContexts i).record sh { C with threadCount := n } P₁.log.length now
        c).context.stringQueue }) h.writer hS _ hqueue' rfl
    exact ⟨_, rfl, sessionInv_event hfirst hE _ hqueue rfl⟩

/-- STEP: whatever happens in a session. -/
theorem Kept.step (h : Kept mem s C events strings) (hE : events.length < 2147483647)
    (hS : strings.length < 2147483647) {fuel : ℕ} {a : SessionAction T K}
    (hs : sessionStep sh mem disk fuel s a = some s') :
    ∃ D, Kept mem s' D (events ++ (acceptedEvent sh s a).toList)
      (strings ++ (acceptedString sh s a).toList) := by
  have hquiet : offeredEvent sh s a = none → offeredString sh s a = none →
      (∃ D, Kept mem s' D events strings) →
      ∃ D, Kept mem s' D (events ++ (acceptedEvent sh s a).toList)
        (strings ++ (acceptedString sh s a).toList) := by
    intro he hst hkept
    rw [acceptedEvent, acceptedString, he, hst, ite_self, ite_self, Option.toList_none,
      Option.toList_none, List.append_nil, List.append_nil]
    exact hkept
  cases a with
  | recorder a =>
    cases a with
    | record t now c =>
      obtain ⟨P', hP, rfl⟩ := Option.map_eq_some_iff.mp hs
      exact h.record hE hS hP
    | drain =>
      refine hquiet rfl rfl ?_
      obtain ⟨w', hw, rfl⟩ := consume_some h.context hs
      obtain ⟨hcons, hpos, hlt⟩ := h.writer.conserves.drain h.writer.used_nonneg h.writer.used_lt
        hE hS hw
      exact ⟨_, rfl, hcons, hpos, hlt⟩
  | threadInit t =>
    obtain ⟨P', hP, rfl⟩ := Option.map_eq_some_iff.mp hs
    obtain ⟨n, hn⟩ := Context.threadInit_context hP h.context
    exact hquiet rfl rfl ⟨_, hn, h.writer⟩
  | frameEnd now =>
    obtain ⟨P', hP, rfl⟩ := Option.map_eq_some_iff.mp hs
    obtain rfl := Option.some.inj ((Context.mapContext_some h.context _).symm.trans hP)
    exact hquiet rfl rfl ⟨_, rfl, h.writer⟩
  | setPaused shouldPause =>
    obtain rfl := Option.some.inj hs
    exact hquiet rfl rfl ⟨C, h.context, h.writer⟩

/-- STEP: an action hands on the event it logs. -/
theorem offers_step (hC : s.process.context = some C) {fuel : ℕ} {a : SessionAction T K}
    (hs : sessionStep sh mem disk fuel s a = some s') :
    (∃ D, s'.process.context = some D) ∧
      s'.process.offers = s.process.offers ++ (offeredEvent sh s a).toList := by
  have hquiet : offeredEvent sh s a = none → (∃ D, s'.process.context = some D) →
      s'.process.log = s.process.log → (∃ D, s'.process.context = some D) ∧
        s'.process.offers = s.process.offers ++ (offeredEvent sh s a).toList := by
    intro he hD hlog
    rw [Process.offers, hlog, he, Option.toList_none, List.append_nil]
    exact ⟨hD, rfl⟩
  cases a with
  | recorder a =>
    cases a with
    | record t now c =>
      obtain ⟨P', hP, rfl⟩ := Option.map_eq_some_iff.mp hs
      have hself : ∀ P : Process T K, P.log[P.log.length]? = none := fun P =>
        List.getElem?_eq_none (le_refl _)
      rcases espRecord_cases hP with ⟨hp, rfl⟩ | ⟨-, hinit, hnone⟩ | ⟨-, P₁, C₁, i, hinit, -, -, -, rfl⟩
      · refine hquiet ?_ ⟨C, hC⟩ rfl
        rw [offeredEvent, hP, Option.bind_some, hself, Option.bind_none]
      · obtain ⟨n, hn⟩ := Context.threadInit_context hinit hC
        rw [hn] at hnone
        cases hnone
      · have hlog : P₁.log = s.process.log := (Context.strings_threadInit hinit).2
        refine ⟨⟨_, rfl⟩, ?_⟩
        rw [offeredEvent, hP, Option.bind_some, Process.offers, Process.offers, Process.recordIn, hlog,
          List.getElem?_concat_length, List.filterMap_append, Option.bind_some]
        cases hev : ((C₁.threadContexts i).record sh C₁ s.process.log.length now c).entry.offered <;>
          simp only [List.filterMap_cons, List.filterMap_nil, hev, Option.toList]
    | drain =>
      obtain ⟨w', -, rfl⟩ := consume_some hC hs
      exact hquiet rfl ⟨_, rfl⟩ rfl
  | threadInit t =>
    obtain ⟨P', hP, rfl⟩ := Option.map_eq_some_iff.mp hs
    obtain ⟨n, hn⟩ := Context.threadInit_context hP hC
    exact hquiet rfl ⟨_, hn⟩ (Context.strings_threadInit hP).2
  | frameEnd now =>
    obtain ⟨P', hP, rfl⟩ := Option.map_eq_some_iff.mp hs
    obtain rfl := Option.some.inj ((Context.mapContext_some hC _).symm.trans hP)
    exact hquiet rfl ⟨_, rfl⟩ rfl
  | setPaused shouldPause =>
    obtain rfl := Option.some.inj hs
    exact hquiet rfl ⟨C, hC⟩ rfl

/-! ### Runs -/

theorem acceptedEvents_cons {fuel : ℕ} {a : SessionAction T K} {as : List (SessionAction T K)}
    (hs : sessionStep sh mem disk fuel s a = some s') :
    acceptedEvents sh mem disk fuel s (a :: as) =
      (acceptedEvent sh s a).toList ++ acceptedEvents sh mem disk fuel s' as := by
  rw [acceptedEvents, trace, hs, Option.elim_some, List.filterMap_cons]
  cases acceptedEvent sh s a <;> rfl

theorem acceptedStrings_cons {fuel : ℕ} {a : SessionAction T K} {as : List (SessionAction T K)}
    (hs : sessionStep sh mem disk fuel s a = some s') :
    acceptedStrings sh mem disk fuel s (a :: as) =
      (acceptedString sh s a).toList ++ acceptedStrings sh mem disk fuel s' as := by
  rw [acceptedStrings, trace, hs, Option.elim_some, List.filterMap_cons]
  cases acceptedString sh s a <;> rfl

/-- RUN: the writer and its rings hold what the run put into them. -/
theorem Kept.run {fuel : ℕ} {as : List (SessionAction T K)} (h : Kept mem s C events strings)
    (hE : (events ++ acceptedEvents sh mem disk fuel s as).length < 2147483647)
    (hS : (strings ++ acceptedStrings sh mem disk fuel s as).length < 2147483647)
    (hr : run (sessionStep sh mem disk fuel) s as = some s') :
    ∃ D, Kept mem s' D (events ++ acceptedEvents sh mem disk fuel s as)
      (strings ++ acceptedStrings sh mem disk fuel s as) := by
  induction as generalizing s C events strings with
  | nil =>
    obtain rfl := Option.some.inj hr
    exact ⟨C, by simpa only [acceptedEvents, acceptedStrings, trace, List.filterMap_nil,
      List.append_nil] using h⟩
  | cons a as ih =>
    obtain ⟨s₁, hs, hr⟩ := run_cons_some.mp hr
    rw [acceptedEvents_cons hs, ← List.append_assoc] at hE ⊢
    rw [acceptedStrings_cons hs, ← List.append_assoc] at hS ⊢
    have hE₀ : events.length < 2147483647 := by
      simp only [List.length_append] at hE
      omega
    have hS₀ : strings.length < 2147483647 := by
      simp only [List.length_append] at hS
      omega
    obtain ⟨D, hD⟩ := h.step hE₀ hS₀ hs
    exact ih hD hE hS hr

/-- RUN: the events that the calls of a run hand to the ring. -/
theorem offers_run {fuel : ℕ} {as : List (SessionAction T K)} (hC : s.process.context = some C)
    (hr : run (sessionStep sh mem disk fuel) s as = some s') :
    s'.process.offers = s.process.offers ++
      (trace (sessionStep sh mem disk fuel) s as).filterMap fun x => offeredEvent sh x.1 x.2 := by
  induction as generalizing s C with
  | nil =>
    obtain rfl := Option.some.inj hr
    rw [trace, List.filterMap_nil, List.append_nil]
  | cons a as ih =>
    obtain ⟨s₁, hs, hr⟩ := run_cons_some.mp hr
    obtain ⟨⟨D, hD⟩, hoff⟩ := offers_step hC hs
    rw [ih hD hr, hoff, List.append_assoc, trace, hs, Option.elim_some, List.filterMap_cons]
    cases offeredEvent sh s a <;> rfl

/-- A list from which some elements are left out, and when none is. -/
theorem filterMap_part {α β : Type} {f g : α → Option β} (hfg : ∀ x, f x = none ∨ f x = g x)
    (l : List α) : (l.filterMap f).Sublist (l.filterMap g) ∧
      (l.filterMap f = l.filterMap g ↔ ∀ x ∈ l, f x = g x) := by
  induction l with
  | nil => exact ⟨List.Sublist.refl [], iff_of_true rfl (List.forall_mem_nil _)⟩
  | cons x l ih =>
    obtain ⟨hsub, hiff⟩ := ih
    rw [List.forall_mem_cons, ← hiff]
    rcases hg : g x with _ | b
    · have hf : f x = none := (hfg x).elim id fun h => h.trans hg
      simp only [List.filterMap_cons, hf, hg, true_and]
      exact ⟨hsub, trivial⟩
    · rcases hf : f x with _ | b'
      · simp only [List.filterMap_cons, hf, hg]
        refine ⟨hsub.cons b, iff_of_false ?_ fun h => by cases h.1⟩
        intro heq
        have hlen := congrArg List.length heq
        rw [List.length_cons] at hlen
        exact absurd hsub.length_le (by omega)
      · have hsame : f x = g x := (hfg x).resolve_left (by rw [hf]; exact Option.some_ne_none _)
        obtain rfl : b' = b := Option.some.inj (hf.symm.trans (hsame.trans hg))
        simp only [List.filterMap_cons, hf, hg, List.cons.injEq, true_and]
        exact ⟨hsub.cons_cons b', trivial⟩

theorem acceptedEvent_part (x : Recorder T K × SessionAction T K) :
    acceptedEvent sh x.1 x.2 = none ∨ acceptedEvent sh x.1 x.2 = offeredEvent sh x.1 x.2 := by
  rw [acceptedEvent]
  split
  · exact Or.inl rfl
  · exact Or.inr rfl

/-- What an action offers is accepted unless the ring is full. -/
theorem acceptedEvent_eq_iff (s : Recorder T K) (a : SessionAction T K) :
    acceptedEvent sh s a = offeredEvent sh s a ↔ (offeredEvent sh s a ≠ none → eventsFull s = false) := by
  rw [acceptedEvent]
  rcases hfull : eventsFull s with _ | _
  · exact iff_of_true rfl fun _ => rfl
  · rw [if_pos rfl]
    exact ⟨fun h hne => absurd h.symm hne, fun h => by_contra fun hne =>
      Bool.false_ne_true (h (Ne.symm hne)).symm⟩

variable {P₀ : Process T K} {junk : Junk K} {main : T} {buffer : ℤ → ProfileEvent} {fuel : ℕ}
  {as : List (SessionAction T K)}

omit [DecidableEq K] in
theorem kept_new (hinit : P₀.espInit junk main = some P) :
    ∃ C, Kept mem (Recorder.new P junk buffer) C [] [] := by
  obtain ⟨n, hn⟩ := Context.threadInit_context hinit rfl
  exact ⟨_, hn, Writer.sessionInv_new junk.events junk.strings buffer⟩

omit [DecidableEq T] [DecidableEq K] in
theorem Kept.accounts {events : List ProfileEvent} {strings : List (RuntimeStringReference K)}
    (h : Kept mem s C events strings) :
    eventsOf s.writer.outputFile ++ slice s.writer.writeBuffer 0 s.writer.writeBufferUsed.toNat ++
        C.eventQueue.contents espMaxEventBuffer = events ∧
      stringsOf s.writer.outputFile ++
          (C.stringQueue.contents stringQueueCapacity).map (stored mem) = strings.map (stored mem) :=
  ⟨h.writer.conserves.events_eq, h.writer.conserves.strings_eq⟩

/-- RUN: what a session keeps is what it accepted. -/
theorem kept_run (hinit : P₀.espInit junk main = some P)
    (hr : run (sessionStep sh mem disk fuel) (Recorder.new P junk buffer) as = some s)
    (hE : (acceptedEvents sh mem disk fuel (Recorder.new P junk buffer) as).length < 2147483647)
    (hS : (acceptedStrings sh mem disk fuel (Recorder.new P junk buffer) as).length < 2147483647) :
    ∃ C, Kept mem s C (acceptedEvents sh mem disk fuel (Recorder.new P junk buffer) as)
      (acceptedStrings sh mem disk fuel (Recorder.new P junk buffer) as) := by
  obtain ⟨C₀, h₀⟩ := @kept_new T K _ mem P _ _ _ buffer hinit
  exact h₀.run hE hS hr

/-- RUN: the events that a session accepted are some of those it offered, and all when no ring was full
    at an offer. -/
theorem acceptedEvents_offers (hinit : P₀.espInit junk main = some P)
    (hr : run (sessionStep sh mem disk fuel) (Recorder.new P junk buffer) as = some s) :
    (acceptedEvents sh mem disk fuel (Recorder.new P junk buffer) as).Sublist s.process.offers ∧
    (acceptedEvents sh mem disk fuel (Recorder.new P junk buffer) as = s.process.offers ↔
      ∀ x ∈ trace (sessionStep sh mem disk fuel) (Recorder.new P junk buffer) as,
        acceptedEvent sh x.1 x.2 = offeredEvent sh x.1 x.2) := by
  obtain ⟨C₀, h₀⟩ := @kept_new T K _ mem P _ _ _ buffer hinit
  have hnone : (Recorder.new P junk buffer).process.offers = [] := by
    rw [Process.offers, Recorder.new, (Context.strings_threadInit hinit).2]
    rfl
  have hoffers := offers_run h₀.context hr
  rw [hnone, List.nil_append] at hoffers
  obtain ⟨hsub, hiff⟩ := filterMap_part (f := fun x => acceptedEvent sh x.1 x.2) acceptedEvent_part
    (trace (sessionStep sh mem disk fuel) (Recorder.new P junk buffer) as)
  rw [← hoffers] at hsub hiff
  exact ⟨hsub, hiff⟩

/-- EXACT: at every moment of every session the file, the write buffer and the event ring hold what the
    calls put into the ring, in that order, and the file and the string ring the new names; and all
    events that were offered are among them exactly when none was offered to a full ring. -/
theorem accounts_run (hinit : P₀.espInit junk main = some P)
    (hr : run (sessionStep sh mem disk fuel) (Recorder.new P junk buffer) as = some s)
    (hE : (acceptedEvents sh mem disk fuel (Recorder.new P junk buffer) as).length < 2147483647)
    (hS : (acceptedStrings sh mem disk fuel (Recorder.new P junk buffer) as).length < 2147483647) :
    (∃ C, s.process.context = some C ∧
      eventsOf s.writer.outputFile ++
          slice s.writer.writeBuffer 0 s.writer.writeBufferUsed.toNat ++
          C.eventQueue.contents espMaxEventBuffer =
        acceptedEvents sh mem disk fuel (Recorder.new P junk buffer) as ∧
      stringsOf s.writer.outputFile ++
          (C.stringQueue.contents stringQueueCapacity).map (stored mem) =
        (acceptedStrings sh mem disk fuel (Recorder.new P junk buffer) as).map (stored mem)) ∧
    (acceptedEvents sh mem disk fuel (Recorder.new P junk buffer) as).Sublist s.process.offers ∧
    (acceptedEvents sh mem disk fuel (Recorder.new P junk buffer) as = s.process.offers ↔
      Meets (sessionStep sh mem disk fuel) (fun s a => offeredEvent sh s a ≠ none → eventsFull s = false)
        (Recorder.new P junk buffer) as) := by
  obtain ⟨C, h⟩ := kept_run hinit hr hE hS
  obtain ⟨hsub, hiff⟩ := acceptedEvents_offers hinit hr
  refine ⟨⟨C, h.context, h.accounts⟩, hsub, ?_⟩
  refine hiff.trans (forall₂_congr ?_)
  intro x _
  exact acceptedEvent_eq_iff x.1 x.2

/-- A zone across the end of a frame, a sample that the pause swallows, and one that it does not. -/
def briefSession : List (SessionAction Bool Addr) :=
  [.recorder (.record true 10 (.zone (some zoneName))), .frameEnd 11, .setPaused true,
    .recorder (.record false 12 (.sample (some probeName) (.int 6))), .setPaused false,
    .recorder (.record false 13 (.sample (some probeName) (.int 7))), .recorder .drain,
    .recorder (.record true 14 .endZone)]

def briefRecorder : Recorder Bool Addr :=
  Recorder.new openedByTrue (Junk.zero zoneName) fun _ => Writer.tick 0

theorem accounts_run_briefSession : ∃ s,
    Process.start.espInit (Junk.zero zoneName) true = some openedByTrue ∧
      run (sessionStep espStrings oneLetter steady 3) briefRecorder briefSession = some s ∧
      s.process.offers.length = 2 ∧
      acceptedEvents espStrings oneLetter steady 3 briefRecorder briefSession = s.process.offers := by
  have hlen : (run (sessionStep espStrings oneLetter steady 3) briefRecorder briefSession).map
      (fun s => s.process.offers.length) = some 2 := by decide +kernel
  obtain ⟨s, hr, hoffers⟩ := Option.map_eq_some_iff.mp hlen
  have hinit : Process.start.espInit (Junk.zero zoneName) true = some openedByTrue := rfl
  obtain ⟨-, -, hiff⟩ := accounts_run hinit hr (by decide +kernel) (by decide +kernel)
  exact ⟨s, hinit, hr, hoffers, hiff.mpr (by decide +kernel)⟩

/-! ### A file that is cut -/

/-- The event of a call of the store, if it is one for an event. -/
def StoreCall.event? : StoreCall → Option ProfileEvent
  | .writeEvent e => some e
  | .writeString _ _ => none

/-- The id and the text of a call for a name. -/
def StoreCall.name? : StoreCall → Option (UInt32 × List UInt8)
  | .writeEvent _ => none
  | .writeString id text => some (id, text)

/-- The ids and the texts of a file's string records. -/
def namesOf (records : List Record) : List (UInt32 × List UInt8) :=
  records.filterMap fun r => (storeCall r).name?

/-- The events that a reader of the first `n` bytes stores. -/
theorem cut_events (n : ℕ) (file : List (Record × UInt32)) :
    ((inside n file).map (fun x => storeCall x.1) ++ cutCalls n file).filterMap StoreCall.event? <+:
      eventsOf (file.map Prod.fst) := by
  induction file generalizing n with
  | nil => exact List.prefix_refl []
  | cons x file ih =>
    obtain ⟨r, pad⟩ := x
    rw [inside, cutCalls]
    by_cases hin : (encode pad r).length ≤ n
    · rw [if_pos hin, if_pos hin]
      have hrest := ih (n - (encode pad r).length)
      cases r with
      | event e => exact (List.prefix_cons_inj e).mpr hrest
      | string id text => exact hrest
    · rw [if_neg hin, if_neg hin]
      cases r with
      | event e => exact List.nil_prefix
      | string id text =>
        rw [List.map_nil, List.nil_append, shortRead]
        split <;> exact List.nil_prefix

/-- The names that it stores: the first of the file, and after these perhaps a part of the next. -/
theorem cut_names (n : ℕ) (file : List (Record × UInt32)) :
    ∃ k, (((inside n file).map (fun x => storeCall x.1)).filterMap StoreCall.name? =
        (namesOf (file.map Prod.fst)).take k) ∧
      (cutCalls n file = [] ∨ ∃ id text j, (namesOf (file.map Prod.fst))[k]? = some (id, text) ∧
        cutCalls n file = [.writeString id (text.take j)]) := by
  induction file generalizing n with
  | nil => exact ⟨0, rfl, Or.inl rfl⟩
  | cons x file ih =>
    obtain ⟨r, pad⟩ := x
    rw [inside, cutCalls]
    by_cases hin : (encode pad r).length ≤ n
    · rw [if_pos hin, if_pos hin]
      obtain ⟨k, hk, hcut⟩ := ih (n - (encode pad r).length)
      cases r with
      | event e => exact ⟨k, hk, hcut⟩
      | string id text => exact ⟨k + 1, congrArg (List.cons (id, text)) hk, hcut⟩
    · rw [if_neg hin, if_neg hin]
      refine ⟨0, rfl, ?_⟩
      cases r with
      | event e => exact Or.inl rfl
      | string id text =>
        rw [shortRead]
        split
        · exact Or.inr ⟨id, text, _, rfl, rfl⟩
        · exact Or.inl rfl

/-- STEP: whatever happens in a session is a move of its scene. -/
theorem shows_sessionStep {S : Scene} (h : Shows s.process C S) {fuel : ℕ} {a : SessionAction T K}
    (hs : sessionStep sh mem disk fuel s a = some s') :
    ∃ D S', Shows s'.process D S' ∧ S.Moves S' := by
  have hcall : ∀ {b : Context.Action T K} {P' : Process T K}, Context.step sh s.process b = some P' →
      ∃ D S', Shows P' D S' ∧ S.Moves S' := by
    intro b P' hP
    obtain ⟨D, S', h', hm, -⟩ := Context.shows_step h hP
    exact ⟨D, S', h', hm⟩
  cases a with
  | recorder a =>
    cases a with
    | record t now c =>
      obtain ⟨P', hP, rfl⟩ := Option.map_eq_some_iff.mp hs
      exact hcall (b := .record t now c) hP
    | drain =>
      obtain ⟨w', -, rfl⟩ := consume_some h.context hs
      exact ⟨_, S, h.same rfl rfl rfl rfl rfl, .idle⟩
  | threadInit t =>
    obtain ⟨P', hP, rfl⟩ := Option.map_eq_some_iff.mp hs
    exact hcall hP
  | frameEnd now =>
    obtain ⟨P', hP, rfl⟩ := Option.map_eq_some_iff.mp hs
    exact hcall hP
  | setPaused shouldPause =>
    obtain rfl := Option.some.inj hs
    exact ⟨C, S, h.same h.context rfl rfl rfl rfl, .idle⟩

/-- RUN: a session moves its scene, which keeps what every move keeps. -/
theorem shows_sessionRun {I : Scene → Prop} (hI : ∀ S S', I S → S.Moves S' → I S')
    (hstart : I Scene.start) (hinit : P₀.espInit junk main = some P)
    (hr : run (sessionStep sh mem disk fuel) (Recorder.new P junk buffer) as = some s) :
    ∃ D S, Shows s.process D S ∧ I S := by
  obtain ⟨C, hC⟩ := Context.shows_espInit hinit
  have hnew : ∃ D S, Shows (Recorder.new P junk buffer).process D S ∧ I S := ⟨C, _, hC, hstart⟩
  exact run_inv (I := fun s : Recorder T K => ∃ D S, Shows s.process D S ∧ I S)
    (fun _ _ _ hshown _ hs => by
      obtain ⟨D, S, h, hS⟩ := hshown
      obtain ⟨D', S', h', hm⟩ := shows_sessionStep h hs
      exact ⟨D', S', h', hI S S' hS hm⟩) as (meets_true _ as) hnew hr

/-- RUN: the events of a session are of no type that a reader takes for a name. -/
theorem offers_stored (hinit : P₀.espInit junk main = some P)
    (hr : run (sessionStep sh mem disk fuel) (Recorder.new P junk buffer) as = some s) :
    ∀ ev ∈ s.process.offers, ev.header.eventType ≠ EV_NEW_STRING := by
  obtain ⟨D, S, h, -⟩ := shows_sessionRun (I := fun _ => True) (fun _ _ _ _ => trivial) trivial
    hinit hr
  intro ev hev
  obtain ⟨m, -, hcarries⟩ := Context.exists_beside h.offered.flip hev
  exact hcarries.stored

/-- RUN: no two events of a session have the same id, while fewer than 2^32 have been given out. -/
theorem offers_ids (hinit : P₀.espInit junk main = some P)
    (hr : run (sessionStep sh mem disk fuel) (Recorder.new P junk buffer) as = some s)
    (hC : s.process.context = some C) (hn : C.nextMessageID ≤ 4294967296) :
    (s.process.offers.map fun ev => ev.header.id).Nodup := by
  obtain ⟨D, S, h, hids⟩ := shows_sessionRun (fun _ _ hS hm => Scene.Ids.moves hS hm)
    Scene.ids_start hinit hr
  obtain rfl := Option.some.inj (hC.symm.trans h.context)
  exact Context.nodup_ids (h.nextID ▸ hn) h.offered hids.fresh.2 hids.offered

omit [DecidableEq T] [DecidableEq K] in
theorem namesOf_eq_stringsOf (records : List Record) :
    namesOf records = (stringsOf records).filterMap fun r => (storeCall r).name? := by
  rw [namesOf, stringsOf, List.filterMap_filterMap]
  refine List.filterMap_congr ?_
  intro r _
  cases r <;> rfl

omit [DecidableEq T] [DecidableEq K] in
/-- A reference to a text that a reader takes is stored with all of it. -/
theorem stored_readable {q : RuntimeStringReference K} (h : Readable (.string q.id (mem q.ptr))) :
    stored mem q = .string q.id (mem q.ptr) := by
  have hlt : (mem q.ptr).length < 4096 := h.2
  have hmod : (mem q.ptr).length % 2 ^ 32 = (mem q.ptr).length := Nat.mod_eq_of_lt (by omega)
  rw [stored, hmod, List.take_length]

omit [DecidableEq T] [DecidableEq K] in
/-- STEP: the last `Flush`. -/
theorem Kept.finish {events : List ProfileEvent} {strings : List (RuntimeStringReference K)}
    (h : Kept mem s C events strings) (hS : strings.length < 2147483647)
    (hs : s.finish mem disk fuel = some s') : ∃ D, Kept mem s' D events strings := by
  obtain ⟨w', hw, rfl⟩ := consume_some h.context hs
  obtain ⟨hcons, hused, -⟩ := h.writer.conserves.flush h.writer.used_nonneg hS hw
  refine ⟨_, rfl, ?_, ?_, ?_⟩
  · rw [show (onRings w' _).writeBufferUsed = 0 from hused]
    exact hcons
  · exact hused.ge
  · rw [show (onRings w' _).writeBufferUsed = 0 from hused]
    decide

/-- RUN: the events in a session's file, between passes or after the last `Flush`, are the first that
    it accepted, the names likewise, and a reader takes all of its records. -/
theorem file_readable (hinit : P₀.espInit junk main = some P)
    (hr : run (sessionStep sh mem disk fuel) (Recorder.new P junk buffer) as = some s)
    (hE : (acceptedEvents sh mem disk fuel (Recorder.new P junk buffer) as).length < 2147483647)
    (hS : (acceptedStrings sh mem disk fuel (Recorder.new P junk buffer) as).length < 2147483647)
    (htexts : ∀ q ∈ acceptedStrings sh mem disk fuel (Recorder.new P junk buffer) as,
      Readable (.string q.id (mem q.ptr)))
    (hend : s' = s ∨ s.finish mem disk fuel = some s') :
    eventsOf s'.writer.outputFile <+:
        acceptedEvents sh mem disk fuel (Recorder.new P junk buffer) as ∧
      stringsOf s'.writer.outputFile <+:
        (acceptedStrings sh mem disk fuel (Recorder.new P junk buffer) as).map (stored mem) ∧
      ∀ r ∈ s'.writer.outputFile, Readable r := by
  obtain ⟨C, h⟩ := kept_run hinit hr hE hS
  obtain ⟨hsub, -⟩ := acceptedEvents_offers hinit hr
  obtain ⟨D, h'⟩ : ∃ D, Kept mem s' D (acceptedEvents sh mem disk fuel (Recorder.new P junk buffer) as)
      (acceptedStrings sh mem disk fuel (Recorder.new P junk buffer) as) := by
    rcases hend with rfl | hs
    · exact ⟨C, h⟩
    · exact h.finish hS hs
  obtain ⟨hevents, hstrings⟩ := h'.accounts
  have hfront : eventsOf s'.writer.outputFile <+:
      acceptedEvents sh mem disk fuel (Recorder.new P junk buffer) as := by
    rw [← hevents, List.append_assoc]
    exact List.prefix_append _ _
  have hnames : stringsOf s'.writer.outputFile <+:
      (acceptedStrings sh mem disk fuel (Recorder.new P junk buffer) as).map (stored mem) :=
    ⟨_, hstrings⟩
  refine ⟨hfront, hnames, fun r hmem => ?_⟩
  cases r with
  | event e =>
    have he : e ∈ eventsOf s'.writer.outputFile := List.mem_filterMap.mpr ⟨_, hmem, rfl⟩
    exact offers_stored hinit hr e (hsub.subset (hfront.subset he))
  | string id text =>
    have ht : Record.string id text ∈ stringsOf s'.writer.outputFile :=
      List.mem_filterMap.mpr ⟨_, hmem, rfl⟩
    obtain ⟨q, hq, heq⟩ := List.mem_map.mp (hnames.subset ht)
    rw [← heq, stored_readable (htexts q hq)]
    exact htexts q hq

/-- CORRECT: whatever a session has written by some moment, its end included, and however few of its
    bytes are left, the reader stores the first events of the session in order, and its first names in full, except that
    of one more it may store a part. -/
theorem cutSession_run (hinit : P₀.espInit junk main = some P)
    (hr : run (sessionStep sh mem disk fuel) (Recorder.new P junk buffer) as = some s)
    (hE : (acceptedEvents sh mem disk fuel (Recorder.new P junk buffer) as).length < 2147483647)
    (hS : (acceptedStrings sh mem disk fuel (Recorder.new P junk buffer) as).length < 2147483647)
    (htexts : ∀ q ∈ acceptedStrings sh mem disk fuel (Recorder.new P junk buffer) as,
      Readable (.string q.id (mem q.ptr)))
    (hend : s' = s ∨ s.finish mem disk fuel = some s')
    {file : List (Record × UInt32)} (hfile : file.map Prod.fst = s'.writer.outputFile) (n : ℕ) {m : ℕ}
    (hm : file.length < m) :
    ∃ r, readLoop m ((emit file).take n) = some r ∧
      r.calls.filterMap StoreCall.event? <+:
        acceptedEvents sh mem disk fuel (Recorder.new P junk buffer) as ∧
      ∃ k, r.calls.filterMap StoreCall.name? =
          ((acceptedStrings sh mem disk fuel (Recorder.new P junk buffer) as).map fun q =>
            (q.id, mem q.ptr)).take k ∨
        ∃ id text j, ((acceptedStrings sh mem disk fuel (Recorder.new P junk buffer) as).map fun q =>
            (q.id, mem q.ptr))[k]? = some (id, text) ∧
          r.calls.filterMap StoreCall.name? =
            ((acceptedStrings sh mem disk fuel (Recorder.new P junk buffer) as).map fun q =>
              (q.id, mem q.ptr)).take k ++ [(id, text.take j)] := by
  obtain ⟨hfront, hstrings, hall⟩ := file_readable hinit hr hE hS htexts hend
  generalize acceptedEvents sh mem disk fuel (Recorder.new P junk buffer) as = events at *
  generalize acceptedStrings sh mem disk fuel (Recorder.new P junk buffer) as = strings at *
  -- the names in the file are the first that the string ring was given
  have hpairs : (strings.map (stored mem)).filterMap (fun r => (storeCall r).name?) =
      strings.map fun q => (q.id, mem q.ptr) := by
    rw [List.filterMap_map, ← List.filterMap_eq_map]
    refine List.filterMap_congr ?_
    intro q hq
    simp only [Function.comp_apply, stored_readable (htexts q hq), storeCall, StoreCall.name?]
  have hnames : namesOf s'.writer.outputFile <+: strings.map fun q => (q.id, mem q.ptr) := by
    rw [← hpairs, namesOf_eq_stringsOf]
    exact hstrings.filterMap _
  have hreadable : ∀ x ∈ file, Readable x.1 := fun x hx =>
    hall x.1 (hfile ▸ List.mem_map_of_mem hx)
  obtain ⟨r, hread, hcalls⟩ := readLoop_take hreadable n hm
  refine ⟨r, hread, ?_, ?_⟩
  · rw [hcalls]
    refine (cut_events n file).trans ?_
    rwa [hfile]
  · obtain ⟨k, hk, hcut⟩ := cut_names n file
    rw [hfile] at hk hcut
    rw [hcalls, List.filterMap_append, hk]
    have htake : ∀ j ≤ (namesOf s'.writer.outputFile).length, (namesOf s'.writer.outputFile).take j =
        (strings.map fun q => (q.id, mem q.ptr)).take j := by
      intro j hj
      rw [List.prefix_iff_eq_take.mp hnames, List.take_take, min_eq_left hj]
    rcases hcut with hnil | ⟨id, text, j, hget, hone⟩
    · refine ⟨min k (namesOf s'.writer.outputFile).length, Or.inl ?_⟩
      rw [hnil, List.filterMap_nil, List.append_nil, ← htake _ (min_le_right _ _), List.take_eq_take_min]
    · have hlt : k < (namesOf s'.writer.outputFile).length := (List.getElem?_eq_some_iff.mp hget).1
      refine ⟨k, Or.inr ⟨id, text, j, ?_, ?_⟩⟩
      · rw [← hget]
        exact (List.prefix_iff_getElem?.mp hnames k hlt).trans (List.getElem?_eq_getElem hlt).symm
      · rw [hone, htake k hlt.le]
        rfl

/-- Every name is `xy`. -/
def twoLetters : Addr → List UInt8 := fun _ => [120, 121]

/-- A zone, a pass, and a sample under a second name that no pass meets: the last `Flush` writes the
    event of the zone and behind it the second name. -/
def nameBehind : List (SessionAction Bool Addr) :=
  [.recorder (.record true 10 (.zone (some zoneName))), .recorder (.record true 12 .endZone),
    .recorder .drain, .recorder (.record false 13 (.sample (some probeName) (.int 7)))]

/-- The file of that session after the last `Flush`, short of its last byte: the reader takes the
    event, the first name, and the second without its last letter. -/
theorem cutSession_run_nameBehind : ∃ s s' r,
    run (sessionStep espStrings twoLetters steady 3) briefRecorder nameBehind = some s ∧
      s.finish twoLetters steady 3 = some s' ∧
      readLoop (s'.writer.outputFile.length + 1)
        ((emit (s'.writer.outputFile.map fun r => (r, 0))).take 67) = some r ∧
      ((r.calls.filterMap StoreCall.event?).map fun ev => ev.data.eventNameRef) = [0] ∧
      r.calls.filterMap StoreCall.name? = [(0, [120, 121]), (1, [120])] ∧
      r.calls.filterMap StoreCall.event? <+:
        acceptedEvents espStrings twoLetters steady 3 briefRecorder nameBehind ∧
      ∃ k, r.calls.filterMap StoreCall.name? =
          ((acceptedStrings espStrings twoLetters steady 3 briefRecorder nameBehind).map fun q =>
            (q.id, twoLetters q.ptr)).take k ∨
        ∃ id text j, ((acceptedStrings espStrings twoLetters steady 3 briefRecorder nameBehind).map
            fun q => (q.id, twoLetters q.ptr))[k]? = some (id, text) ∧
          r.calls.filterMap StoreCall.name? =
            ((acceptedStrings espStrings twoLetters steady 3 briefRecorder nameBehind).map fun q =>
              (q.id, twoLetters q.ptr)).take k ++ [(id, text.take j)] := by
  have hcalls : ((run (sessionStep espStrings twoLetters steady 3) briefRecorder nameBehind).bind
      fun s => s.finish twoLetters steady 3).bind (fun s =>
        (readLoop (s.writer.outputFile.length + 1)
          ((emit (s.writer.outputFile.map fun r => (r, 0))).take 67)).map fun r =>
            ((r.calls.filterMap StoreCall.event?).map fun ev => ev.data.eventNameRef,
              r.calls.filterMap StoreCall.name?)) =
      some ([0], [(0, [120, 121]), (1, [120])]) := by
    decide +kernel
  obtain ⟨s', hs', hread⟩ := Option.bind_eq_some_iff.mp hcalls
  obtain ⟨r, hr, htaken⟩ := Option.map_eq_some_iff.mp hread
  obtain ⟨s, hrun, hs⟩ := Option.bind_eq_some_iff.mp hs'
  obtain ⟨hrefs, hnames⟩ := Prod.mk.inj htaken
  have hfile : (s'.writer.outputFile.map fun r => (r, (0 : UInt32))).map Prod.fst =
      s'.writer.outputFile := by
    rw [List.map_map]
    exact List.map_id _
  have hinit : Process.start.espInit (Junk.zero zoneName) true = some openedByTrue := rfl
  obtain ⟨r', hr', hcut⟩ := cutSession_run hinit hrun (by decide +kernel) (by decide +kernel)
    (by decide +kernel) (Or.inr hs) hfile 67 (by rw [List.length_map]; exact Nat.lt_succ_self _)
  obtain rfl : r = r' := Option.some.inj (hr.symm.trans hr')
  exact ⟨s, s', r, hrun, hs, hr, hrefs, hnames, hcut⟩

end Esp.Uplift
