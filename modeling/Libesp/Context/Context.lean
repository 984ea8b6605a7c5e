import Libesp.Event
import Libesp.Map.PointerHash
import Libesp.Queue.LocklessRing
import Libesp.Stack.SlabStack

/-! @esp context | name:ThreadContext, ProfileContext | scheme:state-machine |
    source:src/Context.cpp, src/Context.h, src/profile.cpp

    The recording calls of a process, each run from start to end with the clock reading it makes. A
    zone is stamped in its slot of the thread's stack when it opens and offered to the event ring when
    it closes; a sample is stamped and offered at once.

        esp_zone    Peek ─▶ Push ─▶ StampEvent ─▶ slot
        esp_end     Pop  ─▶ value := now - timestamp ─▶ TryEnqueue
        esp_sample  StampEvent ─▶ Peek ─▶ TryEnqueue

    `_thread_context` is a thread-local pointer into the contexts of the session that was open when it
    was set; here it is the number of that session and the index. Using it in another session, or past
    the end of the array, is undefined: `none`. -/

namespace Esp.Context
open Event PointerHash LocklessRing Slab

/-- The value of a sample call, by the overload it goes to; a float by its bits. -/
inductive Probe where
  | int (v : Int32)
  | uint (v : UInt32)
  | float (bits : UInt32)
  deriving DecidableEq, Repr

def Probe.eventType : Probe → UInt32
  | .int _ => EV_PROBE_INT
  | .uint _ => EV_PROBE_UINT
  | .float _ => EV_PROBE_FLOAT

/-- The 32 bits stored in the event's union. -/
def Probe.value : Probe → UInt32
  | .int v => v.toUInt32
  | .uint v => v
  | .float bits => bits

/-- A recording call: `esp_zone`, `esp_end` or one of `esp_sample_*`. A name may be null. -/
inductive Call (K : Type) where
  | zone (zoneName : Option K)
  | endZone
  | sample (probeName : Option K) (probe : Probe)
  deriving DecidableEq, Repr

structure ThreadContext where
  threadIndex : ℕ
  profileIntervalStack : SlabStack ProfileEvent
  /-- History: the numbers of the calls that opened the zones on the stack, innermost first. -/
  openedBy : List ℕ

structure ProfileContext (K : Type) where
  threadCount : ℕ
  nextMessageID : ℕ
  frameNumber : ℕ
  frameTimestamp : Int64
  threadContexts : ℕ → ThreadContext
  eventQueue : RingQueue ProfileEvent
  /-- The queue of `eventConsumer`. -/
  stringQueue : RingQueue (RuntimeStringReference K)
  strings : Table K

/-- What a stamped call was given: its event id, and the answer of `MapStringToReference`. -/
structure Stamp where
  id : UInt32
  nameRef : UInt32
  deriving DecidableEq, Repr

/-- History: one recording call that reached an open session. -/
structure Entry (K : Type) where
  number : ℕ
  now : Int64
  call : Call K
  /-- The stamp of the call; an `esp_end` and a zone that finds the stack full get none. -/
  stamp : Option Stamp
  /-- The event handed to `TryEnqueue`. -/
  offered : Option ProfileEvent
  /-- For an `esp_end` that pops: the number of the call that opened the popped zone. -/
  closed : Option ℕ
  deriving DecidableEq, Repr

/-- The session's memory and each thread's `_thread_context`. -/
structure Process (T K : Type) where
  paused : Bool
  /-- The number of the session last opened. -/
  session : ℕ
  context : Option (ProfileContext K)
  threadContext : T → Option (ℕ × ℕ)
  /-- History: the recording calls of the session, in order. -/
  log : List (T × Entry K)

/-- The process before its first session. -/
def Process.start {T K : Type} : Process T K := ⟨false, 0, none, fun _ => none, []⟩

/-! ### ThreadContext and ProfileContext -/

def ThreadContext.new (threadIndex : ℕ) (junk : ℕ → ProfileEvent) : ThreadContext :=
  ⟨threadIndex, SlabStack.new espMaxZoneRecursion junk, []⟩

/-- Memory whose contents nothing relies on: the stacks' slabs and the rings' arrays. -/
structure Junk (K : Type) where
  slabs : ℕ → ℕ → ProfileEvent
  events : ℤ → ProfileEvent
  strings : ℤ → RuntimeStringReference K

/-- Memory that is all zero. -/
def Junk.zero {K : Type} (k : K) : Junk K :=
  ⟨fun _ _ => ⟨⟨0, 0⟩, ⟨0, 0, 0, 0, 0, 0⟩⟩, fun _ => ⟨⟨0, 0⟩, ⟨0, 0, 0, 0, 0, 0⟩⟩, fun _ => ⟨0, k⟩⟩

variable {T K : Type}

def ProfileContext.new (junk : Junk K) : ProfileContext K where
  threadCount := 0
  nextMessageID := 1
  frameNumber := 0
  frameTimestamp := 0
  threadContexts i := ThreadContext.new i (junk.slabs i)
  eventQueue := RingQueue.new junk.events
  stringQueue := RingQueue.new junk.strings
  strings := Table.new

def ProfileContext.nextEventID (C : ProfileContext K) : UInt32 × ProfileContext K :=
  (UInt32.ofNat C.nextMessageID, { C with nextMessageID := C.nextMessageID + 1 })

def ProfileContext.frameEnd (C : ProfileContext K) (now : Int64) : ProfileContext K :=
  { C with frameNumber := C.frameNumber + 1, frameTimestamp := now }

/-- `eventQueue.TryEnqueue(event)`, whose answer nobody looks at. -/
def ProfileContext.offerEvent (C : ProfileContext K) (event : ProfileEvent) : ProfileContext K :=
  { C with eventQueue := (C.eventQueue.tryEnqueue espMaxEventBuffer event).2 }

def ProfileContext.offerString (C : ProfileContext K) (ref : RuntimeStringReference K) :
    ProfileContext K :=
  { C with stringQueue := (C.stringQueue.tryEnqueue stringQueueCapacity ref).2 }

def ThreadContext.peekParentID (t : ThreadContext) : UInt32 :=
  match t.profileIntervalStack.peek with
  | some parentZone => (t.profileIntervalStack.slab parentZone).header.id
  | none => 0

variable [DecidableEq K] (sh : Shape K)

def ProfileContext.mapStringToReference (C : ProfileContext K) (string : Option K) :
    UInt32 × ProfileContext K :=
  let index := C.strings.get sh string
  if isIndex index then (index, C)
  else
    let got := C.strings.put sh string
    let C' := { C with strings := got.2 }
    if isIndex got.1 then
      match string with
      | some ptr => (got.1, C'.offerString ⟨got.1, ptr⟩)
      | none => (got.1, C')  -- `Put` never inserts a null pointer
    else (noRef, C')

/-- The outcome of `StampEvent`: the event, the context, and the stamp for the history. -/
structure Stamped (K : Type) where
  event : ProfileEvent
  context : ProfileContext K
  stamp : Stamp

/-- `StampEvent` on the event at `ev`. -/
def ThreadContext.stampEvent (t : ThreadContext) (C : ProfileContext K) (now : Int64)
    (ev : ProfileEvent) (nameString : Option K) : Stamped K :=
  let id := C.nextEventID
  let ref := id.2.mapStringToReference sh nameString
  { event :=
      { header := { ev.header with id := id.1 }
        data := { ev.data with
          threadID := UInt32.ofNat t.threadIndex
          timestamp := now
          frameNumber := UInt32.ofNat C.frameNumber
          eventNameRef := ref.1 } }
    context := ref.2
    stamp := ⟨id.1, ref.1⟩ }

/-- The outcome of a recording method: the contexts it leaves and the history of the call. -/
structure Recorded (K : Type) where
  thread : ThreadContext
  context : ProfileContext K
  entry : Entry K

def ThreadContext.zone (t : ThreadContext) (C : ProfileContext K) (number : ℕ) (now : Int64)
    (zoneName : Option K) : Recorded K :=
  let parentRef := t.peekParentID
  match t.profileIntervalStack.push with
  | none => ⟨t, C, ⟨number, now, .zone zoneName, none, none, none⟩⟩
  | some (slot, stack) =>
    let stamped := t.stampEvent sh C now (stack.slab slot) zoneName
    let ev : ProfileEvent :=
      { header := { stamped.event.header with eventType := EV_ZONE_INTERVAL }
        data := { stamped.event.data with parentEventRef := parentRef } }
    ⟨{ t with profileIntervalStack := stack.store slot ev, openedBy := number :: t.openedBy },
      stamped.context, ⟨number, now, .zone zoneName, some stamped.stamp, none, none⟩⟩

/-- The difference of two clock values, converted to the 32 bits of `value.ui`. -/
def elapsed (now timestamp : Int64) : UInt32 := (now - timestamp).toUInt64.toUInt32

def ThreadContext.endZone (t : ThreadContext) (C : ProfileContext K) (number : ℕ) (now : Int64) :
    Recorded K :=
  match t.profileIntervalStack.pop with
  | none => ⟨t, C, ⟨number, now, .endZone, none, none, none⟩⟩
  | some (slot, stack) =>
    let ev := stack.slab slot
    let ev : ProfileEvent := { ev with
      data := { ev.data with value := elapsed now ev.data.timestamp } }
    ⟨{ t with profileIntervalStack := stack.store slot ev, openedBy := t.openedBy.tail },
      C.offerEvent ev, ⟨number, now, .endZone, none, some ev, t.openedBy.head?⟩⟩

/-- The three overloads of `Sample`, which differ in the event type and the union member. -/
def ThreadContext.sample (t : ThreadContext) (C : ProfileContext K) (number : ℕ) (now : Int64)
    (probeName : Option K) (probe : Probe) : Recorded K :=
  -- every field of the local `pe` is assigned below
  let pe : ProfileEvent := ⟨⟨0, 0⟩, ⟨0, 0, 0, 0, 0, 0⟩⟩
  let stamped := t.stampEvent sh C now pe probeName
  let pe : ProfileEvent :=
    { header := { stamped.event.header with eventType := probe.eventType }
      data := { stamped.event.data with value := probe.value, parentEventRef := t.peekParentID } }
  ⟨t, stamped.context.offerEvent pe,
    ⟨number, now, .sample probeName probe, some stamped.stamp, some pe, none⟩⟩

def ThreadContext.record (t : ThreadContext) (C : ProfileContext K) (number : ℕ) (now : Int64) :
    Call K → Recorded K
  | .zone zoneName => t.zone sh C number now zoneName
  | .endZone => t.endZone C number now
  | .sample probeName probe => t.sample sh C number now probeName probe

/-! ### The `esp_` calls -/

variable [DecidableEq T]

/-- `ProfileContext::InitThread`, called on `_context`. -/
def Process.espThreadInit (P : Process T K) (t : T) : Option (Process T K) :=
  match P.context, P.threadContext t with
  | _, some _ => some P
  | none, none => none
  | some C, none => some { P with
      context := some { C with threadCount := C.threadCount + 1 }
      threadContext := Function.update P.threadContext t (some (P.session, C.threadCount)) }

/-- `esp_init`: a new context, and one of its thread contexts for the calling thread. -/
def Process.espInit (P : Process T K) (junk : Junk K) (t : T) : Option (Process T K) :=
  ({ P with
    session := P.session + 1
    context := some (ProfileContext.new junk)
    log := [] } : Process T K).espThreadInit t

/-- The common body of `esp_zone`, `esp_end` and `esp_sample_*`. -/
def Process.espRecord (P : Process T K) (t : T) (now : Int64) (c : Call K) :
    Option (Process T K) :=
  if P.paused then some P
  else
    (P.espThreadInit t).bind fun P =>
      match P.context, P.threadContext t with
      | none, _ => some P
      | some _, none => none
      | some C, some (session, i) =>
        if session = P.session ∧ i < espMaxThreadCount then
          let got := (C.threadContexts i).record sh C P.log.length now c
          some { P with
            context := some { got.context with
              threadContexts := Function.update got.context.threadContexts i got.thread }
            log := P.log ++ [(t, got.entry)] }
        else none

/-- What happens in an open session: the recording calls of the threads, and what else touches the
    context. -/
inductive Action (T K : Type) where
  | record (t : T) (now : Int64) (c : Call K)
  | threadInit (t : T)
  | frameEnd (now : Int64)
  | setPaused (shouldPause : Bool)
  /-- The drain thread takes events, or one string. -/
  | drainEvents (maxOut : ℕ)
  | drainString

def Process.mapContext (P : Process T K) (f : ProfileContext K → ProfileContext K) :
    Option (Process T K) :=
  P.context.map fun C => { P with context := some (f C) }

def step (P : Process T K) : Action T K → Option (Process T K)
  | .record t now c => P.espRecord sh t now c
  | .threadInit t => P.espThreadInit t
  | .frameEnd now => P.mapContext fun C => C.frameEnd now
  | .setPaused shouldPause => some { P with paused := shouldPause }
  | .drainEvents maxOut => P.mapContext fun C =>
    { C with eventQueue := (C.eventQueue.tryDequeueBulk espMaxEventBuffer maxOut).2 }
  | .drainString => P.mapContext fun C =>
    { C with stringQueue := (C.stringQueue.tryDequeue stringQueueCapacity).2 }

/-! ### The calls, case by case -/

variable {P : Process T K} {C : ProfileContext K} {t : T}

omit [DecidableEq K] in
theorem espThreadInit_fresh (hC : P.context = some C) (hn : P.threadContext t = none) :
    P.espThreadInit t = some { P with
      context := some { C with threadCount := C.threadCount + 1 }
      threadContext := Function.update P.threadContext t (some (P.session, C.threadCount)) } := by
  simp only [Process.espThreadInit, hC, hn]

omit [DecidableEq K] in
theorem espThreadInit_again {p : ℕ × ℕ} (hp : P.threadContext t = some p) :
    P.espThreadInit t = some P := by
  simp only [Process.espThreadInit, hp]

omit [DecidableEq K] in
/-- INVERSION: a thread that has a context keeps it, and one that has none gets the next of the open
    session. -/
theorem espThreadInit_cases {P' : Process T K} (h : P.espThreadInit t = some P') :
    ((∃ p, P.threadContext t = some p) ∧ P' = P) ∨
    (P.threadContext t = none ∧ ∃ C, P.context = some C ∧ P' = { P with
      context := some { C with threadCount := C.threadCount + 1 }
      threadContext := Function.update P.threadContext t (some (P.session, C.threadCount)) }) := by
  rcases hp : P.threadContext t with _ | p
  · rcases hC : P.context with _ | C
    · simp only [Process.espThreadInit, hC, hp] at h
      cases h
    · rw [espThreadInit_fresh hC hp] at h
      exact Or.inr ⟨rfl, C, rfl, (Option.some.inj h).symm⟩
  · rw [espThreadInit_again hp] at h
    exact Or.inl ⟨⟨p, rfl⟩, (Option.some.inj h).symm⟩

omit [DecidableEq K] in
/-- A second `InitThread` changes nothing, and the first does not touch the flag. -/
theorem espThreadInit_idem {P' : Process T K} (h : P.espThreadInit t = some P') :
    P'.espThreadInit t = some P' ∧ P'.paused = P.paused := by
  rcases espThreadInit_cases h with ⟨⟨p, hp⟩, rfl⟩ | ⟨-, C, -, rfl⟩
  · exact ⟨espThreadInit_again hp, rfl⟩
  · exact ⟨espThreadInit_again (Function.update_self ..), rfl⟩

omit [DecidableEq K] [DecidableEq T] in
theorem mapContext_some (hC : P.context = some C) (f : ProfileContext K → ProfileContext K) :
    P.mapContext f = some { P with context := some (f C) } := by
  rw [Process.mapContext, hC, Option.map_some]

end Esp.Context
