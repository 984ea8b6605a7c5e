import Libesp.Context.CallForest
import Libesp.Map.TableNames
import Libesp.Stream.Conservation

/-! @esp context | name:ProfileContext, RawEventWriter | scheme:pipeline |
    source:src/Context.cpp (MapStringToReference), src/EventStreamIO.cpp (Drain, Flush), src/Comms.h

    A session from its calls to its file: the recording calls of the threads and the passes of the
    drain thread, each from start to end, and the last `Flush`. A name goes to the string ring once,
    when it is new; what the ring refuses then is not offered again.

        calls ──▶ string table ── new ──▶ string ring (4096) ──▶ file
          └─────────────────────────────▶ event ring (512 K) ──▶ file

    While every new name finds room, the string ring has been given the pointers of the table in
    order, and the last `Flush` leaves all of them in the file (`resolvable_run`). -/

namespace Esp.Context
open Event PointerHash LocklessRing Slab Machine
open Writer (RawEventWriter Conserves SessionInv stored)

variable {T K : Type}

/-- The open session and the writer of its file. The writer's rings are those of the context. -/
structure Recorder (T K : Type) where
  process : Process T K
  writer : RawEventWriter K

def Recorder.new (P : Process T K) (junk : Junk K) (buffer : ℤ → ProfileEvent) : Recorder T K :=
  ⟨P, RawEventWriter.new (RingQueue.new junk.events) (RingQueue.new junk.strings) buffer⟩

/-- The writer, looking at the rings of the context. -/
def onRings (w : RawEventWriter K) (C : ProfileContext K) : RawEventWriter K :=
  { w with contextQueue := C.eventQueue, stringQueue := C.stringQueue }

/-- The drain thread runs `f`. -/
def Recorder.consume (s : Recorder T K) (f : RawEventWriter K → Option (RawEventWriter K)) :
    Option (Recorder T K) :=
  s.process.context.bind fun C => (f (onRings s.writer C)).map fun w =>
    { process := { s.process with
        context := some { C with eventQueue := w.contextQueue, stringQueue := w.stringQueue } }
      writer := w }

inductive RecorderAction (T K : Type) where
  | record (t : T) (now : Int64) (c : Call K)
  | drain

variable [DecidableEq K] [DecidableEq T] (sh : Shape K) (mem : K → List UInt8) (disk : ℕ → ℕ)

/-- `none` also when a `Drain` is still running after `fuel` rounds. -/
def Recorder.step (fuel : ℕ) (s : Recorder T K) : RecorderAction T K → Option (Recorder T K)
  | .record t now c => (s.process.espRecord sh t now c).map fun P => { s with process := P }
  | .drain => s.consume fun w => w.drain mem disk fuel

/-- The last statement of `DrainLoop`. -/
def Recorder.finish (fuel : ℕ) (s : Recorder T K) : Option (Recorder T K) :=
  s.consume fun w => w.flush mem disk fuel

/-- A pointer that is not in the table, and will be, finds the string ring not full; and its text
    is no longer than the record's length field can say. -/
def ProfileContext.NameFits (C : ProfileContext K) (ptr : K) : Prop :=
  isIndex (C.strings.get sh (some ptr)) = false → isIndex (C.strings.put sh (some ptr)).1 = true →
    C.stringQueue.full stringQueueCapacity = false ∧ (mem ptr).length < 2 ^ 32

/-- The condition on one step: the name the call passes fits, and the event ring has not come to the
    last `int`. -/
structure Room (s : Recorder T K) (a : RecorderAction T K) : Prop where
  name : ∀ t now c P C i ptr, a = .record t now c → s.process.espThreadInit t = some P →
    P.context = some C → P.threadContext t = some (P.session, i) →
    (C.threadContexts i).passes c = some (some ptr) → C.NameFits sh mem ptr
  events : ∀ C, s.process.context = some C → C.eventQueue.front < 2147483647

/-- The name that a step passes to `MapStringToReference`, with the context that it is passed in. -/
def Recorder.passed (s : Recorder T K) : RecorderAction T K → Option (ProfileContext K × K)
  | .record t _ c => (s.process.espThreadInit t).bind fun P => P.context.bind fun C =>
    (P.threadContext t).bind fun x =>
      if x.1 = P.session then ((C.threadContexts x.2).passes c).bind fun name => name.map (C, ·)
      else none
  | .drain => none

theorem room_iff {sh : Shape K} {mem : K → List UInt8} {s : Recorder T K} {a : RecorderAction T K} :
    Room sh mem s a ↔ (∀ x ∈ s.passed a, x.1.NameFits sh mem x.2) ∧
      ∀ C ∈ s.process.context, C.eventQueue.front < 2147483647 := by
  constructor
  · rintro ⟨hname, hevents⟩
    refine ⟨?_, hevents⟩
    rintro ⟨C, ptr⟩ hx
    cases a with
    | drain => cases hx
    | record t now c =>
      obtain ⟨P, hP, hx⟩ := Option.bind_eq_some_iff.mp hx
      obtain ⟨D, hD, hx⟩ := Option.bind_eq_some_iff.mp hx
      obtain ⟨⟨session, i⟩, hi, hx⟩ := Option.bind_eq_some_iff.mp hx
      split at hx
      · rename_i hsession
        obtain rfl : session = P.session := hsession
        obtain ⟨name, hpasses, hx⟩ := Option.bind_eq_some_iff.mp hx
        obtain ⟨q, rfl, hq⟩ := Option.map_eq_some_iff.mp hx
        obtain ⟨rfl, rfl⟩ := Prod.mk.inj hq
        exact hname t now c P D i q rfl hP hD hi hpasses
      · cases hx
  · rintro ⟨hname, hevents⟩
    refine ⟨?_, hevents⟩
    rintro t now c P C i ptr rfl hP hC hi hpasses
    refine hname (C, ptr) ?_
    simp only [Recorder.passed, hP, hC, hi, hpasses, Option.bind_some, if_true, Option.map_some]
    rfl

instance (C : ProfileContext K) (ptr : K) : Decidable (C.NameFits sh mem ptr) :=
  inferInstanceAs (Decidable (_ → _ → _ ∧ _))

instance (s : Recorder T K) (a : RecorderAction T K) : Decidable (Room sh mem s a) :=
  decidable_of_iff _ room_iff.symm

/-- `ev` was recorded with the name at `ptr`: by a sample of it, or as the zone it opened. -/
def RecordedWith (log : List (T × Entry K)) (ev : ProfileEvent) (ptr : K) : Prop :=
  ∃ x ∈ log, x.2.offered = some ev ∧ ((∃ probe, x.2.call = .sample (some ptr) probe) ∨
    ∃ o ∈ log, x.2.closed = some o.2.number ∧ o.2.call = .zone (some ptr))

/-- A string record with this id. -/
def namesId (id : UInt32) : Record → Bool
  | .event _ => false
  | .string i _ => i == id

/-- Every event of the file that has a name reference has one string record of it, with the text of
    the pointer it was recorded with. -/
def Resolvable (s : Recorder T K) : Prop :=
  ∀ ev ∈ eventsOf s.writer.outputFile, ev.data.eventNameRef ≠ noRef →
    (∃ ptr, RecordedWith s.process.log ev ptr) ∧
    ∀ ptr, RecordedWith s.process.log ev ptr →
      s.writer.outputFile.filter (namesId ev.data.eventNameRef) =
        [.string ev.data.eventNameRef (mem ptr)]

/-! ### What a recording call does to the rings and the table -/

/-- The event a call offers, if any. -/
def ProfileContext.offer (C : ProfileContext K) (ev : Option ProfileEvent) : ProfileContext K :=
  ev.elim C C.offerEvent

variable {sh mem disk}

variable (sh) in
/-- A recording call maps the name it passes and offers the event it logs, and nothing else. -/
theorem record_effects (t : ThreadContext) (C : ProfileContext K) (number : ℕ) (now : Int64)
    (c : Call K) : (t.record sh C number now c).context =
      ((t.passes c).elim C fun name => (C.nextEventID.2.mapStringToReference sh name).2).offer
        (t.record sh C number now c).entry.offered := by
  cases c with
  | zone name =>
    simp only [ThreadContext.record, ThreadContext.zone, ThreadContext.passes]
    split
    · rename_i hpush
      rw [hpush]
      rfl
    · rename_i hpush
      rw [hpush]
      rfl
  | endZone =>
    simp only [ThreadContext.record, ThreadContext.endZone, ThreadContext.passes]
    split <;> rfl
  | sample name probe => rfl

/-- `MapStringToReference` on a table that lists `names`. -/
theorem mapString_lists {C : ProfileContext K} {names : List K} (h : Lists sh C.strings names)
    (k : K) :
    (k ∈ names ∧ (C.mapStringToReference sh (some k)).2 = C) ∨
    (Full sh C.strings ∧ (C.mapStringToReference sh (some k)) = (noRef, C)) ∨
    (isIndex (C.strings.get sh (some k)) = false ∧ isIndex (C.strings.put sh (some k)).1 = true ∧
      ∃ S, Lists sh S (names ++ [k]) ∧ (C.mapStringToReference sh (some k)) =
        (UInt32.ofNat names.length, { C with strings := S }.offerString
          ⟨UInt32.ofNat names.length, k⟩)) := by
  rw [ProfileContext.mapStringToReference]
  by_cases hk : k ∈ names
  · exact Or.inl ⟨hk, by simp only [h.isIndex_get.mpr hk, if_true]⟩
  · have hget : isIndex (C.strings.get sh (some k)) = false := by
      rw [h.get_of_notMem hk]
      rfl
    rcases h.put hk with ⟨hput, hfull⟩ | ⟨hput, hlists⟩
    · refine Or.inr (Or.inl ⟨hfull, ?_⟩)
      simp only [hget, hput]
      rfl
    · have hlen := hlists.length_le
      have hcap := sh.capacity_int
      rw [List.length_append, List.length_singleton] at hlen
      have hidx := isIndex_ofNat (show names.length < 2147483648 by omega)
      refine Or.inr (Or.inr ⟨hget, by rw [hput, hidx], _, hlists, ?_⟩)
      simp only [hget, hput, hidx, if_true]
      rfl

theorem tryEnqueue_of_room {α : Type} {cap : ℕ} {r : RingQueue α} (h : r.full cap = false) (v : α) :
    (r.tryEnqueue cap v).1 = true := by
  rw [tryEnqueue_room (by rw [h]; exact Bool.false_ne_true)]

/-! ### The strings in order -/

/-- The references the string ring has been given, when it has been given all names. -/
def queuedNames (names : List K) : List (RuntimeStringReference K) :=
  names.mapIdx fun i k => ⟨UInt32.ofNat i, k⟩

omit [DecidableEq K] in
theorem queuedNames_concat (names : List K) (k : K) :
    queuedNames (names ++ [k]) = queuedNames names ++ [⟨UInt32.ofNat names.length, k⟩] :=
  List.mapIdx_concat

/-- A call that passes no null name. -/
def Call.Named : Call K → Prop
  | .endZone => True
  | c => c.name ≠ none

/-- What a writer sees of a context: its rings, and a table all of whose names they have been
    given. -/
structure RingsOk (sh : Shape K) (mem : K → List UInt8) (w : RawEventWriter K) (C : ProfileContext K)
    (names : List K) (events : List ProfileEvent) : Prop where
  table : Lists sh C.strings names
  texts : ∀ k ∈ names, (mem k).length < 2 ^ 32
  writer : SessionInv mem ⟨onRings w C, events, queuedNames names⟩

/-- INVARIANT: every name of the table has gone to the string ring, and every accepted event was
    offered by a call. -/
structure RecorderInv (sh : Shape K) (mem : K → List UInt8) (ts : Finset T) (s : Recorder T K)
    (C : ProfileContext K) (names : List K) (events : List ProfileEvent) : Prop where
  session : OpenInv ts s.process C
  stamped : NamesOk sh s.process
  calls : ∀ x ∈ s.process.log, x.1 ∈ ts ∧ x.2.call.Named
  rings : RingsOk sh mem s.writer C names events
  offered : ∀ ev ∈ events, ∃ x ∈ s.process.log, x.2.offered = some ev

variable {w : RawEventWriter K} {C : ProfileContext K} {names : List K} {events : List ProfileEvent}

omit [DecidableEq K] in
theorem RingsOk.names_lt (h : RingsOk sh mem w C names events) : names.length < 2147483648 :=
  lt_of_le_of_lt h.table.length_le sh.capacity_int

/-- STEP: a name that is new and fits goes to the end of the table and of the string ring. -/
theorem RingsOk.mapString (h : RingsOk sh mem w C names events) {name : Option K}
    (hfits : ∀ ptr, name = some ptr → C.NameFits sh mem ptr) (hname : name ≠ none) :
    ∃ names', RingsOk sh mem w (C.mapStringToReference sh name).2 names' events ∧
      (C.mapStringToReference sh name).2.eventQueue = C.eventQueue := by
  obtain ⟨k, rfl⟩ := Option.ne_none_iff_exists'.mp hname
  rcases mapString_lists h.table k with ⟨-, hmap⟩ | ⟨-, hmap⟩ | ⟨hget, hput, S, hlists, hmap⟩
  · exact ⟨names, by rw [hmap]; exact h, by rw [hmap]⟩
  · exact ⟨names, by rw [hmap]; exact h, by rw [hmap]⟩
  · obtain ⟨hroom, htext⟩ := hfits k rfl hget hput
    refine ⟨names ++ [k], ?_, by rw [hmap]; rfl⟩
    rw [hmap]
    refine ⟨hlists, ?_, ?_⟩
    · intro k' hk'
      rcases List.mem_append.mp hk' with hold | hnew
      · exact h.texts k' hold
      · rwa [List.mem_singleton.mp hnew]
    · have hlen := hlists.length_le
      have hcap := sh.capacity_int
      rw [List.length_append, List.length_singleton] at hlen
      have hcons := h.writer.conserves.enqueueString
        (by simp only [queuedNames, List.length_mapIdx]; omega)
        (tryEnqueue_of_room (v := ⟨UInt32.ofNat names.length, k⟩) hroom)
      rw [← queuedNames_concat] at hcons
      exact ⟨hcons, h.writer.used_nonneg, h.writer.used_lt⟩

omit [DecidableEq K] in
/-- STEP: an offered event is accepted or refused. -/
theorem RingsOk.offer (h : RingsOk sh mem w C names events) (hN : C.eventQueue.front < 2147483647)
    (ev : Option ProfileEvent) :
    ∃ events', RingsOk sh mem w (C.offer ev) names events' ∧
      ∀ e ∈ events', e ∈ events ∨ ev = some e := by
  rcases ev with _ | e
  · exact ⟨events, h, fun _ => Or.inl⟩
  · have hcount : C.eventQueue.front = events.length := h.writer.conserves.eventCount
    have hcons := h.writer.conserves.offerEvent (by simp only; omega) e
    refine ⟨_, ⟨h.table, h.texts, hcons, h.writer.used_nonneg, h.writer.used_lt⟩, ?_⟩
    intro e' he'
    simp only at he'
    split at he'
    · rcases List.mem_append.mp he' with hold | hnew
      · exact Or.inl hold
      · exact Or.inr (congrArg some (List.mem_singleton.mp hnew).symm)
    · exact Or.inl he'

omit [DecidableEq K] in
/-- A thread's first call takes the next thread context and leaves the rest. -/
theorem threadInit_context {P P₁ : Process T K} {t : T} (h : P.espThreadInit t = some P₁)
    (hC : P.context = some C) : ∃ n, P₁.context = some { C with threadCount := n } := by
  rcases espThreadInit_cases h with ⟨-, rfl⟩ | ⟨-, D, hD, rfl⟩
  · exact ⟨C.threadCount, hC⟩
  · obtain rfl := Option.some.inj (hD.symm.trans hC)
    exact ⟨_, rfl⟩

omit [DecidableEq K] in
theorem passes_name {t : ThreadContext} {c : Call K} {name : Option K} (h : t.passes c = some name) :
    c ≠ .endZone ∧ c.name = name := by
  cases c with
  | zone zoneName =>
    obtain ⟨-, -, rfl⟩ := Option.map_eq_some_iff.mp h
    exact ⟨nofun, rfl⟩
  | endZone => cases h
  | sample probeName probe =>
    cases h
    exact ⟨nofun, rfl⟩

/-- STEP: the rings after a recording call whose name fits. -/
theorem RingsOk.record (h : RingsOk sh mem w C names events) (hN : C.eventQueue.front < 2147483647)
    (t : ThreadContext) (number : ℕ) (now : Int64) {c : Call K} (hc : c.Named)
    (hfits : ∀ ptr, t.passes c = some (some ptr) → C.NameFits sh mem ptr) :
    ∃ names' events', RingsOk sh mem w (t.record sh C number now c).context names' events' ∧
      ∀ e ∈ events', e ∈ events ∨ (t.record sh C number now c).entry.offered = some e := by
  rw [record_effects]
  rcases hpass : t.passes c with _ | name
  · exact ⟨names, h.offer hN _⟩
  · obtain ⟨hend, hname⟩ := passes_name hpass
    have hne : name ≠ none := by
      cases c with
      | endZone => exact absurd rfl hend
      | _ => exact hname ▸ hc
    have hid : RingsOk sh mem w C.nextEventID.2 names events := ⟨h.table, h.texts, h.writer⟩
    obtain ⟨names', hmap, hqueue⟩ := hid.mapString (fun ptr hptr => hfits ptr (hptr ▸ hpass)) hne
    exact ⟨names', hmap.offer (hqueue ▸ hN) _⟩

variable {ts : Finset T} {s s' : Recorder T K} {P' : Process T K}

/-- STEP: a recording call whose name fits. -/
theorem RecorderInv.record (h : RecorderInv sh mem ts s C names events)
    (hts : ts.card ≤ espMaxThreadCount) {t : T} (ht : t ∈ ts) {now : Int64} {c : Call K}
    (hc : c.Named) (hroom : Room sh mem s (.record t now c))
    (hs : s.process.espRecord sh t now c = some P') :
    ∃ C' names' events', RecorderInv sh mem ts { s with process := P' } C' names' events' := by
  obtain ⟨P₁, C₁, hinit, h₁, hlog, i, hi⟩ := h.session.threadInit ht
  obtain ⟨n, hC₁⟩ := threadInit_context hinit h.session.context
  obtain rfl := Option.some.inj (h₁.context.symm.trans hC₁)
  have hlt : i < espMaxThreadCount :=
    lt_of_lt_of_le (lt_of_lt_of_le (h₁.bound t ht _ hi).2 h₁.count_le) hts
  rw [espRecord_init sh h.session.paused hinit h₁.context hi hlt now c] at hs
  obtain ⟨C', hC'⟩ := h₁.recordBound sh ht hi now c
  obtain rfl := Option.some.inj hs
  have hstamped := namesOk_step (a := .record t now c) h.stamped
    (espRecord_init sh h.session.paused hinit h₁.context hi hlt now c)
  obtain ⟨-, -, hcall, -⟩ := record_entry sh (C.threadContexts i) { C with threadCount := n }
    P₁.log.length now c
  have h₀ : RingsOk sh mem s.writer { C with threadCount := n } names events :=
    ⟨h.rings.table, h.rings.texts, h.rings.writer⟩
  obtain ⟨names', events', hrings, hnew⟩ := h₀.record (hroom.events C h.session.context)
    (C.threadContexts i) P₁.log.length now hc
    fun ptr hptr => hroom.name t now c P₁ _ i ptr rfl hinit h₁.context hi hptr
  have hentry : ∀ x, x ∈ (P₁.recordIn sh { C with threadCount := n } t i now c).log ↔
      x ∈ s.process.log ∨ x = (t, ((C.threadContexts i).record sh { C with threadCount := n }
        P₁.log.length now c).entry) := by
    intro x
    rw [Process.recordIn, List.mem_append, List.mem_singleton, hlog]
  refine ⟨C', names', events', hC', hstamped, ?_, ?_, ?_⟩
  · intro x hx
    rcases (hentry x).mp hx with hold | rfl
    · exact h.calls x hold
    · exact ⟨ht, (congrArg Call.Named hcall).mpr hc⟩
  · obtain rfl := Option.some.inj hC'.context
    exact ⟨hrings.table, hrings.texts, hrings.writer⟩
  · intro e he
    rcases hnew e he with hold | hoff
    · obtain ⟨x, hx, hxe⟩ := h.offered e hold
      exact ⟨x, (hentry x).mpr (Or.inl hx), hxe⟩
    · exact ⟨_, (hentry _).mpr (Or.inr rfl), hoff⟩

omit [DecidableEq K] [DecidableEq T] in
/-- INVERSION: what the drain thread does is done on the rings of the context. -/
theorem consume_some {f : RawEventWriter K → Option (RawEventWriter K)}
    (hC : s.process.context = some C) (hs : s.consume f = some s') :
    ∃ w', f (onRings s.writer C) = some w' ∧ s' =
      ⟨{ s.process with
          context := some { C with eventQueue := w'.contextQueue, stringQueue := w'.stringQueue } },
        w'⟩ := by
  rw [Recorder.consume, hC, Option.bind_some] at hs
  obtain ⟨w', hw, rfl⟩ := Option.map_eq_some_iff.mp hs
  exact ⟨w', hw, rfl⟩

/-- What the drain thread does leaves the calls alone. -/
theorem RecorderInv.consume (h : RecorderInv sh mem ts s C names events) {w' : RawEventWriter K}
    (hw : SessionInv mem ⟨w', events, queuedNames names⟩) :
    RecorderInv sh mem ts
      ⟨{ s.process with
          context := some { C with eventQueue := w'.contextQueue, stringQueue := w'.stringQueue } },
        w'⟩ { C with eventQueue := w'.contextQueue, stringQueue := w'.stringQueue } names events where
  session := h.session.keep ⟨rfl, rfl, rfl⟩
  stamped := h.stamped.same (by rw [Process.strings, Process.strings, h.session.context]; rfl) rfl
  calls := h.calls
  rings := ⟨h.rings.table, h.rings.texts, hw⟩
  offered := h.offered

omit [DecidableEq K] in
theorem RingsOk.queued_lt (h : RingsOk sh mem w C names events)
    (hcap : sh.capacity = espStringTableSize) : (queuedNames names).length < 2147483647 := by
  have hlen := h.table.length_le
  rw [hcap] at hlen
  rw [queuedNames, List.length_mapIdx]
  exact lt_of_le_of_lt hlen (by decide)

/-- STEP: a pass of the drain thread. -/
theorem RecorderInv.drain (h : RecorderInv sh mem ts s C names events)
    (hcap : sh.capacity = espStringTableSize) {fuel : ℕ} (hroom : Room sh mem s .drain)
    (hs : (s.consume fun w => w.drain mem disk fuel) = some s') :
    ∃ C', RecorderInv sh mem ts s' C' names events := by
  obtain ⟨w', hw, rfl⟩ := consume_some h.session.context hs
  have hinv := h.rings.writer
  have hcount : C.eventQueue.front = events.length := hinv.conserves.eventCount
  have hfront := hroom.events C h.session.context
  obtain ⟨hcons, hpos, hlt⟩ := hinv.conserves.drain hinv.used_nonneg hinv.used_lt
    (by simp only; omega) (h.rings.queued_lt hcap) hw
  exact ⟨_, h.consume ⟨hcons, hpos, hlt⟩⟩

theorem RecorderInv.step (h : RecorderInv sh mem ts s C names events)
    (hcap : sh.capacity = espStringTableSize) (hts : ts.card ≤ espMaxThreadCount) {fuel : ℕ}
    {a : RecorderAction T K} (ha : ∀ t now c, a = .record t now c → t ∈ ts ∧ c.Named)
    (hroom : Room sh mem s a) (hs : s.step sh mem disk fuel a = some s') :
    ∃ C' names' events', RecorderInv sh mem ts s' C' names' events' := by
  cases a with
  | record t now c =>
    obtain ⟨ht, hc⟩ := ha t now c rfl
    obtain ⟨P', hP', rfl⟩ := Option.map_eq_some_iff.mp hs
    exact h.record hts ht hc hroom hP'
  | drain =>
    obtain ⟨C', h'⟩ := h.drain hcap hroom hs
    exact ⟨C', names, events, h'⟩

/-- RUN: while every new name fits, the string ring is given the names of the table in order. -/
theorem recorderInv_run (hcap : sh.capacity = espStringTableSize)
    (hts : ts.card ≤ espMaxThreadCount) {fuel : ℕ} {as : List (RecorderAction T K)}
    (has : ∀ t now c, .record t now c ∈ as → t ∈ ts ∧ c.Named)
    (h : RecorderInv sh mem ts s C names events)
    (hroom : Meets (Recorder.step sh mem disk fuel) (Room sh mem) s as)
    (hr : run (Recorder.step sh mem disk fuel) s as = some s') :
    ∃ C' names' events', RecorderInv sh mem ts s' C' names' events' := by
  induction as generalizing s C names events with
  | nil =>
    obtain rfl := Option.some.inj hr
    exact ⟨C, names, events, h⟩
  | cons a as ih =>
    obtain ⟨s₁, hs, hr⟩ := run_cons_some.mp hr
    obtain ⟨ha, hroom⟩ := (meets_cons hs).mp hroom
    obtain ⟨C₁, names₁, events₁, h₁⟩ := h.step hcap hts
      (fun t now c hac => has t now c (hac ▸ List.mem_cons_self)) ha hs
    exact ih (fun t now c hm => has t now c (List.mem_cons_of_mem a hm)) h₁ hroom hr

/-! ### Every run returns -/

theorem step_mono {m n : ℕ} (hmn : m ≤ n) {a : RecorderAction T K}
    (hs : s.step sh mem disk m a = some s') : s.step sh mem disk n a = some s' := by
  cases a with
  | record t now c => exact hs
  | drain =>
    obtain ⟨C, hC, hdone⟩ := Option.bind_eq_some_iff.mp hs
    obtain ⟨w, hw, rfl⟩ := Option.map_eq_some_iff.mp hdone
    exact Option.bind_eq_some_iff.mpr
      ⟨C, hC, Option.map_eq_some_iff.mpr ⟨w, Writer.drain_mono hmn hw, rfl⟩⟩

theorem run_step_mono {m n : ℕ} (hmn : m ≤ n) {as : List (RecorderAction T K)}
    (hr : run (Recorder.step sh mem disk m) s as = some s') :
    run (Recorder.step sh mem disk n) s as = some s' := by
  induction as generalizing s with
  | nil => exact hr
  | cons a as ih =>
    obtain ⟨t, hs, hr⟩ := run_cons_some.mp hr
    exact run_cons_some.mpr ⟨t, step_mono hmn hs, ih hr⟩

variable (sh mem) in
/-- RETURNS: every step returns. -/
theorem step_returns (hdisk : ∀ n, ∃ m, n ≤ m ∧ 0 < disk m) (hts : ts.card ≤ espMaxThreadCount)
    (h : OpenInv ts s.process C) {a : RecorderAction T K}
    (ha : ∀ t now c, a = .record t now c → t ∈ ts) :
    ∃ n s' C', s.step sh mem disk n a = some s' ∧ OpenInv ts s'.process C' := by
  cases a with
  | record t now c =>
    obtain ⟨P', C', hs, h', -⟩ := @OpenInv.record T K _ sh _ _ _ _ h hts t (ha t now c rfl) now c
    exact ⟨0, _, C', Option.map_eq_some_iff.mpr ⟨P', hs, rfl⟩, h'⟩
  | drain =>
    obtain ⟨n, w, hw⟩ := Writer.drain_returns mem hdisk (onRings s.writer C)
    refine ⟨n, ⟨{ s.process with context := some { C with
      eventQueue := w.contextQueue, stringQueue := w.stringQueue } }, w⟩, _, ?_,
      h.keep ⟨rfl, rfl, rfl⟩⟩
    exact Option.bind_eq_some_iff.mpr ⟨C, h.context, Option.map_eq_some_iff.mpr ⟨w, hw, rfl⟩⟩

variable (sh mem) in
theorem run_step_returns (hdisk : ∀ n, ∃ m, n ≤ m ∧ 0 < disk m) (hts : ts.card ≤ espMaxThreadCount)
    {as : List (RecorderAction T K)} (has : ∀ t now c, .record t now c ∈ as → t ∈ ts)
    (h : OpenInv ts s.process C) :
    ∃ n s' C', run (Recorder.step sh mem disk n) s as = some s' ∧ OpenInv ts s'.process C' := by
  induction as generalizing s C with
  | nil => exact ⟨0, s, C, rfl, h⟩
  | cons a as ih =>
    obtain ⟨m, s₁, C₁, hs, h₁⟩ := step_returns sh mem hdisk hts h
      fun t now c hac => has t now c (hac ▸ List.mem_cons_self)
    obtain ⟨n, s', C', hr, h'⟩ := ih (fun t now c hm => has t now c (List.mem_cons_of_mem a hm)) h₁
    exact ⟨max m n, s', C', run_cons_some.mpr ⟨s₁, step_mono (le_max_left m n) hs,
      run_step_mono (le_max_right m n) hr⟩, h'⟩

/-! ### The name of an event -/

/-- The entry `o` is the `esp_zone` numbered `n`, and `ref` is the reference it stamped. -/
def OpensWith (n : ℕ) (ref : UInt32) (o : Entry K) : Prop :=
  o.number = n ∧ ∃ name σ, o.call = .zone name ∧ o.stamp = some σ ∧ σ.nameRef = ref

/-- The entry `e` stamped `ref` itself, or closes a zone that was on the stack `st` or is opened in
    `es` with it. -/
def NamedBy (st : List OpenZone) (es : List (Entry K)) (e : Entry K) (ref : UInt32) : Prop :=
  (e.closed = none ∧ ∃ name probe σ, e.call = .sample name probe ∧ e.stamp = some σ ∧
      σ.nameRef = ref) ∨
    e.call = .endZone ∧ ∃ n, e.closed = some n ∧
      ((∃ z ∈ st, z.number = n ∧ z.event.data.eventNameRef = ref) ∨ ∃ o ∈ es, OpensWith n ref o)

omit [DecidableEq K] in
/-- RUN: an offered event has the reference stamped by its sample, or by the `esp_zone` of the zone it
    closes. -/
theorem localRun_named {cap i : ℕ} {st st' : List OpenZone} {es : List (Entry K)}
    (hr : LocalRun cap i st es st') :
    ∀ e ∈ es, ∀ ev, e.offered = some ev → NamedBy st es e ev.data.eventNameRef := by
  induction hr with
  | nil st =>
    intro e he
    cases he
  | @cons st st₁ st₂ e es hs hr ih =>
    intro e' he' ev hev
    rcases List.mem_cons.mp he' with rfl | hmem
    · cases hs with
      | zone frame hlt => cases hev
      | overflow hfull => cases hev
      | @close z _ n now =>
        cases hev
        exact Or.inr ⟨rfl, z.number, rfl, Or.inl ⟨z, List.mem_cons_self, rfl, rfl⟩⟩
      | stray => cases hev
      | @sample _ n now name probe σ frame =>
        cases hev
        exact Or.inl ⟨rfl, name, probe, σ, rfl, rfl, rfl⟩
    · rcases ih e' hmem ev hev with hsample | ⟨hcall, n, hclosed, hopen⟩
      · exact Or.inl hsample
      · refine Or.inr ⟨hcall, n, hclosed, ?_⟩
        rcases hopen with ⟨z, hz, hnum, href⟩ | ⟨o, ho, hopens⟩
        · cases hs with
          | @zone _ m now name σ frame hlt =>
            rcases List.mem_cons.mp hz with rfl | hz
            · exact Or.inr ⟨_, List.mem_cons_self, hnum, name, σ, rfl, rfl, href⟩
            · exact Or.inl ⟨z, hz, hnum, href⟩
          | overflow hfull => exact Or.inl ⟨z, hz, hnum, href⟩
          | close => exact Or.inl ⟨z, List.mem_cons_of_mem _ hz, hnum, href⟩
          | stray => cases hz
          | sample frame => exact Or.inl ⟨z, hz, hnum, href⟩
        · exact Or.inr ⟨o, List.mem_cons_of_mem _ ho, hopens⟩

omit [DecidableEq K] in
theorem mem_logOf {P : Process T K} {t : T} {e : Entry K} : e ∈ P.logOf t ↔ (t, e) ∈ P.log := by
  rw [Process.logOf, List.mem_filterMap]
  constructor
  · rintro ⟨⟨u, e'⟩, hx, hxe⟩
    split_ifs at hxe with hu
    cases hxe
    exact hu ▸ hx
  · intro hx
    exact ⟨(t, e), hx, if_pos rfl⟩

theorem RecorderInv.namedBy (h : RecorderInv sh mem ts s C names events) {x : T × Entry K}
    (hx : x ∈ s.process.log) {ev : ProfileEvent} (hev : x.2.offered = some ev) :
    NamedBy [] (s.process.logOf x.1) x.2 ev.data.eventNameRef := by
  obtain ⟨i, st, hrun⟩ := h.session.localRun (h.calls x hx).1
  exact localRun_named hrun x.2 (mem_logOf.mpr hx) ev hev

/-- Every accepted event was recorded with a name. -/
theorem RecorderInv.recordedWith (h : RecorderInv sh mem ts s C names events) {x : T × Entry K}
    (hx : x ∈ s.process.log) {ev : ProfileEvent} (hev : x.2.offered = some ev) :
    ∃ ptr, RecordedWith s.process.log ev ptr := by
  rcases h.namedBy hx hev with ⟨-, name, probe, σ, hcall, -⟩ | ⟨-, n, hclosed, hopen⟩
  · have hnamed := (h.calls x hx).2
    rw [hcall] at hnamed
    obtain ⟨ptr, rfl⟩ := Option.ne_none_iff_exists'.mp hnamed
    exact ⟨ptr, x, hx, hev, Or.inl ⟨probe, hcall⟩⟩
  · rcases hopen with ⟨z, hz, -⟩ | ⟨o, ho, hnum, name, σ, hcall, -⟩
    · cases hz
    · have hmem := mem_logOf.mp ho
      have hnamed := (h.calls _ hmem).2
      rw [hcall] at hnamed
      obtain ⟨ptr, rfl⟩ := Option.ne_none_iff_exists'.mp hnamed
      exact ⟨ptr, x, hx, hev, Or.inr ⟨_, hmem, by rw [hclosed, hnum], hcall⟩⟩

/-- The reference of an event is that of the pointer it was recorded with. -/
theorem RecorderInv.refOf (h : RecorderInv sh mem ts s C names events) {ev : ProfileEvent} {ptr : K}
    (hptr : RecordedWith s.process.log ev ptr) :
    RefOf sh C.strings (some ptr) ev.data.eventNameRef := by
  have hstr : s.process.strings = some C.strings := congrArg (Option.map _) h.session.context
  obtain ⟨x, hx, hev, hname⟩ := hptr
  rcases h.namedBy hx hev with ⟨hnone, name, probe, σ, hcall, hσ, href⟩ | ⟨hend, n, hclosed, hopen⟩
  · rcases hname with ⟨probe', hcall'⟩ | ⟨o, -, hclosed, -⟩
    · have hnames := h.stamped C.strings hstr x hx σ hσ
      rwa [hcall', href] at hnames
    · rw [hnone] at hclosed
      cases hclosed
  · rcases hname with ⟨probe', hcall'⟩ | ⟨o, ho, hclosed', hcall'⟩
    · rw [hend] at hcall'
      cases hcall'
    · rcases hopen with ⟨z, hz, -⟩ | ⟨o', ho', hnum, name, σ, hcall, hσ, href⟩
      · cases hz
      · have hmem := mem_logOf.mp ho'
        have heq : o.2.number = o'.number := by
          rw [hnum]
          exact Option.some.inj (hclosed'.symm.trans hclosed)
        have hnd : (s.process.log.map fun x => x.2.number).Nodup :=
          h.session.numbers ▸ List.nodup_range
        obtain rfl := List.inj_on_of_nodup_map hnd ho hmem heq
        have hnames := h.stamped C.strings hstr _ hmem σ hσ
        rw [href] at hnames
        rwa [hcall'] at hnames

/-! ### The file -/

/-- Where the keys are all different, an entry is the only one with its key. -/
theorem filter_key {α β : Type} [DecidableEq β] {key : α → β} {l : List α} (h : (l.map key).Nodup)
    {a : α} (ha : a ∈ l) : (l.filter fun x => key x == key a) = [a] := by
  induction l with
  | nil => cases ha
  | cons b l ih =>
    obtain ⟨hb, hl⟩ := List.nodup_cons.mp h
    rcases List.mem_cons.mp ha with rfl | ha
    · simp only [List.filter_cons, beq_self_eq_true, if_true, List.cons.injEq, true_and,
        List.filter_eq_nil_iff]
      intro x hx hkey
      exact hb (beq_iff_eq.mp hkey ▸ List.mem_map_of_mem hx)
    · have hne : ¬ (key b == key a) = true := fun hkey =>
        hb (beq_iff_eq.mp hkey ▸ List.mem_map_of_mem ha)
      simp only [List.filter_cons, if_neg hne]
      exact ih hl ha

theorem filter_stringsOf (file : List Record) (id : UInt32) :
    file.filter (namesId id) = (stringsOf file).filter (namesId id) := by
  induction file with
  | nil => rfl
  | cons r file ih =>
    rcases r with ev | ⟨i, text⟩
    · exact ih
    · show _ = (Record.string i text :: stringsOf file).filter _
      rw [List.filter_cons, List.filter_cons, ih]

omit [DecidableEq K] in
theorem queuedNames_ids (names : List K) (h : names.length < 2147483648) :
    ((queuedNames names).map RuntimeStringReference.id).Nodup := by
  have hids : (queuedNames names).map RuntimeStringReference.id =
      (List.range names.length).map UInt32.ofNat := by
    apply List.ext_getElem (by simp [queuedNames])
    intro i hi hi'
    simp [queuedNames]
  rw [hids]
  refine List.Nodup.map_on ?_ List.nodup_range
  intro i hi j hj hij
  exact ofNat_inj ((List.mem_range.mp hi).trans h) ((List.mem_range.mp hj).trans h) hij

omit [DecidableEq K] in
/-- The string records of a flushed file are those of the names, each once. -/
theorem filter_queuedNames {file : List Record}
    (hfile : stringsOf file = (queuedNames names).map (stored mem))
    (hlen : names.length < 2147483648) {i : ℕ} {k : K} (hi : names[i]? = some k)
    (htext : (mem k).length < 2 ^ 32) :
    file.filter (namesId (UInt32.ofNat i)) = [.string (UInt32.ofNat i) (mem k)] := by
  have hmem : (⟨UInt32.ofNat i, k⟩ : RuntimeStringReference K) ∈ queuedNames names := by
    refine List.mem_of_getElem? (i := i) ?_
    rw [queuedNames, List.getElem?_mapIdx, hi, Option.map_some]
  have hone := filter_key (queuedNames_ids names hlen) hmem
  rw [filter_stringsOf, hfile, List.filter_map]
  refine (congrArg (List.map (stored mem)) hone).trans ?_
  rw [List.map_singleton, stored, Nat.mod_eq_of_lt htext, List.take_length]

/-- After the last `Flush` every name of an event in the file is resolved by the file. -/
theorem RecorderInv.resolvable (h : RecorderInv sh mem ts s C names events)
    (hcap : sh.capacity = espStringTableSize) {fuel : ℕ}
    (hs : s.finish mem disk fuel = some s') : Resolvable mem s' := by
  obtain ⟨w', hw, rfl⟩ := consume_some h.session.context hs
  have hinv := h.rings.writer
  obtain ⟨hcons, hused, hempty⟩ := hinv.conserves.flush hinv.used_nonneg (h.rings.queued_lt hcap) hw
  have hstrings := hcons.strings_eq
  rw [hempty, List.map_nil, List.append_nil] at hstrings
  intro ev hev href
  have hevents : _ = events := hcons.events_eq
  have hmem : ev ∈ events := by
    rw [← hevents, List.append_assoc]
    exact List.mem_append_left _ hev
  obtain ⟨x, hx, hxe⟩ := h.offered ev hmem
  refine ⟨h.recordedWith hx hxe, ?_⟩
  intro ptr hptr
  rcases h.refOf hptr ptr rfl with herr | ⟨hidx, hget⟩
  · exact absurd herr href
  · rw [← hget] at hidx
    obtain ⟨i, hi, hik⟩ := List.mem_iff_getElem.mp (h.rings.table.isIndex_get.mp hidx)
    have hplace : names[i]? = some ptr := List.getElem?_eq_some_iff.mpr ⟨hi, hik⟩
    rw [h.rings.table.get_of_getElem? hplace] at hget
    rw [← hget]
    exact filter_queuedNames hstrings h.rings.names_lt hplace
      (h.rings.texts ptr (List.mem_of_getElem? hplace))

theorem recorderInv_new {main : T} (hmain : main ∈ ts) (junk : Junk K)
    (buffer : ℤ → ProfileEvent) :
    ∃ P C, Process.start.espInit junk main = some P ∧
      RecorderInv sh mem ts (Recorder.new P junk buffer) C [] [] := by
  obtain ⟨P, C, hinit, h, hlog⟩ := openInv_espInit (P := Process.start) hmain rfl (fun _ _ => rfl) junk
  refine ⟨P, C, hinit, h, namesOk_nil hlog, ?_, ?_, ?_⟩
  · intro x hx
    have hx' : x ∈ P.log := hx
    rw [hlog] at hx'
    cases hx'
  · have hC := h.context
    obtain rfl := Option.some.inj hinit
    obtain rfl := Option.some.inj hC
    exact ⟨lists_new sh, nofun, Writer.sessionInv_new junk.events junk.strings buffer⟩
  · intro ev hev
    cases hev

/-- CORRECT: every session returns, and where every new name finds room in the string ring, every name
    in the file is resolved by the file. -/
theorem resolvable_run (hcap : sh.capacity = espStringTableSize)
    (hdisk : ∀ n, ∃ m, n ≤ m ∧ 0 < disk m) (hts : ts.card ≤ espMaxThreadCount) {main : T}
    (hmain : main ∈ ts) {as : List (RecorderAction T K)}
    (has : ∀ t now c, .record t now c ∈ as → t ∈ ts ∧ c.Named) (junk : Junk K)
    (buffer : ℤ → ProfileEvent) :
    ∃ P, Process.start.espInit junk main = some P ∧
      (∃ fuel s s', run (Recorder.step sh mem disk fuel) (Recorder.new P junk buffer) as = some s ∧
        s.finish mem disk fuel = some s') ∧
      ∀ fuel s s', run (Recorder.step sh mem disk fuel) (Recorder.new P junk buffer) as = some s →
        s.finish mem disk fuel = some s' →
        Meets (Recorder.step sh mem disk fuel) (Room sh mem) (Recorder.new P junk buffer) as →
        Resolvable mem s' := by
  obtain ⟨P, C, hinit, h⟩ := @recorderInv_new T K _ _ sh mem ts main hmain junk buffer
  refine ⟨P, hinit, ?_, ?_⟩
  · obtain ⟨m, s, C', hr, h'⟩ := run_step_returns sh mem hdisk hts
      (fun t now c hm => (has t now c hm).1) h.session
    obtain ⟨n, w, hw⟩ := Writer.flush_returns mem hdisk (onRings s.writer C')
    exact ⟨max m n, s, _, run_step_mono (le_max_left m n) hr, Option.bind_eq_some_iff.mpr
      ⟨C', h'.context, Option.map_eq_some_iff.mpr
        ⟨w, Writer.flush_mono (le_max_right m n) hw, rfl⟩⟩⟩
  · intro fuel s s' hr hs hroom
    obtain ⟨C', names', events', h'⟩ := recorderInv_run hcap hts has h hroom hr
    exact h'.resolvable hcap hs

/-- The bytes of every name, in most runs on fixed inputs. -/
def oneLetter : Addr → List UInt8 := fun _ => [120]

/-- A disk that takes 64 events at a time. -/
def steady : ℕ → ℕ := fun _ => 64

/-- A zone of one thread and a sample of another under a second name, and a pass of the drain
    thread. -/
def zoneAndSample : List (RecorderAction Bool Addr) :=
  [.record true 10 (.zone (some zoneName)), .record false 11 (.sample (some probeName) (.int 7)),
    .record true 12 .endZone, .drain]

/-- The session opened by the thread `true`. -/
def openedByTrue : Process Bool Addr :=
  (Process.start.espInit (Junk.zero zoneName) true).getD Process.start

/-- Both events are in the file, and both names. -/
theorem resolvable_run_zoneAndSample : ∃ s s',
    Process.start.espInit (Junk.zero zoneName) true = some openedByTrue ∧
      run (Recorder.step espStrings oneLetter steady 3)
        (Recorder.new openedByTrue (Junk.zero zoneName) fun _ => Writer.tick 0) zoneAndSample = some s ∧
      s.finish oneLetter steady 3 = some s' ∧
      (eventsOf s'.writer.outputFile).map (fun ev => ev.data.eventNameRef) = [1, 0] ∧
      stringsOf s'.writer.outputFile = [.string 0 [120], .string 1 [120]] ∧
      Resolvable oneLetter s' := by
  obtain ⟨P, hinit, -, hall⟩ := @resolvable_run Bool Addr _ _ espStrings oneLetter steady
    Finset.univ rfl (fun n => ⟨n, le_refl n, Nat.succ_pos 63⟩) (by decide) true (Finset.mem_univ _)
    zoneAndSample (by
      intro t now c h
      refine ⟨Finset.mem_univ t, ?_⟩
      simp only [zoneAndSample, List.mem_cons, reduceCtorEq, RecorderAction.record.injEq,
        List.not_mem_nil, or_false] at h
      rcases h with ⟨-, -, rfl⟩ | ⟨-, -, rfl⟩ | ⟨-, -, rfl⟩
      · exact Option.some_ne_none _
      · exact Option.some_ne_none _
      · trivial)
    (Junk.zero zoneName) fun _ => Writer.tick 0
  obtain rfl : openedByTrue = P := by
    rw [openedByTrue, hinit]
    rfl
  have hfile : ((run (Recorder.step espStrings oneLetter steady 3)
      (Recorder.new openedByTrue (Junk.zero zoneName) fun _ => Writer.tick 0) zoneAndSample).bind
        fun s => s.finish oneLetter steady 3).map (fun s =>
          ((eventsOf s.writer.outputFile).map fun ev => ev.data.eventNameRef,
            stringsOf s.writer.outputFile)) =
      some ([1, 0], [.string 0 [120], .string 1 [120]]) := by
    decide +kernel
  obtain ⟨s', hs', hnames⟩ := Option.map_eq_some_iff.mp hfile
  obtain ⟨s, hr, hs⟩ := Option.bind_eq_some_iff.mp hs'
  obtain ⟨hrefs, hstrings⟩ := Prod.mk.inj hnames
  exact ⟨s, s', hinit, hr, hs, hrefs, hstrings, hall 3 s s' hr hs (by decide +kernel)⟩

/-! ### A session that passes more names than the string ring holds -/

/-- A sample of a new name, in a table with a free slot. -/
theorem record_sample_new {k : K} (h : Lists sh C.strings names) (hk : k ∉ names)
    (hfree : names.length < sh.capacity) (t : ThreadContext) (number : ℕ) (now : Int64)
    (probe : Probe) : ∃ S ev, Lists sh S (names ++ [k]) ∧
      ev.data.eventNameRef = UInt32.ofNat names.length ∧
      (t.record sh C number now (.sample (some k) probe)).entry.offered = some ev ∧
      (t.record sh C number now (.sample (some k) probe)).context =
        ({ C.nextEventID.2 with strings := S }.offerString
          ⟨UInt32.ofNat names.length, k⟩).offerEvent ev := by
  have hid : Lists sh C.nextEventID.2.strings names := h
  rcases mapString_lists hid k with ⟨hmem, -⟩ | ⟨hfull, -⟩ | ⟨-, -, S, hS, hmap⟩
  · exact absurd hmem hk
  · exact absurd hfree (not_lt.mpr (hid.length_of_full hfull))
  · refine ⟨S, _, hS, ?_, rfl, ?_⟩
    · simp only [ThreadContext.stampEvent, hmap]
    · simp only [ThreadContext.record, ThreadContext.sample, ThreadContext.stampEvent, hmap]

/-- The `k`-th of 4096 pointers. -/
def nthName (k : ℕ) : Addr := ⟨UInt64.ofNat (k % 4096 + 1), by
  intro h
  have := congrArg UInt64.toNat h
  rw [UInt64.toNat_ofNat_of_lt' (by rw [UInt64.size]; omega)] at this
  exact absurd this (Nat.succ_ne_zero _)⟩

def firstNames (n : ℕ) : List Addr := (List.range n).map nthName

theorem nthName_notMem {n : ℕ} (hn : n < 4096) : nthName n ∉ firstNames n := by
  intro hmem
  obtain ⟨k, hk, heq⟩ := List.mem_map.mp hmem
  have hlt := List.mem_range.mp hk
  have hval := congrArg (fun a : Addr => a.val.toNat) heq
  simp only [nthName] at hval
  rw [UInt64.toNat_ofNat_of_lt' (by rw [UInt64.size]; omega),
    UInt64.toNat_ofNat_of_lt' (by rw [UInt64.size]; omega)] at hval
  omega

theorem firstNames_succ (n : ℕ) : firstNames (n + 1) = firstNames n ++ [nthName n] := by
  rw [firstNames, List.range_succ, List.map_append]
  rfl

theorem length_firstNames (n : ℕ) : (firstNames n).length = n := by
  rw [firstNames, List.length_map, List.length_range]

def sampleNth (n : ℕ) : Call Addr := .sample (some (nthName n)) (.int 0)

/-- INVARIANT: `n` samples of the first names, and no pass of the drain thread yet. -/
structure Filling (n : ℕ) (s : Recorder Unit Addr) (C : ProfileContext Addr)
    (events : List ProfileEvent) : Prop where
  session : OpenInv {()} s.process C
  table : Lists espStrings C.strings (firstNames n)
  conserves : Conserves oneLetter (onRings s.writer C) 0 0 events
    (queuedNames (firstNames (min n 4095)))
  file : s.writer.outputFile = []
  used : s.writer.writeBufferUsed = 0
  count : events.length = n
  last : ∀ m, n = m + 1 → ∃ ev ∈ events, ev.data.eventNameRef = UInt32.ofNat m ∧
    ∃ x ∈ s.process.log, x.2.offered = some ev ∧ x.2.call = sampleNth m

variable {n : ℕ} {s : Recorder Unit Addr} {C : ProfileContext Addr} {events : List ProfileEvent}

/-- The string ring has taken all names so far, and has no room for the last one. -/
theorem Filling.offerString (h : Filling n s C events) (hn : n < 4096) :
    Conserves oneLetter (onRings s.writer (C.offerString ⟨UInt32.ofNat n, nthName n⟩)) 0 0 events
      (queuedNames (firstNames (min (n + 1) 4095))) := by
  have hring : Holds stringQueueCapacity C.stringQueue
    (C.stringQueue.contents stringQueueCapacity) := h.conserves.stringRing
  have hcount : C.stringQueue.front = _ := h.conserves.stringCount
  have heq : stringsOf s.writer.outputFile ++
    (C.stringQueue.contents stringQueueCapacity).map (stored oneLetter) = _ := h.conserves.strings_eq
  have hqueued : (queuedNames (firstNames (min n 4095))).length = min n 4095 := by
    rw [queuedNames, List.length_mapIdx, length_firstNames]
  have hlen := congrArg List.length heq
  rw [h.file, stringsOf, List.filterMap_nil, List.nil_append, List.length_map, List.length_map,
    hqueued] at hlen
  rw [hqueued] at hcount
  have hroom := tryEnqueue_accepts hring (by omega)
    (⟨UInt32.ofNat n, nthName n⟩ : RuntimeStringReference Addr)
  rw [hlen, stringQueueCapacity] at hroom
  rcases Nat.lt_or_ge n 4095 with hlt | hge
  · have hcons := h.conserves.enqueueString (by omega) (hroom.mpr (by omega))
    have hnames : queuedNames (firstNames (min (n + 1) 4095)) =
        queuedNames (firstNames (min n 4095)) ++ [⟨UInt32.ofNat n, nthName n⟩] := by
      rw [min_eq_left (by omega : n + 1 ≤ 4095), min_eq_left hlt.le, firstNames_succ,
        queuedNames_concat, length_firstNames]
    rw [hnames]
    exact hcons
  · have hrefused : (C.stringQueue.tryEnqueue stringQueueCapacity
        ⟨UInt32.ofNat n, nthName n⟩).1 = false := by
      rw [Bool.eq_false_iff]
      exact fun ha => absurd (hroom.mp ha) (by omega)
    rw [min_eq_right (by omega : 4095 ≤ n + 1), ← min_eq_right hge, ProfileContext.offerString,
      tryEnqueue_refused hrefused]
    exact h.conserves

/-- STEP: one more sample; its name finds room in the string ring unless it is the last. -/
theorem Filling.sample (h : Filling n s C events) (hn : n < 4096) :
    ∃ s' C' events', Recorder.step espStrings oneLetter steady 0 s (.record () 0 (sampleNth n)) =
      some s' ∧ Filling (n + 1) s' C' events' := by
  obtain ⟨P₁, C₁, hinit, h₁, hlog, i, hi⟩ := h.session.threadInit (Finset.mem_singleton_self ())
  obtain ⟨m, hC₁⟩ := threadInit_context hinit h.session.context
  obtain rfl := Option.some.inj (h₁.context.symm.trans hC₁)
  have hlt : i < espMaxThreadCount :=
    lt_of_lt_of_le (lt_of_lt_of_le (h₁.bound () (Finset.mem_singleton_self ()) _ hi).2 h₁.count_le)
      (by decide)
  have hrec := espRecord_init espStrings h.session.paused hinit h₁.context hi hlt 0
    (sampleNth n)
  obtain ⟨C', hC'⟩ := h₁.recordBound espStrings (Finset.mem_singleton_self ()) hi 0 (sampleNth n)
  have htable : Lists espStrings { C with threadCount := m }.strings (firstNames n) := h.table
  obtain ⟨S, ev, hS, href, hoff, hcontext⟩ := record_sample_new htable (nthName_notMem hn)
    (by rw [length_firstNames]; exact hn.trans (by decide)) (C.threadContexts i) P₁.log.length 0
    (.int 0)
  rw [length_firstNames] at href hcontext
  rw [← firstNames_succ] at hS
  have hcons := h.offerString hn
  have hring : Holds espMaxEventBuffer C.eventQueue (C.eventQueue.contents espMaxEventBuffer) :=
    h.conserves.eventRing
  have hcount : C.eventQueue.front = _ := h.conserves.eventCount
  have heq : eventsOf s.writer.outputFile ++ [] ++ C.eventQueue.contents espMaxEventBuffer = events :=
    h.conserves.events_eq
  rw [h.file, eventsOf, List.filterMap_nil, List.nil_append, List.nil_append] at heq
  have haccept := (tryEnqueue_accepts hring (by rw [hcount, h.count]; omega) ev).mpr (by
    rw [heq, h.count, espMaxEventBuffer]
    omega)
  have hevent := hcons.enqueueEvent (by rw [h.count]; omega) haccept
  generalize hgot : (C.threadContexts i).record espStrings { C with threadCount := m } P₁.log.length 0
    (.sample (some (nthName n)) (.int 0)) = got at hcontext hoff
  have hafter : P₁.recordIn espStrings { C with threadCount := m } () i 0 (sampleNth n) =
      { P₁ with
        context := some { got.context with
          threadContexts := Function.update got.context.threadContexts i got.thread }
        log := P₁.log ++ [((), got.entry)] } := by
    rw [← hgot]
    rfl
  have hcall : got.entry.call = sampleNth n := by
    rw [← hgot]
    rfl
  rw [hafter] at hrec hC'
  obtain rfl := Option.some.inj hC'.context
  refine ⟨⟨_, s.writer⟩, _, events ++ [ev], Option.map_eq_some_iff.mpr ⟨_, hrec, rfl⟩, hC', ?_, ?_,
    h.file, h.used, ?_, ?_⟩
  · have htable' : Lists espStrings got.context.strings (firstNames (n + 1)) := by
      rw [hcontext]
      exact hS
    exact htable'
  · have hevent' : Conserves oneLetter (onRings s.writer got.context) 0 0 (events ++ [ev])
        (queuedNames (firstNames (min (n + 1) 4095))) := by
      rw [hcontext]
      exact hevent
    exact hevent'
  · rw [List.length_append, List.length_singleton, h.count]
  · rintro k hk
    obtain rfl : n = k := by omega
    exact ⟨ev, List.mem_append_right _ List.mem_cons_self, href, ((), got.entry),
      List.mem_append_right _ List.mem_cons_self, hoff, hcall⟩

def sampleAll (n : ℕ) : List (RecorderAction Unit Addr) :=
  (List.range n).map fun k => .record () 0 (sampleNth k)

theorem filling_run (h : Filling 0 s C events) (hn : n ≤ 4096) :
    ∃ s' C' events', run (Recorder.step espStrings oneLetter steady 0) s (sampleAll n) = some s' ∧
      Filling n s' C' events' := by
  induction n with
  | zero => exact ⟨s, C, events, rfl, h⟩
  | succ n ih =>
    obtain ⟨s₁, C₁, events₁, hr, h₁⟩ := ih (by omega)
    obtain ⟨s₂, C₂, events₂, hs, h₂⟩ := h₁.sample (by omega)
    refine ⟨s₂, C₂, events₂, ?_, h₂⟩
    rw [sampleAll, List.range_succ, List.map_append, run_append]
    exact Option.bind_eq_some_iff.mpr ⟨s₁, hr, run_cons_some.mpr ⟨s₂, hs, rfl⟩⟩

omit [DecidableEq K] in
/-- An id past the queued names is in no record. -/
theorem filter_queuedNames_past {file : List Record}
    (hfile : stringsOf file = (queuedNames names).map (stored mem)) {i : ℕ}
    (hi : names.length ≤ i) (hlt : i < 2147483648) :
    file.filter (namesId (UInt32.ofNat i)) = [] := by
  rw [filter_stringsOf, hfile, List.filter_eq_nil_iff]
  rintro r hr heq
  obtain ⟨q, hq, rfl⟩ := List.mem_map.mp hr
  obtain ⟨j, hj, rfl⟩ := List.mem_mapIdx.mp hq
  have hid : UInt32.ofNat j = UInt32.ofNat i := of_decide_eq_true heq
  have hji := ofNat_inj (by omega) hlt hid
  omega

/-- The first `Drain` takes every event of the ring. -/
theorem Filling.drained (h : Filling 4096 s C events) {fuel : ℕ} {w : RawEventWriter Addr}
    (hw : (onRings s.writer C).drain oneLetter steady fuel = some w) :
    w.contextQueue.contents espMaxEventBuffer = [] := by
  have hring : Holds espMaxEventBuffer C.eventQueue (C.eventQueue.contents espMaxEventBuffer) :=
    h.conserves.eventRing
  have hcount : C.eventQueue.front = _ := h.conserves.eventCount
  have heq : eventsOf s.writer.outputFile ++ [] ++ C.eventQueue.contents espMaxEventBuffer = events :=
    h.conserves.events_eq
  rw [h.file, eventsOf, List.filterMap_nil, List.nil_append, List.nil_append] at heq
  have hfront := hring.front_eq
  rw [heq, h.count] at hfront
  rw [h.count] at hcount
  have hback : C.eventQueue.back = 0 := by omega
  obtain ⟨k, r, he, hr, -, hk⟩ := tryDequeueBulk_spec hring (by omega)
    (espWriteBufferSize - s.writer.writeBufferUsed).toNat
  have hall : k = 4096 := by
    rw [hback, heq, h.count, h.used] at hk
    have hzero : modcap espMaxEventBuffer 0 = 0 := rfl
    rw [hzero, espWriteBufferSize, espMaxEventBuffer] at hk
    omega
  rw [Writer.drain_contextQueue hw]
  have hqueue : (onRings s.writer C).dequeueEvents.contextQueue = r := by
    have hsnd := congrArg Prod.snd he
    exact hsnd
  rw [hqueue, hr.contents_eq, List.drop_eq_nil_iff, heq, h.count, hall]

/-- The event of the 4096th name is in the file, its name is not. -/
theorem Filling.unresolvable (h : Filling 4096 s C events) {fuel : ℕ} {s₁ s' : Recorder Unit Addr}
    (hd : s.step espStrings oneLetter steady fuel .drain = some s₁)
    (hs : s₁.finish oneLetter steady fuel = some s') : ¬ Resolvable oneLetter s' := by
  intro hres
  have hC : s.process.context = some C := h.session.context
  obtain ⟨w, hw, rfl⟩ := consume_some hC hd
  obtain ⟨w', hw', rfl⟩ := consume_some rfl hs
  replace hw' : w.flush oneLetter steady fuel = some w' := hw'
  have hlen : (queuedNames (firstNames (min 4096 4095))).length = 4095 := by
    rw [queuedNames, List.length_mapIdx, length_firstNames]
    rfl
  have hused : (onRings s.writer C).writeBufferUsed = 0 := h.used
  have hcons₀ : Conserves oneLetter (onRings s.writer C) 0 (onRings s.writer C).writeBufferUsed
      events (queuedNames (firstNames (min 4096 4095))) := by
    rw [hused]
    exact h.conserves
  obtain ⟨hcons₁, hpos, -⟩ := hcons₀.drain (le_of_eq hused.symm) (by rw [hused]; decide)
    (by rw [h.count]; decide) (by rw [hlen]; decide) hw
  obtain ⟨hcons, -, hempty⟩ := hcons₁.flush hpos (by rw [hlen]; decide) hw'
  have hstrings := hcons.strings_eq
  rw [hempty, List.map_nil, List.append_nil] at hstrings
  obtain ⟨ev, hev, href, x, hx, hoff, hcall⟩ := h.last 4095 rfl
  have hevents : eventsOf w'.outputFile ++ [] ++ w'.contextQueue.contents espMaxEventBuffer = events :=
    hcons.events_eq
  rw [Writer.flush_contextQueue hw', h.drained hw, List.append_nil, List.append_nil] at hevents
  rw [← hevents] at hev
  obtain ⟨-, hone⟩ := hres ev hev (by rw [href]; decide)
  have hfound := hone (nthName 4095) ⟨x, hx, hoff, Or.inl ⟨_, hcall⟩⟩
  rw [href] at hfound
  have hnone := filter_queuedNames_past hstrings (i := 4095)
    (le_of_eq (length_firstNames _)) (by decide)
  cases hnone.symm.trans hfound

/-- REFUTED: 4096 new names before the first pass of the drain thread; the last event names a string
    that is not in the file. -/
theorem crowded_unresolvable : ∃ P fuel s s',
    Process.start.espInit (Junk.zero zoneName) () = some P ∧
      run (Recorder.step espStrings oneLetter steady fuel)
        (Recorder.new P (Junk.zero zoneName) fun _ => Writer.tick 0) (sampleAll 4096 ++ [.drain]) =
          some s ∧
      s.finish oneLetter steady fuel = some s' ∧ ¬ Resolvable oneLetter s' := by
  obtain ⟨P, C, hinit, h⟩ := @recorderInv_new Unit Addr _ _ espStrings oneLetter {()} ()
    (Finset.mem_singleton_self ()) (Junk.zero zoneName) (fun _ => Writer.tick 0)
  have h₀ : Filling 0 (Recorder.new P (Junk.zero zoneName) fun _ => Writer.tick 0) C [] :=
    ⟨h.session, h.rings.table, h.rings.writer.conserves, rfl, rfl, rfl, fun m hm => by omega⟩
  obtain ⟨s, C', events, hr, hfull⟩ := filling_run h₀ (le_refl 4096)
  have hdisk : ∀ n, ∃ m, n ≤ m ∧ 0 < steady m := fun n => ⟨n, le_refl n, Nat.succ_pos 63⟩
  obtain ⟨m, w, hw⟩ := Writer.drain_returns oneLetter hdisk (onRings s.writer C')
  obtain ⟨n, w', hw'⟩ := Writer.flush_returns oneLetter hdisk w
  have hC : s.process.context = some C' := hfull.session.context
  obtain ⟨s₁, hs₁⟩ : ∃ s₁ : Recorder Unit Addr, s₁ = ⟨{ s.process with
      context := some { C' with eventQueue := w.contextQueue, stringQueue := w.stringQueue } }, w⟩ :=
    ⟨_, rfl⟩
  have hdrain : s.step espStrings oneLetter steady (max m n) .drain = some s₁ :=
    Option.bind_eq_some_iff.mpr ⟨C', hC, Option.map_eq_some_iff.mpr
      ⟨w, Writer.drain_mono (le_max_left m n) hw, hs₁.symm⟩⟩
  obtain ⟨s', hfinish⟩ : ∃ s', s₁.finish oneLetter steady (max m n) = some s' := by
    rw [hs₁]
    exact ⟨_, Option.bind_eq_some_iff.mpr ⟨_, rfl, Option.map_eq_some_iff.mpr
      ⟨w', Writer.flush_mono (le_max_right m n) hw', rfl⟩⟩⟩
  refine ⟨P, max m n, s₁, s', hinit, ?_, hfinish, hfull.unresolvable hdrain hfinish⟩
  rw [run_append]
  exact Option.bind_eq_some_iff.mpr ⟨s, run_step_mono (Nat.zero_le _) hr,
    run_cons_some.mpr ⟨s₁, hdrain, rfl⟩⟩

end Esp.Context
