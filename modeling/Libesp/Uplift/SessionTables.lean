import Libesp.Context.CallForest
import Libesp.Stream.QuietLoop
import Libesp.Uplift.SessionFile

/-! @esp uplift | name:ProfileContext, EventStreamConsumer, SessionFileStore | scheme:round-trip |
    source:src/Context.cpp, src/EventStreamIO.cpp, src/Comms.cpp (DrainLoop), src/uplift/uplift.cpp,
    src/uplift/FileStore.cpp

    A session from the calls of its threads to the tables of its database, and back. A query for the
    rows of one thread gives them in any order; sorted by id they are the zones and samples in the
    order of the calls, their parents are the brackets, and the strings table has their names.

        esp_zone "a"  esp_sample "x"  esp_end        calls of a thread
             └─ events, names ─▶ rings ─▶ file ─▶ rows
        zone "a" [ sample "x" ]  ◀── sort by id ──┘

    So nothing of a session is lost on the way where it is closed while the writer is busy or still
    asked to run, its rings do not fill up, and the reader takes its names (`rebuilt_run`). -/

namespace Esp.Uplift
open Event PointerHash LocklessRing Memory Machine Brackets
open Context (Process ProfileContext ThreadContext Call Junk Recorder RecorderAction onRings Shows Scene
  consume_some espRecord_cases OpenInv NamesOk ZoneCall SampleCall ZoneNode SampleNode CallForest
  callsOf forestCalls forestEvents eventKey eventParent isZoneEvent queuedNames Entry)
open Context (oneLetter steady zoneName probeName openedByTrue)
open Writer (RawEventWriter SessionInv stored drainLoop)

variable {T K : Type}

/-! ### What a query shows -/

def rowKey (row : EventRow) : ℕ := row.eventId.toNat

def rowParent (row : EventRow) : ℕ := row.parentEventRef.toNat

def rowIsZone (row : EventRow) : Bool := row.eventType == (EV_ZONE_INTERVAL.toNat : ℤ)

/-- The texts that the strings table has for a reference. -/
def namesIn (strings : Finset StringRow) (ref : ℤ) : Finset (List UInt8) :=
  (strings.filter fun row => row.stringId = ref).image StringRow.value

/-- A zone as the tables show it. -/
structure ShownZone where
  names : Finset (List UInt8)
  start : ℤ
  elapsed : ℤ
  deriving DecidableEq

/-- A sample as the tables show it. -/
structure ShownSample where
  names : Finset (List UInt8)
  eventType : ℤ
  now : ℤ
  value : ℤ
  deriving DecidableEq

def showZone (strings : Finset StringRow) (row : EventRow) : ShownZone :=
  ⟨namesIn strings row.eventNameRef, row.timestamp, row.value⟩

def showSample (strings : Finset StringRow) (row : EventRow) : ShownSample :=
  ⟨namesIn strings row.eventNameRef, row.eventType, row.timestamp, row.value⟩

variable (mem : K → List UInt8)

/-- The text of a name, and of no name none. -/
def textOf (name : Option K) : Finset (List UInt8) := name.elim ∅ fun ptr => {mem ptr}

/-- A zone as it was called. -/
def calledZone (z : ZoneCall K) : ShownZone :=
  ⟨textOf mem z.name, z.start.toInt, (Context.elapsed z.stop z.start).toNat⟩

def calledSample (x : SampleCall K) : ShownSample :=
  ⟨textOf mem x.name, x.probe.eventType.toNat, x.now.toInt, x.probe.value.toNat⟩

/-- The forest of the calls `f` of each thread is in the tables, under the thread's number. -/
structure Rebuilt (ts : Finset T) (f : T → Forest (ZoneCall K) (SampleCall K)) (number : T → ℤ)
    (events : Finset EventRow) (strings : Finset StringRow) : Prop where
  /-- The rows of a thread, in any order, give its calls. -/
  forest : ∀ t ∈ ts, ∀ rows : List EventRow, rows.Nodup →
    (∀ row, row ∈ rows ↔ row ∈ events ∧ row.threadID = number t) →
    (Forest.recover rowKey rowParent rowIsZone 0 rows).map (showZone strings) (showSample strings) =
      (f t).map (calledZone mem) (calledSample mem)
  /-- Every row is of one of the threads. -/
  all : ∀ row ∈ events, ∃ t ∈ ts, row.threadID = number t
  /-- Threads that called anything have different numbers. -/
  apart : ∀ t ∈ ts, ∀ u ∈ ts, number t = number u → t = u ∨ f t = .nil ∧ f u = .nil

variable {mem}

/-! ### Sessions whose names all find a place -/

/-- A call that passes one of these names. -/
def Passes (names : Finset K) : Call K → Prop
  | .endZone => True
  | c => ∃ k ∈ names, c.name = some k

/-- The actions of the threads `ts`, passing names among `names`, none of which pauses the recording. -/
def SessionAction.Within (ts : Finset T) (names : Finset K) : SessionAction T K → Prop
  | .recorder (.record t _ c) => t ∈ ts ∧ Passes names c
  | .recorder .drain => True
  | .threadInit t => t ∈ ts
  | .frameEnd _ => True
  | .setPaused _ => False

/-- The action on the context, if it is not one of the drain thread. -/
def SessionAction.action? : SessionAction T K → Option (Context.Action T K)
  | .recorder (.record t now c) => some (.record t now c)
  | .recorder .drain => none
  | .threadInit t => some (.threadInit t)
  | .frameEnd now => some (.frameEnd now)
  | .setPaused shouldPause => some (.setPaused shouldPause)

variable [DecidableEq T] [DecidableEq K] (sh : Shape K) (mem) (disk : ℕ → ℕ)

/-- INVARIANT: every name that was passed has a place in the table and has gone to its ring, and every
    event that was offered has gone to the other. -/
structure Whole (ts : Finset T) (names : Finset K) (s : Recorder T K) (C : ProfileContext K)
    (put : List K) : Prop where
  session : OpenInv ts s.process C
  stamped : NamesOk sh s.process
  indexed : ∀ x ∈ s.process.log, x.1 ∈ ts ∧
    ∀ σ, x.2.stamp = some σ → isIndex σ.nameRef = true ∧ x.2.call.name ≠ none
  table : Lists sh C.strings put
  passed : ∀ k ∈ put, k ∈ names
  kept : Kept mem s C s.process.offers (queuedNames put)

variable {sh mem disk} {ts : Finset T} {names : Finset K} {s s' : Recorder T K}
  {C : ProfileContext K} {P P' : Process T K} {put : List K}

omit [DecidableEq T] in
/-- A name finds its place in the table while there are no more than its slots. -/
theorem mapString_put (h : Lists sh C.strings put) (hput : ∀ k ∈ put, k ∈ names)
    (hcard : names.card ≤ sh.capacity) {k : K} (hk : k ∈ names) :
    isIndex (C.mapStringToReference sh (some k)).1 = true ∧
      ∃ put', Lists sh (C.mapStringToReference sh (some k)).2.strings put' ∧
        (∀ k' ∈ put', k' ∈ names) ∧
        queuedNames put' = queuedNames put ++ (newString sh C (some k)).toList := by
  by_cases hold : k ∈ put
  · have hidx := h.isIndex_get.mpr hold
    rw [ProfileContext.mapStringToReference, newString]
    simp only [hidx, if_true]
    exact ⟨trivial, put, h, hput, (List.append_nil _).symm⟩
  · have hget : isIndex (C.strings.get sh (some k)) = false := by
      rw [h.get_of_notMem hold]
      rfl
    have hlt : put.length < names.card := by
      have hins : put.toFinset ⊂ names := by
        refine Finset.ssubset_iff.mpr ⟨k, fun hm => hold (List.mem_toFinset.mp hm), ?_⟩
        refine Finset.insert_subset hk ?_
        exact fun k' hk' => hput k' (List.mem_toFinset.mp hk')
      rw [← List.toFinset_card_of_nodup h.nodup]
      exact Finset.card_lt_card hins
    rcases h.put hold with ⟨-, hfull⟩ | ⟨href, hlists⟩
    · have := h.length_of_full hfull
      omega
    · have hcap := sh.capacity_int
      have hidx := isIndex_ofNat (show put.length < 2147483648 by omega)
      rw [ProfileContext.mapStringToReference, newString]
      simp only [hget, href, hidx, if_true, Bool.false_eq_true, if_false]
      refine ⟨trivial, put ++ [k], hlists, ?_, Context.queuedNames_concat put k⟩
      exact List.forall_mem_append.mpr ⟨hput, List.forall_mem_singleton.mpr hk⟩

omit [DecidableEq T] in
/-- The reference of a stamp is the answer for the name that was passed. -/
theorem record_nameRef (th : ThreadContext) (C : ProfileContext K) (number : ℕ) (now : Int64)
    (c : Call K) {σ : Context.Stamp} (hσ : (th.record sh C number now c).entry.stamp = some σ) :
    ∃ name, th.passes c = some name ∧
      σ.nameRef = (C.nextEventID.2.mapStringToReference sh name).1 := by
  cases c with
  | zone name =>
    simp only [ThreadContext.record, ThreadContext.zone] at hσ
    split at hσ
    · cases hσ
    · rename_i hpush
      cases hσ
      exact ⟨name, by rw [ThreadContext.passes, hpush]; rfl, rfl⟩
  | endZone =>
    simp only [ThreadContext.record, ThreadContext.endZone] at hσ
    split at hσ <;> cases hσ
  | sample name probe =>
    cases hσ
    exact ⟨name, rfl, rfl⟩

omit [DecidableEq T] in
/-- STEP: a recording call puts the name it passes into the table, and stamps its index. -/
theorem record_put (h : Lists sh C.strings put) (hput : ∀ k ∈ put, k ∈ names)
    (hcard : names.card ≤ sh.capacity) (th : ThreadContext) (number : ℕ) (now : Int64) {c : Call K}
    (hc : Passes names c) :
    (∃ put', Lists sh (th.record sh C number now c).context.strings put' ∧
      (∀ k ∈ put', k ∈ names) ∧
      queuedNames put' = queuedNames put ++ ((th.passes c).bind (newString sh C)).toList) ∧
    ∀ σ, (th.record sh C number now c).entry.stamp = some σ →
      isIndex σ.nameRef = true ∧ c.name ≠ none := by
  -- the name that is passed, if any, is one of `names`
  have hpassed : ∀ name, th.passes c = some name → ∃ k ∈ names, name = some k ∧ c.name = some k := by
    intro name hname
    obtain ⟨hend, hcname⟩ := Context.passes_name hname
    have hsome : ∃ k ∈ names, c.name = some k := by
      cases c with
      | endZone => exact absurd rfl hend
      | zone zoneName => exact hc
      | sample probeName probe => exact hc
    obtain ⟨k, hk, hck⟩ := hsome
    exact ⟨k, hk, hcname.symm.trans hck, hck⟩
  have hstrings : (th.record sh C number now c).context.strings = ((th.passes c).elim C fun name =>
      (C.nextEventID.2.mapStringToReference sh name).2).strings := by
    rw [Context.record_effects]
    generalize (th.record sh C number now c).entry.offered = ev
    cases ev <;> rfl
  constructor
  · rw [hstrings]
    rcases hpass : th.passes c with _ | name
    · exact ⟨put, h, hput, (List.append_nil _).symm⟩
    · obtain ⟨k, hk, rfl, -⟩ := hpassed name hpass
      have hnext : Lists sh C.nextEventID.2.strings put := h
      exact (mapString_put hnext hput hcard hk).2
  · intro σ hσ
    obtain ⟨name, hname, href⟩ := record_nameRef th C number now c hσ
    obtain ⟨k, hk, rfl, hck⟩ := hpassed name hname
    have hnext : Lists sh C.nextEventID.2.strings put := h
    rw [href, hck]
    exact ⟨(mapString_put hnext hput hcard hk).1, Option.some_ne_none k⟩

/-- While there is room for all names, a string that is offered finds its ring not full. -/
theorem Whole.stringRoom (h : Whole mem sh ts names s C put)
    (hring : names.card < stringQueueCapacity) (hlt : put.length < names.card) :
    stringsFull s = false := by
  have hcons := h.kept.writer.conserves
  have hlen := congrArg List.length hcons.strings_eq
  simp only [List.length_append, List.length_map, queuedNames, List.length_mapIdx] at hlen
  have hfront : C.stringQueue.front = ((queuedNames put).length : ℤ) := hcons.stringCount
  rw [queuedNames, List.length_mapIdx] at hfront
  have hcap : stringQueueCapacity = 4096 := rfl
  have hfull := full_iff hcons.stringRing (by simp only [onRings, hfront]; omega)
  rw [stringsFull, h.kept.context, Option.elim_some]
  rw [← Bool.not_eq_true]
  intro hf
  have hone := hfull.mp hf
  simp only [onRings] at hone hlen
  omega

/-- STEP: a recording call. -/
theorem Whole.record (h : Whole mem sh ts names s C put) (hts : ts.card ≤ espMaxThreadCount)
    (hcard : names.card ≤ sh.capacity) (hring : names.card < stringQueueCapacity)
    (hE : s.process.log.length < 2147483647) {t : T} {now : Int64} {c : Call K} (ht : t ∈ ts)
    (hc : Passes names c)
    (hroom : offeredEvent sh s (.recorder (.record t now c)) ≠ none → eventsFull s = false)
    {fuel : ℕ} (hs : sessionStep sh mem disk fuel s (.recorder (.record t now c)) = some s') :
    ∃ D put', Whole mem sh ts names s' D put' := by
  have hputs : put.length ≤ names.card := by
    rw [← List.toFinset_card_of_nodup h.table.nodup]
    exact Finset.card_le_card fun k hk => h.passed k (List.mem_toFinset.mp hk)
  have hoffers : s.process.offers.length ≤ s.process.log.length := List.length_filterMap_le _ _
  have hqueued : (queuedNames put).length = put.length := by rw [queuedNames, List.length_mapIdx]
  have hcap : stringQueueCapacity = 4096 := rfl
  obtain ⟨D, hkept⟩ := h.kept.step (by omega) (by omega) hs
  obtain ⟨-, hoff⟩ := offers_step h.kept.context hs
  obtain ⟨P', hP, rfl⟩ := Option.map_eq_some_iff.mp hs
  obtain ⟨P'', C', hstep, hsession, -⟩ := Context.openInv_step sh hts h.session
    (a := .record t now c) ht
  obtain rfl := Option.some.inj (hP.symm.trans hstep)
  obtain rfl := Option.some.inj (hkept.context.symm.trans hsession.context)
  have hstamped := Context.namesOk_step (a := .record t now c) h.stamped hP
  rcases espRecord_cases hP with ⟨hp, -⟩ | ⟨-, hinit, hnone⟩ | ⟨hp, P₁, C₁, i, hinit, hC₁, hi, hlt, rfl⟩
  · exact absurd (h.session.paused.symm.trans hp) Bool.false_ne_true
  · obtain ⟨n, hn⟩ := Context.threadInit_context hinit h.session.context
    exact absurd (hn.symm.trans hnone) (Option.some_ne_none _)
  · obtain ⟨n, hn⟩ := Context.threadInit_context hinit h.session.context
    obtain rfl := Option.some.inj (hn.symm.trans hC₁)
    have hlog : P₁.log = s.process.log := (Context.strings_threadInit hinit).2
    have htable : Lists sh { C with threadCount := n }.strings put := h.table
    obtain ⟨⟨put', hput', hpassed, hqueue⟩, hindex⟩ := record_put htable h.passed hcard
      (C.threadContexts i) P₁.log.length now hc
    have hstring : acceptedString sh s (.recorder (.record t now c)) =
        ((C.threadContexts i).passes c).bind (newString sh { C with threadCount := n }) := by
      rw [acceptedString, offeredString_recorded hp hinit hC₁ hi hlt]
      rcases hnew : ((C.threadContexts i).passes c).bind (newString sh { C with threadCount := n })
        with _ | r
      · exact ite_self _
      · -- the new name is one of those there is room for
        have hlen := congrArg List.length hqueue
        have hle : put'.length ≤ names.card := by
          rw [← List.toFinset_card_of_nodup hput'.nodup]
          exact Finset.card_le_card fun k hk => hpassed k (List.mem_toFinset.mp hk)
        simp only [queuedNames, List.length_append, List.length_mapIdx, hnew, Option.toList_some,
          List.length_singleton] at hlen
        rw [h.stringRoom hring (by omega)]
        rfl
    have hevent := (acceptedEvent_eq_iff s (.recorder (.record t now c))).mpr hroom
    rw [hstring, ← hqueue, hevent, ← hoff] at hkept
    obtain rfl := Option.some.inj hkept.context
    refine ⟨_, put', hsession, hstamped, ?_, hput', hpassed, hkept⟩
    intro x hx
    rcases List.mem_append.mp hx with hold | hnew
    · rw [hlog] at hold
      exact h.indexed x hold
    · obtain rfl := List.mem_singleton.mp hnew
      refine ⟨ht, fun σ hσ => ?_⟩
      rw [(Context.record_entry sh (C.threadContexts i) { C with threadCount := n } P₁.log.length now
        c).2.2.1]
      exact hindex σ hσ

/-- What offers nothing and leaves the log and the table alone. -/
theorem Whole.same (h : Whole mem sh ts names s C put) {D : ProfileContext K}
    (hsession : OpenInv ts s'.process D) (hstamped : NamesOk sh s'.process)
    (hlog : s'.process.log = s.process.log) (hstrings : D.strings = C.strings)
    (hkept : Kept mem s' D s.process.offers (queuedNames put)) : Whole mem sh ts names s' D put := by
  refine ⟨hsession, hstamped, hlog ▸ h.indexed, hstrings ▸ h.table, h.passed, ?_⟩
  rw [Process.offers, hlog]
  exact hkept

/-- STEP: whatever happens in such a session, it logs what it calls. -/
theorem Whole.step (h : Whole mem sh ts names s C put) (hts : ts.card ≤ espMaxThreadCount)
    (hcard : names.card ≤ sh.capacity) (hring : names.card < stringQueueCapacity)
    (hE : s.process.log.length < 2147483647) {a : SessionAction T K} (ha : a.Within ts names)
    (hroom : offeredEvent sh s a ≠ none → eventsFull s = false) {fuel : ℕ}
    (hs : sessionStep sh mem disk fuel s a = some s') :
    (∃ D put', Whole mem sh ts names s' D put') ∧ ∀ u, (s'.process.logOf u).map Entry.timed =
      (s.process.logOf u).map Entry.timed ++ callsOf u a.action?.toList := by
  have hputs : put.length ≤ names.card := by
    rw [← List.toFinset_card_of_nodup h.table.nodup]
    exact Finset.card_le_card fun k hk => h.passed k (List.mem_toFinset.mp hk)
  have hoffers : s.process.offers.length ≤ s.process.log.length := List.length_filterMap_le _ _
  have hqueued : (queuedNames put).length = put.length := by rw [queuedNames, List.length_mapIdx]
  have hcap : stringQueueCapacity = 4096 := rfl
  obtain ⟨D, hkept⟩ := h.kept.step (by omega) (by omega) hs
  -- an action of the process, which `Context.openInv_step` speaks of
  have hcalls : ∀ {b : Context.Action T K} {P' : Process T K}, Context.Within ts b →
      Context.step sh s.process b = some P' → ∃ C', OpenInv ts P' C' ∧ NamesOk sh P' ∧
        ∀ u, (P'.logOf u).map Entry.timed = (s.process.logOf u).map Entry.timed ++ callsOf u [b] := by
    intro b P' hb hP
    obtain ⟨P'', C', hstep, hsession, hlogs⟩ := Context.openInv_step sh hts h.session hb
    obtain rfl := Option.some.inj (hP.symm.trans hstep)
    exact ⟨C', hsession, Context.namesOk_step h.stamped hP, hlogs⟩
  have hsilent : offeredEvent sh s a = none → offeredString sh s a = none →
      Kept mem s' D s.process.offers (queuedNames put) := by
    intro he hst
    rwa [acceptedEvent, acceptedString, he, hst, ite_self, ite_self, Option.toList_none,
      Option.toList_none, List.append_nil, List.append_nil] at hkept
  cases a with
  | recorder a =>
    cases a with
    | record t now c =>
      refine ⟨h.record hts hcard hring hE ha.1 ha.2 hroom hs, ?_⟩
      obtain ⟨P', hP, rfl⟩ := Option.map_eq_some_iff.mp hs
      obtain ⟨-, -, -, hlogs⟩ := hcalls (b := .record t now c) ha.1 hP
      exact hlogs
    | drain =>
      obtain ⟨w', -, rfl⟩ := consume_some h.session.context hs
      obtain rfl := Option.some.inj hkept.context
      refine ⟨⟨_, put, h.same (h.session.keep ⟨rfl, rfl, rfl⟩) ?_ rfl rfl (hsilent rfl rfl)⟩, ?_⟩
      · refine h.stamped.same ?_ rfl
        rw [Process.strings, Process.strings, h.session.context]
        rfl
      · exact fun u => (List.append_nil _).symm
  | threadInit t =>
    obtain ⟨P', hP, rfl⟩ := Option.map_eq_some_iff.mp hs
    obtain ⟨C', hsession, hstamped, hlogs⟩ := hcalls (b := .threadInit t) ha hP
    obtain rfl := Option.some.inj (hkept.context.symm.trans hsession.context)
    obtain ⟨n, hn⟩ := Context.threadInit_context hP h.session.context
    obtain rfl := Option.some.inj (hn.symm.trans hkept.context)
    exact ⟨⟨_, put, h.same hsession hstamped (Context.strings_threadInit hP).2 rfl
      (hsilent rfl rfl)⟩, hlogs⟩
  | frameEnd now =>
    obtain ⟨P', hP, rfl⟩ := Option.map_eq_some_iff.mp hs
    obtain ⟨C', hsession, hstamped, hlogs⟩ := hcalls (b := .frameEnd now) trivial hP
    obtain rfl := Option.some.inj (hkept.context.symm.trans hsession.context)
    obtain rfl := Option.some.inj ((Context.mapContext_some h.session.context _).symm.trans hP)
    obtain rfl := Option.some.inj hkept.context
    exact ⟨⟨_, put, h.same hsession hstamped rfl rfl (hsilent rfl rfl)⟩, hlogs⟩
  | setPaused shouldPause => cases ha

/-- The log only grows. -/
theorem sessionStep_log {fuel : ℕ} {a : SessionAction T K}
    (hs : sessionStep sh mem disk fuel s a = some s') :
    s.process.log.length ≤ s'.process.log.length := by
  have hgrow : ∀ l : List (T × Entry K), s'.process.log = s.process.log ++ l →
      s.process.log.length ≤ s'.process.log.length := by
    intro l hl
    rw [hl, List.length_append]
    exact Nat.le_add_right _ _
  cases a with
  | recorder a =>
    cases a with
    | record t now c =>
      obtain ⟨P', hP, rfl⟩ := Option.map_eq_some_iff.mp hs
      rcases Context.strings_record hP with ⟨-, hlog⟩ | ⟨-, -, e, -, -, -, hlog, -⟩
      · exact (congrArg List.length hlog).ge
      · exact hgrow _ hlog
    | drain => exact (congrArg List.length (consume_log hs)).ge
  | threadInit t =>
    obtain ⟨P', hP, rfl⟩ := Option.map_eq_some_iff.mp hs
    exact (congrArg List.length (Context.strings_threadInit hP).2).ge
  | frameEnd now =>
    obtain ⟨P', hP, rfl⟩ := Option.map_eq_some_iff.mp hs
    obtain ⟨C, -, rfl⟩ := Option.map_eq_some_iff.mp hP
    exact le_refl _
  | setPaused shouldPause =>
    obtain rfl := Option.some.inj hs
    exact le_refl _

/-- RUN: in a session whose names have room and whose event ring is never full when an event is
    offered, every name has its place and every event is kept, and the log has the calls. -/
theorem Whole.run {fuel : ℕ} {as : List (SessionAction T K)} (h : Whole mem sh ts names s C put)
    (hts : ts.card ≤ espMaxThreadCount) (hcard : names.card ≤ sh.capacity)
    (hring : names.card < stringQueueCapacity) (has : ∀ a ∈ as, a.Within ts names)
    (hroom : Meets (sessionStep sh mem disk fuel)
      (fun s a => offeredEvent sh s a ≠ none → eventsFull s = false) s as)
    (hr : run (sessionStep sh mem disk fuel) s as = some s')
    (hE : s'.process.log.length < 2147483647) :
    (∃ D put', Whole mem sh ts names s' D put') ∧ ∀ u, (s'.process.logOf u).map Entry.timed =
      (s.process.logOf u).map Entry.timed ++ callsOf u (as.filterMap SessionAction.action?) := by
  induction as generalizing s C put with
  | nil =>
    obtain rfl := Option.some.inj hr
    exact ⟨⟨C, put, h⟩, fun u => (List.append_nil _).symm⟩
  | cons a as ih =>
    obtain ⟨s₁, hs, hr⟩ := run_cons_some.mp hr
    obtain ⟨hfirst, hroom⟩ := (meets_cons hs).mp hroom
    have hgrow := (sessionStep_log hs).trans
      (run_mono (m := fun s : Recorder T K => s.process.log.length) (fun _ _ _ => sessionStep_log) as hr)
    obtain ⟨⟨D, put', h₁⟩, hlog⟩ := h.step hts hcard hring (by omega) (has a List.mem_cons_self)
      hfirst hs
    obtain ⟨hend, hlogs⟩ := ih h₁ (fun b hb => has b (List.mem_cons_of_mem a hb)) hroom hr
    refine ⟨hend, ?_⟩
    intro u
    rw [hlogs u, hlog u, List.append_assoc]
    have hsplit : callsOf u ((a :: as).filterMap SessionAction.action?) =
        callsOf u a.action?.toList ++ callsOf u (as.filterMap SessionAction.action?) := by
      rw [List.filterMap_cons]
      cases a.action? with
      | none => rfl
      | some b => exact List.filterMap_append (l := [b])
    rw [hsplit]

/-! ### The rows -/

theorem rowIsZone_eventRow (ev : ProfileEvent) : rowIsZone (eventRow ev) = isZoneEvent ev := by
  rw [rowIsZone, isZoneEvent, Bool.eq_iff_iff, beq_iff_eq, beq_iff_eq]
  exact Int.natCast_inj.trans UInt32.toNat_inj

omit [DecidableEq T] [DecidableEq K] in
theorem stringRows_eq_stringsOf (records : List Record) :
    stringRows records = (stringsOf records).filterMap stringRowOf := by
  rw [stringRows, stringsOf, List.filterMap_filterMap]
  refine List.filterMap_congr ?_
  intro r _
  cases r <;> rfl

omit [DecidableEq T] [DecidableEq K] in
theorem mem_of_queued {q : RuntimeStringReference K} (h : q ∈ queuedNames put) : q.ptr ∈ put := by
  obtain ⟨i, hi, hget⟩ := List.mem_iff_getElem.mp h
  rw [← hget]
  simp only [queuedNames, List.getElem_mapIdx]
  exact List.getElem_mem _

omit [DecidableEq T] [DecidableEq K] in
/-- The rows of the names, where a reader takes them. -/
theorem stringRows_stored {records : List Record}
    (hrecords : stringsOf records = (queuedNames put).map (stored mem))
    (htexts : ∀ k ∈ put, ∀ id, Readable (.string id (mem k))) :
    stringRows records = (queuedNames put).map fun q => stringRow q.id (mem q.ptr) := by
  rw [stringRows_eq_stringsOf, hrecords, List.filterMap_map, ← List.filterMap_eq_map]
  refine List.filterMap_congr ?_
  intro q hq
  simp only [Function.comp_apply, stored_readable (htexts _ (mem_of_queued hq) _), stringRowOf]

/-- The strings table has the text of a name for its reference, and no other. -/
theorem namesIn_put {S : Table K} (h : Lists sh S put) {k : K} {ref : UInt32}
    (href : S.get sh (some k) = ref) (hidx : isIndex ref = true) :
    namesIn ((queuedNames put).map fun q => stringRow q.id (mem q.ptr)).toFinset ref.toNat =
      {mem k} := by
  rw [← href] at hidx
  obtain ⟨i, hi, hget⟩ := List.mem_iff_getElem.mp (h.isIndex_get.mp hidx)
  have hplace : put[i]? = some k := List.getElem?_eq_some_iff.mpr ⟨hi, hget⟩
  have hmem : (⟨ref, k⟩ : RuntimeStringReference K) ∈ queuedNames put := by
    refine List.mem_of_getElem? (i := i) ?_
    rw [queuedNames, List.getElem?_mapIdx, hplace, Option.map_some, ← href,
      h.get_of_getElem? hplace]
  have hlen : put.length < 2147483648 := lt_of_le_of_lt h.length_le sh.capacity_int
  have honly : ∀ q ∈ queuedNames put, q.id = ref → q = ⟨ref, k⟩ := fun q hq hid =>
    List.inj_on_of_nodup_map (Context.queuedNames_ids put hlen) hq hmem hid
  ext text
  rw [namesIn, Finset.mem_image, Finset.mem_singleton]
  constructor
  · rintro ⟨row, hrow, rfl⟩
    obtain ⟨hin, hid⟩ := Finset.mem_filter.mp hrow
    obtain ⟨q, hq, rfl⟩ := List.mem_map.mp (List.mem_toFinset.mp hin)
    rw [honly q hq (UInt32.toNat_inj.mp (Int.natCast_inj.mp hid))]
    rfl
  · rintro rfl
    exact ⟨stringRow ref (mem k), Finset.mem_filter.mpr
      ⟨List.mem_toFinset.mpr (List.mem_map.mpr ⟨_, hmem, rfl⟩), rfl⟩, rfl⟩

/-- The names of the stamps are in the strings table. -/
theorem Whole.named (h : Whole mem sh ts names s C put) : ∀ x ∈ s.process.log, ∀ σ,
    x.2.stamp = some σ →
      namesIn ((queuedNames put).map fun q => stringRow q.id (mem q.ptr)).toFinset σ.nameRef.toNat =
        textOf mem x.2.call.name := by
  intro x hx σ hσ
  obtain ⟨hidx, hname⟩ := (h.indexed x hx).2 σ hσ
  obtain ⟨k, hk⟩ := Option.ne_none_iff_exists'.mp hname
  have hstrings : s.process.strings = some C.strings := congrArg (Option.map _) h.session.context
  rw [hk]
  rcases h.stamped C.strings hstrings x hx σ hσ k hk with herr | ⟨-, hget⟩
  · rw [herr] at hidx
    cases hidx
  · exact namesIn_put h.table hget hidx

/-! ### A thread -/

/-- The number that the rows of a thread have; -1, which no row has, before its first call. -/
def numberOf (P : Process T K) (t : T) : ℤ :=
  (P.threadContext t).elim (-1) fun p => (UInt32.ofNat p.2).toNat

variable {f : T → Forest (ZoneCall K) (SampleCall K)}

/-- The session has recorded the calls `f` of its threads. -/
def Records (ts : Finset T) (f : T → Forest (ZoneCall K) (SampleCall K)) (P : Process T K) : Prop :=
  ∀ t ∈ ts, (f t).depth ≤ espMaxZoneRecursion ∧ (P.logOf t).map Entry.timed = forestCalls (f t)

omit [DecidableEq K] in
/-- The calls of a thread are recorded in its context. -/
theorem callForest_context (h : OpenInv ts P C) (hf : Records ts f P) {t : T} (ht : t ∈ ts)
    {p : ℕ × ℕ} (hp : P.threadContext t = some p) :
    ∃ a, CallForest p.2 0 (f t) (P.logOf t) a := by
  obtain ⟨hd, hlog⟩ := hf t ht
  obtain ⟨st, hrun, -⟩ := h.slabs t ht p hp
  obtain ⟨-, a, ha⟩ := Context.localRun_forest (f t) (by simpa using hd) hlog hrun
  exact ⟨a, ha⟩

omit [DecidableEq K] in
/-- A thread that has no context has called nothing. -/
theorem forest_nil (h : OpenInv ts P C) (hf : Records ts f P) {t : T} (ht : t ∈ ts)
    (hp : P.threadContext t = none) : f t = .nil := by
  have hlog := (hf t ht).2
  rw [h.silent t ht hp] at hlog
  generalize f t = a at hlog
  cases a with
  | nil => rfl
  | zone z kids rest => cases hlog
  | leaf x rest => cases hlog

omit [DecidableEq K] in
theorem offeredBy_post {i : ℕ} {t : T} {a : Forest (ZoneNode K) (SampleNode K)}
    (ha : CallForest i 0 (f t) (P.logOf t) a) : P.offeredBy t = (forestEvents a).post := by
  rw [Process.offeredBy, ← ha.entries, Context.offered_tokens]

omit [DecidableEq K] in
/-- The rows of a thread have its number. -/
theorem offeredBy_number (h : OpenInv ts P C) (hf : Records ts f P) {t : T} (ht : t ∈ ts) :
    ∀ ev ∈ P.offeredBy t, (eventRow ev).threadID = numberOf P t := by
  intro ev hev
  rcases hp : P.threadContext t with _ | p
  · rw [Process.offeredBy, h.silent t ht hp] at hev
    cases hev
  · obtain ⟨a, ha⟩ := callForest_context h hf ht hp
    rw [offeredBy_post ha] at hev
    have hall : (forestEvents a).All (fun ev => ev.data.threadID = UInt32.ofNat p.2)
        fun ev => ev.data.threadID = UInt32.ofNat p.2 :=
      Forest.all_map.mpr (ha.stamped.imp (fun _ hz => hz.threadID) fun _ hx => hx.threadID)
    rw [eventRow, hall.post ev hev, numberOf, hp]
    rfl

omit [DecidableEq K] in
/-- Threads that have contexts have different numbers. -/
theorem numberOf_inj (h : OpenInv ts P C) (hts : ts.card ≤ espMaxThreadCount) {t u : T} (ht : t ∈ ts)
    (hu : u ∈ ts) (hsame : numberOf P t = numberOf P u) :
    t = u ∨ P.threadContext t = none ∧ P.threadContext u = none := by
  have hcount := h.count_le
  rw [numberOf, numberOf] at hsame
  rcases hp : P.threadContext t with _ | p <;> rcases hq : P.threadContext u with _ | q <;>
    rw [hp, hq] at hsame
  · exact Or.inr ⟨rfl, rfl⟩
  · simp only [Option.elim_none, Option.elim_some] at hsame
    omega
  · simp only [Option.elim_none, Option.elim_some] at hsame
    omega
  · obtain ⟨hsess, hlt⟩ := h.bound t ht p hp
    obtain ⟨hsess', hlt'⟩ := h.bound u hu q hq
    have hmax : espMaxThreadCount = 64 := rfl
    simp only [Option.elim_some, Int.natCast_inj] at hsame
    rw [UInt32.toNat_ofNat_of_lt' (by rw [UInt32.size]; omega),
      UInt32.toNat_ofNat_of_lt' (by rw [UInt32.size]; omega)] at hsame
    have hpq : p = q := Prod.ext (hsess.trans hsess'.symm) hsame
    exact Or.inl (h.inj t ht u hu p hp (hpq ▸ hq))

omit [DecidableEq K] in
/-- An event was offered by a thread exactly when it is in the rows and has the thread's number. -/
theorem mem_thread (h : OpenInv ts P C) (hts : ts.card ≤ espMaxThreadCount) (hf : Records ts f P)
    (hlog : ∀ x ∈ P.log, x.1 ∈ ts) {t : T} (ht : t ∈ ts) (row : EventRow) :
    row ∈ (P.offeredBy t).map eventRow ↔
      row ∈ (P.offers.map eventRow).toFinset ∧ row.threadID = numberOf P t := by
  rw [List.mem_toFinset, List.mem_map, List.mem_map]
  constructor
  · rintro ⟨ev, hev, rfl⟩
    exact ⟨⟨ev, (P.filterMap_logOf_sublist t Entry.offered).subset hev, rfl⟩,
      offeredBy_number h hf ht ev hev⟩
  · rintro ⟨⟨ev, hev, rfl⟩, hnumber⟩
    obtain ⟨⟨u, e⟩, hx, hxe⟩ := List.mem_filterMap.mp hev
    have hu : u ∈ ts := hlog _ hx
    have hmine : ev ∈ P.offeredBy u :=
      List.mem_filterMap.mpr ⟨e, Context.mem_logOf.mpr hx, hxe⟩
    rcases numberOf_inj h hts hu ht ((offeredBy_number h hf hu ev hmine).symm.trans hnumber) with
      rfl | ⟨hnone, -⟩
    · exact ⟨ev, hmine, rfl⟩
    · rw [Process.offeredBy, h.silent u hu hnone] at hmine
      cases hmine

/-- The tables of a session have its calls. -/
theorem Whole.rebuilt (h : Whole mem sh ts names s C put) (hts : ts.card ≤ espMaxThreadCount)
    (hf : Records ts f s.process) (hE : s.process.log.length < 2147483647) :
    Rebuilt mem ts f (numberOf s.process) (s.process.offers.map eventRow).toFinset
      ((queuedNames put).map fun q => stringRow q.id (mem q.ptr)).toFinset := by
  have hthreads : ∀ x ∈ s.process.log, x.1 ∈ ts := fun x hx => (h.indexed x hx).1
  have hstamps : s.process.stamps.length ≤ s.process.log.length := List.length_filterMap_le _ _
  refine ⟨?_, ?_, ?_⟩
  · intro t ht rows hnd hrows
    have hmem : ∀ row, row ∈ rows ↔ row ∈ (s.process.offeredBy t).map eventRow := fun row =>
      (hrows row).trans (mem_thread h.session hts hf hthreads ht row).symm
    rcases hp : s.process.threadContext t with _ | p
    · have hnone : rows = [] := by
        refine List.eq_nil_iff_forall_not_mem.mpr fun row hrow => ?_
        rw [hmem, Process.offeredBy, h.session.silent t ht hp] at hrow
        cases hrow
      rw [hnone, forest_nil h.session hf ht hp, Forest.recover_nil]
      rfl
    · obtain ⟨a, ha⟩ := callForest_context h.session hf ht hp
      obtain ⟨hinc, hpos⟩ := ha.increasing h.session (by omega)
      have hpre : ((forestEvents a).map eventRow eventRow).pre.map rowKey =
          (forestEvents a).pre.map eventKey := by
        rw [Forest.pre_map, List.map_map]
        rfl
      have hpost : (s.process.offeredBy t).map eventRow =
          ((forestEvents a).map eventRow eventRow).post := by
        rw [offeredBy_post ha, Forest.post_map]
      have hsorted : (((forestEvents a).map eventRow eventRow).pre.map rowKey).Pairwise (· < ·) := by
        rwa [hpre]
      have hnd' : ((forestEvents a).map eventRow eventRow).post.Nodup := by
        refine (Forest.pre_perm_post _).nodup_iff.mp (List.Nodup.of_map rowKey ?_)
        exact hsorted.imp fun hlt => ne_of_lt hlt
      have hperm : rows.Perm ((forestEvents a).map eventRow eventRow).post := by
        rw [List.perm_ext_iff_of_nodup hnd hnd', ← hpost]
        exact hmem
      have hzero : ∀ row ∈ ((forestEvents a).map eventRow eventRow).pre, 0 < rowKey row := by
        intro row hrow
        rw [Forest.pre_map] at hrow
        obtain ⟨ev, hev, rfl⟩ := List.mem_map.mp hrow
        exact hpos ev hev
      have hzones : (fun ev => rowIsZone (eventRow ev)) = isZoneEvent := funext rowIsZone_eventRow
      have hlinked : Forest.Linked rowKey rowParent rowIsZone 0
          ((forestEvents a).map eventRow eventRow) := by
        rw [Forest.linked_map, hzones]
        exact ha.parents
      rw [Forest.recover_perm hlinked hzero hsorted hperm, forestEvents, Forest.map_map,
        Forest.map_map, ← ha.calls, Forest.map_map]
      -- node by node, the rows and the strings table have what was called
      have hnamed := Forest.all_of_tokens (p := fun e : Entry K => ∀ σ, e.stamp = some σ →
        namesIn ((queuedNames put).map fun q => stringRow q.id (mem q.ptr)).toFinset
          σ.nameRef.toNat = textOf mem e.call.name) (f := a) fun e he =>
        h.named (t, e) (Context.mem_logOf.mp (ha.entries ▸ he))
      refine Forest.map_congr ((ha.stamped.and hnamed).imp ?_ ?_)
      · rintro z ⟨hz, hname, -⟩
        have htext := hname _ rfl
        rw [showZone, calledZone, eventRow, hz.timestamp, hz.value]
        exact congrArg (ShownZone.mk · _ _) htext
      · rintro x ⟨hx, hname⟩
        have htext := hname _ rfl
        rw [showSample, calledSample, eventRow, hx.timestamp, hx.value, hx.eventType]
        exact congrArg (ShownSample.mk · _ _ _) htext
  · intro row hrow
    obtain ⟨ev, hev, rfl⟩ := List.mem_map.mp (List.mem_toFinset.mp hrow)
    obtain ⟨⟨u, e⟩, hx, hxe⟩ := List.mem_filterMap.mp hev
    exact ⟨u, hthreads _ hx, offeredBy_number h.session hf (hthreads _ hx) ev
      (List.mem_filterMap.mpr ⟨e, Context.mem_logOf.mpr hx, hxe⟩)⟩
  · intro t ht u hu hsame
    rcases numberOf_inj h.session hts ht hu hsame with hsame | ⟨hnone, hnone'⟩
    · exact Or.inl hsame
    · exact Or.inr ⟨forest_nil h.session hf ht hnone, forest_nil h.session hf hu hnone'⟩

/-! ### A session, from its calls to its tables -/

theorem sessionStep_mono {m n : ℕ} (hmn : m ≤ n) {a : SessionAction T K}
    (hs : sessionStep sh mem disk m s a = some s') : sessionStep sh mem disk n s a = some s' := by
  cases a with
  | recorder a => exact Context.step_mono hmn hs
  | threadInit t => exact hs
  | frameEnd now => exact hs
  | setPaused shouldPause => exact hs

theorem run_sessionStep_mono {m n : ℕ} (hmn : m ≤ n) {as : List (SessionAction T K)}
    (hr : run (sessionStep sh mem disk m) s as = some s') :
    run (sessionStep sh mem disk n) s as = some s' := by
  induction as generalizing s with
  | nil => exact hr
  | cons a as ih =>
    obtain ⟨t, hs, hr⟩ := run_cons_some.mp hr
    exact run_cons_some.mpr ⟨t, sessionStep_mono hmn hs, ih hr⟩

variable (sh mem) in
/-- RETURNS: every session of such threads returns. -/
theorem run_sessionStep_returns (hdisk : ∀ n, ∃ m, n ≤ m ∧ 0 < disk m)
    (hts : ts.card ≤ espMaxThreadCount) {as : List (SessionAction T K)}
    (has : ∀ a ∈ as, a.Within ts names) (h : OpenInv ts s.process C) :
    ∃ n s', run (sessionStep sh mem disk n) s as = some s' := by
  induction as generalizing s C with
  | nil => exact ⟨0, s, rfl⟩
  | cons a as ih =>
    have hone : ∃ m s₁ C₁, sessionStep sh mem disk m s a = some s₁ ∧ OpenInv ts s₁.process C₁ := by
      have hcalls : ∀ {b : Context.Action T K}, Context.Within ts b → ∃ s₁ C₁,
          callOf sh s b = some s₁ ∧ OpenInv ts s₁.process C₁ := by
        intro b hb
        obtain ⟨P₁, C₁, hs, h₁, -⟩ := Context.openInv_step sh hts h hb
        exact ⟨_, C₁, Option.map_eq_some_iff.mpr ⟨P₁, hs, rfl⟩, h₁⟩
      have ha := has a List.mem_cons_self
      cases a with
      | recorder a =>
        refine Context.step_returns sh mem hdisk hts h ?_
        rintro t now c rfl
        exact ha.1
      | threadInit t => exact ⟨0, hcalls (b := .threadInit t) ha⟩
      | frameEnd now => exact ⟨0, hcalls (b := .frameEnd now) trivial⟩
      | setPaused shouldPause => cases ha
    obtain ⟨m, s₁, C₁, hs, h₁⟩ := hone
    obtain ⟨n, s', hr⟩ := ih (fun b hb => has b (List.mem_cons_of_mem a hb)) h₁
    exact ⟨max m n, s', run_cons_some.mpr ⟨s₁, sessionStep_mono (le_max_left m n) hs,
      run_sessionStep_mono (le_max_right m n) hr⟩⟩

variable {P₀ : Process T K} {junk : Junk K} {main : T} {buffer : ℤ → ProfileEvent}

variable (mem sh names buffer) in
theorem whole_new (hinit : P₀.espInit junk main = some P) (hsession : OpenInv ts P C)
    (hlog : P.log = []) : Whole mem sh ts names (Recorder.new P junk buffer) C [] := by
  obtain ⟨C₁, hkept⟩ := @kept_new T K _ mem P P₀ junk main buffer hinit
  obtain rfl := Option.some.inj (hkept.context.symm.trans hsession.context)
  have hnone : (Recorder.new P junk buffer).process.offers = [] := by
    rw [Process.offers, Recorder.new, hlog]
    rfl
  refine ⟨hsession, Context.namesOk_nil hlog, ?_, ?_, List.forall_mem_nil _, hnone ▸ hkept⟩
  · intro x hx
    have hx' : x ∈ P.log := hx
    rw [hlog] at hx'
    cases hx'
  · obtain ⟨n, hn⟩ := Context.threadInit_context hinit rfl
    obtain rfl := Option.some.inj (hn.symm.trans hsession.context)
    exact lists_new sh

omit [DecidableEq T] [DecidableEq K] in
/-- A file of events that are none of the reader's names and of names that it takes. -/
theorem readable_file {records : List Record}
    (hevents : ∀ ev ∈ eventsOf records, ev.header.eventType ≠ EV_NEW_STRING)
    (hstrings : stringsOf records = (queuedNames put).map (stored mem))
    (htexts : ∀ k ∈ put, ∀ id, Readable (.string id (mem k))) : ∀ r ∈ records, Readable r := by
  intro r hr
  cases r with
  | event ev => exact hevents ev (List.mem_filterMap.mpr ⟨_, hr, rfl⟩)
  | string id text =>
    have ht : Record.string id text ∈ stringsOf records := List.mem_filterMap.mpr ⟨_, hr, rfl⟩
    rw [hstrings] at ht
    obtain ⟨q, hq, heq⟩ := List.mem_map.mp ht
    rw [← heq, stored_readable (htexts _ (mem_of_queued hq) _)]
    exact htexts _ (mem_of_queued hq) _

omit [DecidableEq T] [DecidableEq K] in
/-- The ids of the rows are those of the events. -/
theorem eventRows_ids {events : List ProfileEvent} (h : (events.map fun ev => ev.header.id).Nodup) :
    ((events.map eventRow).map EventRow.eventId).Nodup := by
  have hids : (events.map eventRow).map EventRow.eventId =
      (events.map fun ev => ev.header.id).map fun id => (id.toNat : ℤ) := by
    rw [List.map_map, List.map_map]
    rfl
  rw [hids]
  exact h.map fun a b hab => UInt32.toNat_inj.mp (Int.natCast_inj.mp hab)

omit [DecidableEq T] [DecidableEq K] in
theorem stringRows_ids (h : put.length < 2147483648) :
    (((queuedNames put).map fun q => stringRow q.id (mem q.ptr)).map StringRow.stringId).Nodup := by
  have hids : ((queuedNames put).map fun q => stringRow q.id (mem q.ptr)).map StringRow.stringId =
      ((queuedNames put).map RuntimeStringReference.id).map fun id => (id.toNat : ℤ) := by
    rw [List.map_map, List.map_map]
    rfl
  rw [hids]
  exact (Context.queuedNames_ids put h).map fun a b hab =>
    UInt32.toNat_inj.mp (Int.natCast_inj.mp hab)

/-- CORRECT: a session of nested calls by at most 64 threads returns, and where its names have room and
    texts that a reader takes, no event meets a full ring and the writer is asked for one more pass
    when the calls are over, the calls of each thread come back from the tables of its database: the
    rows of the thread, in any order, sorted by id, are its zones and samples, with the names, clock
    readings and values they were called with. -/
theorem rebuilt_run {Db : Type} {sq : Sqlite Db} {as : List (SessionAction T K)}
    {runThread : ℕ → Bool} {stop : ℕ}
    (hsq : Documented sq) (hcap : sh.capacity = espStringTableSize)
    (hdisk : ∀ n, ∃ m, n ≤ m ∧ 0 < disk m) (hts : ts.card ≤ espMaxThreadCount) (hmain : main ∈ ts)
    (hpaused : P₀.paused = false) (hfresh : ∀ t ∈ ts, P₀.threadContext t = none)
    (hinit : P₀.espInit junk main = some P) (hnames : names.card < stringQueueCapacity)
    (htexts : ∀ k ∈ names, ∀ id, Readable (.string id (mem k)))
    (has : ∀ a ∈ as, a.Within ts names)
    (hf : ∀ t ∈ ts, (f t).depth ≤ espMaxZoneRecursion ∧
      callsOf t (as.filterMap SessionAction.action?) = forestCalls (f t))
    (hstop : ∀ k, stop ≤ k → runThread k = false) :
    (∃ fuel s, run (sessionStep sh mem disk fuel) (Recorder.new P junk buffer) as = some s) ∧
    ∀ fuel s, run (sessionStep sh mem disk fuel) (Recorder.new P junk buffer) as = some s →
      s.process.log.length < 2147483647 →
      Meets (sessionStep sh mem disk fuel) (fun s a => offeredEvent sh s a ≠ none → eventsFull s = false)
        (Recorder.new P junk buffer) as →
      (runThread 0 = true ∨ s.writer.stillBusy = true) →
      ∃ C m w', s.process.context = some C ∧
        (∀ n, m ≤ n → drainLoop mem disk runThread n n 0 (onRings s.writer C) = some w') ∧
        ∀ file : List (Record × UInt32), file.map Prod.fst = w'.outputFile → ∀ n, file.length < n →
          ∃ db events strings number, uplift sq n none (emit file) = some db ∧
            sq.tables db = ⟨some events, some strings⟩ ∧
            Rebuilt mem ts f number events strings := by
  obtain ⟨P', C₀, hinit', hsession, hlog⟩ := Context.openInv_espInit hmain hpaused hfresh junk
  obtain rfl := Option.some.inj (hinit.symm.trans hinit')
  refine ⟨run_sessionStep_returns mem sh hdisk hts has hsession, ?_⟩
  intro fuel s hr hE hroom hgo
  have hring : stringQueueCapacity = 4096 := rfl
  have htable : espStringTableSize = 16384 := rfl
  -- from `esp_init` to the last call
  have h₁ : Whole mem sh ts names (Recorder.new P junk buffer) C₀ [] :=
    whole_new mem sh names buffer hinit hsession hlog
  obtain ⟨⟨C, put, h⟩, hlogs⟩ := h₁.run hts (by omega) hnames has hroom hr hE
  have hrecords : Records ts f s.process := by
    intro t ht
    refine ⟨(hf t ht).1, ?_⟩
    rw [hlogs t, ← (hf t ht).2, Process.logOf]
    exact congrArg (fun l => (List.filterMap _ l).map _ ++ _) hlog
  have hputs : put.length ≤ names.card := by
    rw [← List.toFinset_card_of_nodup h.table.nodup]
    exact Finset.card_le_card fun k hk => h.passed k (List.mem_toFinset.mp hk)
  have hoffers : s.process.offers.length ≤ s.process.log.length := List.length_filterMap_le _ _
  have hstamps : s.process.stamps.length ≤ s.process.log.length := List.length_filterMap_le _ _
  have hqueued : (queuedNames put).length = put.length := by rw [queuedNames, List.length_mapIdx]
  -- from the last call to the end of `DrainLoop`
  have hpass : (runThread 0 || (onRings s.writer C).stillBusy) = true := by
    rcases hgo with hrun | hbusy
    · rw [hrun, Bool.true_or]
    · exact (congrArg (runThread 0 || ·) hbusy).trans (Bool.or_true _)
  obtain ⟨tests, fuel', w', hw', hevents, hstrings⟩ := Writer.drainLoop_passes hdisk hstop
    h.kept.writer (by omega) (by omega) hpass
  refine ⟨C, max tests fuel', w', h.session.context, fun n hn =>
    hw' n n ((le_max_left _ _).trans hn) ((le_max_right _ _).trans hn), ?_⟩
  -- from the file to the tables
  intro file hfile n hn
  have hput : ∀ k ∈ put, ∀ id, Readable (.string id (mem k)) := fun k hk => htexts k (h.passed k hk)
  have hreadable : ∀ x ∈ file, Readable x.1 := fun x hx =>
    readable_file (hevents ▸ offers_stored hinit hr) hstrings hput x.1
      (hfile ▸ List.mem_map_of_mem hx)
  obtain ⟨db, hdb, htables⟩ := uplift_tables hsq none hreadable hn
  have hids := offers_ids hinit hr h.session.context (by rw [h.session.nextID]; omega)
  refine ⟨db, _, _, numberOf s.process, hdb, ?_, h.rebuilt hts hrecords hE⟩
  rw [htables, hfile, eventRows, hevents, stringRows_stored hstrings hput]
  exact congrArg₂ (fun e s => Tables.mk (some e) (some s))
    ((Keyed.insertAll_eq_iff (eventRows_ids hids)).mpr (Finset.empty_subset _))
    ((Keyed.insertAll_eq_iff (stringRows_ids (by omega))).mpr (Finset.empty_subset _))

/-- The two threads of `Context.twoForests`, with the end of a frame and a pass of the drain thread
    among their calls. -/
def twoSession : List (SessionAction Bool Addr) :=
  [.recorder (.record true 10 (.zone (some zoneName))),
    .recorder (.record false 11 (.zone (some zoneName))), .frameEnd 11,
    .recorder (.record true 12 (.sample (some probeName) (.int 7))), .recorder .drain,
    .recorder (.record false 13 .endZone), .recorder (.record true 14 .endZone)]

def twoTexts : Addr → List UInt8 := fun ptr => if ptr = zoneName then [122] else [112]

theorem rebuilt_run_twoSession : ∃ s C n w' db events strings number,
    run (sessionStep espStrings twoTexts steady 3) briefRecorder twoSession = some s ∧
      drainLoop twoTexts steady (fun k => k == 0) n n 0 (onRings s.writer C) = some w' ∧
      uplift plainSqlite (w'.outputFile.length + 1) none
        (emit (w'.outputFile.map fun r => (r, 0))) = some db ∧
      db = ⟨some events, some strings⟩ ∧
      Rebuilt twoTexts Finset.univ Context.twoForests number events strings := by
  have hlen : (run (sessionStep espStrings twoTexts steady 3) briefRecorder twoSession).map
      (fun s => s.process.log.length) = some 5 := by decide +kernel
  obtain ⟨s, hr, hlog⟩ := Option.map_eq_some_iff.mp hlen
  have htexts : ∀ k ∈ ({zoneName, probeName} : Finset Addr), ∀ id,
      Readable (.string id (twoTexts k)) := by
    intro k _ id
    rw [twoTexts]
    split <;> exact ⟨List.forall_mem_singleton.mpr (by decide), by decide⟩
  have hwithin : ∀ a ∈ twoSession, a.Within Finset.univ {zoneName, probeName} := by
    simp [twoSession, SessionAction.Within, Passes, Call.name]
  have hinit : Process.start.espInit (Junk.zero zoneName) true = some openedByTrue := rfl
  have hstop : ∀ k, 1 ≤ k → (fun k => k == 0) k = false := fun k hk =>
    beq_false_of_ne (Nat.ne_of_gt hk)
  have hcap : espStrings.capacity = espStringTableSize := rfl
  have hdisk : ∀ n, ∃ m, n ≤ m ∧ 0 < steady m := fun n => ⟨n, le_refl n, Nat.succ_pos 63⟩
  obtain ⟨-, hrebuilt⟩ := rebuilt_run (f := Context.twoForests) documented_plainSqlite hcap hdisk
    (show (Finset.univ : Finset Bool).card ≤ 64 by decide)
    (Finset.mem_univ true) rfl (fun _ _ => rfl) hinit (by decide) htexts hwithin (by decide) hstop
  obtain ⟨C, n, w', -, hw', hfile⟩ := hrebuilt 3 s hr (by omega) (by decide +kernel) (Or.inl rfl)
  have hmap : (w'.outputFile.map fun r => (r, (0 : UInt32))).map Prod.fst = w'.outputFile := by
    rw [List.map_map]
    exact List.map_id _
  obtain ⟨db, events, strings, number, hdb, htables, h⟩ := hfile _ hmap _
    (by rw [List.length_map]; exact Nat.lt_succ_self _)
  exact ⟨s, C, n, w', db, events, strings, number, hr, hw' n (le_refl n), hdb, htables, h⟩

end Esp.Uplift
