import Libesp.Schemes.Machine
import Libesp.Context.Context

/-! @esp context | name:ThreadContext | scheme:projection |
    source:src/Context.cpp (PeekParentID, StampEvent, Zone, End, Sample), src/profile.cpp

    The calls of one thread, seen on their own. A thread's stack is touched by its own calls only, and
    everything else a call takes from the session is in its stamp, so the log of a thread is a run of a
    stack machine (`LocalRun`) whatever the other threads do in between.

        log        t:zone  u:zone  t:sample  u:end  t:end
        logOf t    zone ─▶ sample ─▶ end                   a `LocalRun` from the empty stack

    `OpenInv` ties each thread's log to its slab and counts the ids and the thread contexts given out. -/

namespace Esp.Context
open Event PointerHash LocklessRing Slab Machine

variable {T K : Type}

/-- A zone on a thread's stack; the value of its event is not set yet and stands as `0`. -/
structure OpenZone where
  number : ℕ
  event : ProfileEvent

/-- The id `PeekParentID` returns on this stack. -/
def parentOf : List OpenZone → UInt32
  | [] => 0
  | z :: _ => z.event.header.id

/-- The event of a zone closed at `now`. -/
def closeAt (now : Int64) (ev : ProfileEvent) : ProfileEvent :=
  { ev with data := { ev.data with value := elapsed now ev.data.timestamp } }

def zoneEvent (i : ℕ) (parent frame : UInt32) (σ : Stamp) (now : Int64) : ProfileEvent :=
  ⟨⟨EV_ZONE_INTERVAL, σ.id⟩, ⟨UInt32.ofNat i, parent, frame, now, σ.nameRef, 0⟩⟩

def sampleEvent (i : ℕ) (parent frame : UInt32) (σ : Stamp) (now : Int64) (probe : Probe) :
    ProfileEvent :=
  ⟨⟨probe.eventType, σ.id⟩, ⟨UInt32.ofNat i, parent, frame, now, σ.nameRef, probe.value⟩⟩

/-- One call of the thread with context `i`, on a stack that takes `cap` zones. -/
inductive LocalStep (cap i : ℕ) : List OpenZone → Entry K → List OpenZone → Prop
  | zone {st n now name σ} (frame : UInt32) (h : st.length < cap) :
    LocalStep cap i st ⟨n, now, .zone name, some σ, none, none⟩
      (⟨n, zoneEvent i (parentOf st) frame σ now⟩ :: st)
  | overflow {st n now name} (h : st.length = cap) :
    LocalStep cap i st ⟨n, now, .zone name, none, none, none⟩ st
  | close {z st n now} :
    LocalStep cap i (z :: st) ⟨n, now, .endZone, none, some (closeAt now z.event), some z.number⟩ st
  | stray {n now} : LocalStep cap i [] ⟨n, now, .endZone, none, none, none⟩ []
  | sample {st n now name probe σ} (frame : UInt32) :
    LocalStep cap i st ⟨n, now, .sample name probe, some σ,
      some (sampleEvent i (parentOf st) frame σ now probe), none⟩ st

/-- The calls of a thread, one after the other. -/
inductive LocalRun (cap i : ℕ) : List OpenZone → List (Entry K) → List OpenZone → Prop
  | nil (st) : LocalRun cap i st [] st
  | cons {st st₁ st₂ e es} (h : LocalStep cap i st e st₁) (hr : LocalRun cap i st₁ es st₂) :
    LocalRun cap i st (e :: es) st₂

theorem LocalRun.snoc {cap i : ℕ} {st st₁ st₂ : List OpenZone} {es : List (Entry K)} {e : Entry K}
    (hr : LocalRun cap i st es st₁) (h : LocalStep cap i st₁ e st₂) :
    LocalRun cap i st (es ++ [e]) st₂ := by
  induction hr with
  | nil st => exact .cons h (.nil _)
  | cons h' _ ih => exact .cons h' (ih h)

/-- A run of two stretches stops between them. -/
theorem LocalRun.split {cap i : ℕ} {st st₂ : List OpenZone} {es es' : List (Entry K)}
    (hr : LocalRun cap i st (es ++ es') st₂) :
    ∃ st₁, LocalRun cap i st es st₁ ∧ LocalRun cap i st₁ es' st₂ := by
  induction es generalizing st with
  | nil => exact ⟨st, .nil st, hr⟩
  | cons e es ih =>
    cases hr with
    | cons h hr =>
      obtain ⟨st₁, h1, h2⟩ := ih hr
      exact ⟨st₁, .cons h h1, h2⟩

/-! ### The slab and the stack -/

/-- The event without its value, which a stamp leaves as it finds it. -/
def clear (ev : ProfileEvent) : ProfileEvent := { ev with data := { ev.data with value := 0 } }

/-- REFINEMENT: the thread's slab holds the zones of `st`. -/
structure StackOk (t : ThreadContext) (st : List OpenZone) : Prop where
  capacity : t.profileIntervalStack.capacity = espMaxZoneRecursion
  contents : t.profileIntervalStack.contents.map clear = st.map OpenZone.event
  openedBy : t.openedBy = st.map OpenZone.number

variable {t : ThreadContext} {st : List OpenZone} {C : ProfileContext K}

theorem StackOk.length_eq (h : StackOk t st) :
    t.profileIntervalStack.contents.length = st.length := by
  have := congrArg List.length h.contents
  rwa [List.length_map, List.length_map] at this

theorem stackOk_new (i : ℕ) (junk : ℕ → ProfileEvent) : StackOk (ThreadContext.new i junk) [] :=
  ⟨rfl, by rw [ThreadContext.new, contents_new]; rfl, rfl⟩

theorem StackOk.peekParentID (h : StackOk t st) : t.peekParentID = parentOf st := by
  have hcont := h.contents
  cases st with
  | nil =>
    rw [ThreadContext.peekParentID, peek_nil (List.map_eq_nil_iff.mp hcont)]
    rfl
  | cons z st =>
    obtain ⟨ev, evs, hev, hclear, -⟩ := List.map_eq_cons_iff.mp hcont
    obtain ⟨slot, hpeek, hslot⟩ := peek_cons hev
    rw [ThreadContext.peekParentID, hpeek]
    simp only [hslot, parentOf, ← hclear, clear]

variable [DecidableEq K] {sh : Shape K}

variable (sh) (C) in
/-- STEP: a recording call is a step of the stack machine, and the slab follows it. -/
theorem record_local (h : StackOk t st) (number : ℕ) (now : Int64) (c : Call K) :
    ∃ st', LocalStep espMaxZoneRecursion t.threadIndex st (t.record sh C number now c).entry st' ∧
      StackOk (t.record sh C number now c).thread st' := by
  have hparent := h.peekParentID
  cases c with
  | zone name =>
    rcases Nat.lt_or_ge st.length espMaxZoneRecursion with hlt | hge
    · obtain ⟨slot, s', hpush, hcap, hstore⟩ := @push_room _ t.profileIntervalStack
        (by rw [h.length_eq, h.capacity]; exact hlt)
      simp only [ThreadContext.record, ThreadContext.zone, hpush, hparent]
      refine ⟨_, .zone (UInt32.ofNat C.frameNumber) hlt, ⟨hcap.trans h.capacity, ?_, ?_⟩⟩
      · simp only [hstore, List.map_cons, h.contents]
        rfl
      · simp only [h.openedBy, List.map_cons]
    · have hfull : st.length = espMaxZoneRecursion := by
        have := contents_length_le t.profileIntervalStack
        rw [h.length_eq, h.capacity] at this
        omega
      have hpush : t.profileIntervalStack.push = none :=
        push_full (by rw [h.length_eq, h.capacity]; exact hfull)
      simp only [ThreadContext.record, ThreadContext.zone, hpush]
      exact ⟨st, .overflow hfull, h⟩
  | endZone =>
    have hcont := h.contents
    cases st with
    | nil =>
      have hpop : t.profileIntervalStack.pop = none := pop_empty (List.map_eq_nil_iff.mp hcont)
      simp only [ThreadContext.record, ThreadContext.endZone, hpop]
      exact ⟨[], .stray, h⟩
    | cons z st =>
      obtain ⟨ev, evs, hev, hclear, hevs⟩ := List.map_eq_cons_iff.mp hcont
      obtain ⟨slot, s', hpop, hslot, hcap, hstore⟩ := pop_cons hev
      have hevent : ({ ev with data := { ev.data with value := elapsed now ev.data.timestamp } } :
          ProfileEvent) = closeAt now z.event := by
        rw [← hclear]; rfl
      simp only [ThreadContext.record, ThreadContext.endZone, hpop, hslot, hevent, h.openedBy,
        List.map_cons, List.head?_cons, List.tail_cons]
      refine ⟨st, .close, ⟨hcap.trans h.capacity, ?_, rfl⟩⟩
      simp only [hstore, hevs]
  | sample name probe =>
    simp only [ThreadContext.record, ThreadContext.sample, hparent]
    exact ⟨st, .sample (UInt32.ofNat C.frameNumber), h⟩

/-! ### What a recording call does to the session -/

/-- The parts of the session that belong to the threads and the id counter are as they were. -/
structure Keeps (C D : ProfileContext K) : Prop where
  threadCount : D.threadCount = C.threadCount
  threadContexts : D.threadContexts = C.threadContexts
  nextMessageID : D.nextMessageID = C.nextMessageID

variable (sh) in
theorem keeps_mapString (C : ProfileContext K) (name : Option K) :
    Keeps C (C.mapStringToReference sh name).2 := by
  unfold ProfileContext.mapStringToReference
  simp only
  split
  · exact ⟨rfl, rfl, rfl⟩
  · split
    · split <;> exact ⟨rfl, rfl, rfl⟩
    · exact ⟨rfl, rfl, rfl⟩

variable (sh) in
/-- The entry of a call says what the call was. -/
theorem record_entry (t : ThreadContext) (C : ProfileContext K) (number : ℕ) (now : Int64)
    (c : Call K) :
    (t.record sh C number now c).entry.number = number ∧
      (t.record sh C number now c).entry.now = now ∧
      (t.record sh C number now c).entry.call = c ∧
      (t.record sh C number now c).thread.threadIndex = t.threadIndex := by
  cases c with
  | zone name =>
    simp only [ThreadContext.record, ThreadContext.zone]
    split <;> exact ⟨rfl, rfl, rfl, rfl⟩
  | endZone =>
    simp only [ThreadContext.record, ThreadContext.endZone]
    split <;> exact ⟨rfl, rfl, rfl, rfl⟩
  | sample name probe => exact ⟨rfl, rfl, rfl, rfl⟩

/-- The name a recording call passes to `MapStringToReference`, if it gets that far. -/
def ThreadContext.passes (t : ThreadContext) : Call K → Option (Option K)
  | .zone zoneName => t.profileIntervalStack.push.map fun _ => zoneName
  | .endZone => none
  | .sample probeName _ => some probeName

variable (sh) in
/-- A call stamps an event when it gets as far as `MapStringToReference`. -/
theorem record_stamp (t : ThreadContext) (C : ProfileContext K) (number : ℕ) (now : Int64)
    (c : Call K) : (t.record sh C number now c).entry.stamp = none ↔ t.passes c = none := by
  cases c with
  | zone name =>
    simp only [ThreadContext.record, ThreadContext.zone, ThreadContext.passes]
    rcases t.profileIntervalStack.push with _ | ⟨slot, stack⟩
    · exact ⟨fun _ => rfl, fun _ => rfl⟩
    · exact iff_of_false (Option.some_ne_none _) (Option.some_ne_none _)
  | endZone =>
    simp only [ThreadContext.record, ThreadContext.endZone]
    split <;> exact ⟨fun _ => rfl, fun _ => rfl⟩
  | sample name probe => exact iff_of_false (Option.some_ne_none _) (Option.some_ne_none _)

variable (sh) in
/-- A call that stamps takes the next id, and one that does not takes none. -/
theorem record_context (t : ThreadContext) (C : ProfileContext K) (number : ℕ) (now : Int64)
    (c : Call K) :
    (t.record sh C number now c).context.threadCount = C.threadCount ∧
    (t.record sh C number now c).context.threadContexts = C.threadContexts ∧
    ((t.record sh C number now c).entry.stamp = none ∧
        (t.record sh C number now c).context.nextMessageID = C.nextMessageID ∨
      ∃ σ, (t.record sh C number now c).entry.stamp = some σ ∧
        σ.id = UInt32.ofNat C.nextMessageID ∧
        (t.record sh C number now c).context.nextMessageID = C.nextMessageID + 1) := by
  cases c with
  | zone name =>
    simp only [ThreadContext.record, ThreadContext.zone]
    split
    · exact ⟨rfl, rfl, Or.inl ⟨rfl, rfl⟩⟩
    · have hk := keeps_mapString sh C.nextEventID.2 name
      exact ⟨hk.threadCount, hk.threadContexts, Or.inr ⟨_, rfl, rfl, hk.nextMessageID⟩⟩
  | endZone =>
    simp only [ThreadContext.record, ThreadContext.endZone]
    split <;> exact ⟨rfl, rfl, Or.inl ⟨rfl, rfl⟩⟩
  | sample name probe =>
    have hk := keeps_mapString sh C.nextEventID.2 name
    exact ⟨hk.threadCount, hk.threadContexts, Or.inr ⟨_, rfl, rfl, hk.nextMessageID⟩⟩

/-! ### The session -/

variable [DecidableEq T]

/-- The calls of thread `t`, in order. -/
def Process.logOf (P : Process T K) (t : T) : List (Entry K) :=
  P.log.filterMap fun x => if x.1 = t then some x.2 else none

/-- The events thread `t` has handed to `TryEnqueue`, in order. -/
def Process.offeredBy (P : Process T K) (t : T) : List ProfileEvent :=
  (P.logOf t).filterMap Entry.offered

/-- The stamps given out in the session, in order. -/
def Process.stamps (P : Process T K) : List Stamp := P.log.filterMap fun x => x.2.stamp

omit [DecidableEq K] in
/-- What is read off a thread's calls is read off the session's in the same order. -/
theorem Process.filterMap_logOf_sublist {α : Type} (P : Process T K) (t : T)
    (g : Entry K → Option α) :
    ((P.logOf t).filterMap g).Sublist (P.log.filterMap fun x => g x.2) := by
  rw [Process.logOf]
  induction P.log with
  | nil => exact List.Sublist.refl _
  | cons x l ih =>
    rcases x with ⟨u, e⟩
    by_cases hut : u = t
    · rcases hg : g e with _ | v <;> simp only [List.filterMap_cons, hut, if_true, hg]
      · exact ih
      · exact ih.cons_cons v
    · rcases hg : g e with _ | v <;> simp only [List.filterMap_cons, hut, if_false, hg]
      · exact ih
      · exact ih.cons v

/-- What thread `t` calls in a run, each call with its clock reading. -/
def callsOf (t : T) (as : List (Action T K)) : List (Int64 × Call K) :=
  as.filterMap fun a =>
    match a with
    | .record u now c => if u = t then some (now, c) else none
    | _ => none

def Entry.timed (e : Entry K) : Int64 × Call K := (e.now, e.call)

/-- The actions of threads in `ts`, none of which pauses the recording. -/
def Within (ts : Finset T) : Action T K → Prop
  | .record t _ _ => t ∈ ts
  | .threadInit t => t ∈ ts
  | .setPaused _ => False
  | _ => True

/-- INVARIANT: the threads `ts` record in the open session, each through a context of its own whose
    slab follows the thread's own calls. -/
structure OpenInv (ts : Finset T) (P : Process T K) (C : ProfileContext K) : Prop where
  context : P.context = some C
  paused : P.paused = false
  bound : ∀ t ∈ ts, ∀ p, P.threadContext t = some p → p.1 = P.session ∧ p.2 < C.threadCount
  inj : ∀ t ∈ ts, ∀ u ∈ ts, ∀ p, P.threadContext t = some p → P.threadContext u = some p → t = u
  count : C.threadCount = (ts.filter fun t => P.threadContext t ≠ none).card
  index : ∀ i, (C.threadContexts i).threadIndex = i
  silent : ∀ t ∈ ts, P.threadContext t = none → P.logOf t = []
  unused : ∀ i, C.threadCount ≤ i → StackOk (C.threadContexts i) []
  slabs : ∀ t ∈ ts, ∀ p, P.threadContext t = some p →
    ∃ st, LocalRun espMaxZoneRecursion p.2 [] (P.logOf t) st ∧ StackOk (C.threadContexts p.2) st
  ids : P.stamps.map Stamp.id = (List.range' 1 P.stamps.length).map UInt32.ofNat
  nextID : C.nextMessageID = P.stamps.length + 1
  numbers : P.log.map (fun x => x.2.number) = List.range P.log.length

variable {ts : Finset T} {P P' : Process T K} {C D : ProfileContext K} {u : T}

omit [DecidableEq K] in
theorem logOf_append (P : Process T K) (x : T × Entry K) :
    ({ P with log := P.log ++ [x] } : Process T K).logOf u =
      P.logOf u ++ if x.1 = u then [x.2] else [] := by
  rcases x with ⟨t, e⟩
  by_cases htu : t = u <;> simp [Process.logOf, htu]

omit [DecidableEq K] in
/-- What does not belong to the threads or the ids may change. -/
theorem OpenInv.keep (h : OpenInv ts P C) (hk : Keeps C D) :
    OpenInv ts { P with context := some D } D where
  context := rfl
  paused := h.paused
  bound := by rw [hk.threadCount]; exact h.bound
  inj := h.inj
  count := by rw [hk.threadCount]; exact h.count
  index := by rw [hk.threadContexts]; exact h.index
  silent := h.silent
  unused := by rw [hk.threadCount, hk.threadContexts]; exact h.unused
  slabs := by rw [hk.threadContexts]; exact h.slabs
  ids := h.ids
  nextID := by rw [hk.nextMessageID]; exact h.nextID
  numbers := h.numbers

/-- The contexts that the threads `ts` have by `ctx`: of this session, below the count, and no two of
    them the same. -/
structure Owners (ts : Finset T) (session count : ℕ) (ctx : T → Option (ℕ × ℕ)) : Prop where
  bound : ∀ t ∈ ts, ∀ p, ctx t = some p → p.1 = session ∧ p.2 < count
  inj : ∀ t ∈ ts, ∀ u ∈ ts, ∀ p, ctx t = some p → ctx u = some p → t = u

/-- The next context is nobody's. -/
theorem Owners.next {session count : ℕ} {ctx : T → Option (ℕ × ℕ)} (h : Owners ts session count ctx)
    (t : T) : Owners ts session (count + 1) (Function.update ctx t (some (session, count))) := by
  have hself : Function.update ctx t (some (session, count)) t = some (session, count) :=
    Function.update_self ..
  have hother : ∀ u, u ≠ t → Function.update ctx t (some (session, count)) u = ctx u := fun u hu =>
    Function.update_of_ne hu ..
  have hnew : ∀ u ∈ ts, u ≠ t → Function.update ctx t (some (session, count)) u ≠
      some (session, count) := by
    intro u hu hut hp
    rw [hother u hut] at hp
    exact absurd (h.bound u hu _ hp).2 (lt_irrefl _)
  refine ⟨?_, ?_⟩
  · intro u hu p hp
    by_cases hut : u = t
    · rw [hut, hself] at hp
      obtain rfl := Option.some.inj hp
      exact ⟨rfl, Nat.lt_succ_self _⟩
    · rw [hother u hut] at hp
      obtain ⟨hsession, hlt⟩ := h.bound u hu p hp
      exact ⟨hsession, Nat.lt_succ_of_lt hlt⟩
  · intro u hu v hv p hpu hpv
    by_cases hut : u = t <;> by_cases hvt : v = t
    · rw [hut, hvt]
    · rw [hut, hself] at hpu
      exact absurd (hpv.trans hpu.symm) (hnew v hv hvt)
    · rw [hvt, hself] at hpv
      exact absurd (hpu.trans hpv.symm) (hnew u hu hut)
    · rw [hother u hut] at hpu
      rw [hother v hvt] at hpv
      exact h.inj u hu v hv p hpu hpv

omit [DecidableEq K] in
/-- STEP: a thread's first call binds it to the next context. -/
theorem OpenInv.threadInit (h : OpenInv ts P C) {t : T} (ht : t ∈ ts) :
    ∃ P' C', P.espThreadInit t = some P' ∧ OpenInv ts P' C' ∧ P'.log = P.log ∧
      ∃ i, P'.threadContext t = some (P'.session, i) := by
  rcases hn : P.threadContext t with _ | p
  · have howners := Owners.next ⟨h.bound, h.inj⟩ t
    refine ⟨_, _, espThreadInit_fresh h.context hn, ⟨rfl, h.paused, howners.bound, howners.inj, ?_,
      h.index, ?_, ?_, ?_, h.ids, h.nextID, h.numbers⟩, rfl, C.threadCount,
      Function.update_self ..⟩
    · have hins : (ts.filter fun u => Function.update P.threadContext t
          (some (P.session, C.threadCount)) u ≠ none) =
          insert t (ts.filter fun u => P.threadContext u ≠ none) := by
        ext u
        by_cases hut : u = t
        · subst hut
          simp [ht]
        · simp [hut]
      simp only [hins]
      rw [Finset.card_insert_of_notMem (by simp [hn]), h.count]
    · intro u hu hp
      by_cases hut : u = t
      · subst hut
        simp only [Function.update_self] at hp
        cases hp
      · simp only [Function.update_of_ne hut] at hp
        exact h.silent u hu hp
    · intro i hi
      exact h.unused i ((Nat.le_succ _).trans hi)
    · intro u hu p hp
      by_cases hut : u = t
      · subst hut
        simp only [Function.update_self, Option.some.injEq] at hp
        have hlog : P.logOf u = [] := h.silent u hu hn
        refine ⟨[], ?_, ?_⟩
        · have : LocalRun espMaxZoneRecursion p.2 [] (P.logOf u) [] := by rw [hlog]; exact .nil _
          exact this
        · rw [← hp]
          exact h.unused _ (le_refl _)
      · simp only [Function.update_of_ne hut] at hp
        exact h.slabs u hu p hp
  · refine ⟨P, C, espThreadInit_again hn, h, rfl, p.2, ?_⟩
    rw [hn, ← (h.bound t ht p hn).1]

omit [DecidableEq K] [DecidableEq T] in
theorem stamps_append (P : Process T K) (x : T × Entry K) :
    ({ P with log := P.log ++ [x] } : Process T K).stamps = P.stamps ++ x.2.stamp.toList := by
  rcases x with ⟨t, ⟨n, now, c, _ | σ, o, d⟩⟩ <;> simp [Process.stamps]

omit [DecidableEq K] [DecidableEq T] in
/-- A call that takes the next id keeps the ids in a row, and one that takes none leaves them. -/
theorem ids_record {P : Process T K} {t : T} {e : Entry K} {m m' : ℕ}
    (hids : P.stamps.map Stamp.id = (List.range' 1 P.stamps.length).map UInt32.ofNat)
    (hm : m = P.stamps.length + 1)
    (he : e.stamp = none ∧ m' = m ∨ ∃ σ, e.stamp = some σ ∧ σ.id = UInt32.ofNat m ∧ m' = m + 1) :
    let P' : Process T K := { P with log := P.log ++ [(t, e)] }
    P'.stamps.map Stamp.id = (List.range' 1 P'.stamps.length).map UInt32.ofNat ∧
      m' = P'.stamps.length + 1 := by
  intro P'
  have hst : P'.stamps = P.stamps ++ e.stamp.toList := stamps_append P (t, e)
  rw [hst]
  rcases he with ⟨hn, rfl⟩ | ⟨σ, hσ, hid, rfl⟩
  · rw [hn, Option.toList_none, List.append_nil]
    exact ⟨hids, hm⟩
  · rw [hσ, Option.toList_some, List.length_append, List.length_singleton, ← hm]
    refine ⟨?_, rfl⟩
    rw [hm, List.range'_1_concat, List.map_append, List.map_append, hids, List.map_singleton,
      List.map_singleton, hid, hm, Nat.add_comm 1]

variable (sh) in
/-- The process after a recorded call of `t`, whose context is the `i`-th of the open session. -/
def Process.recordIn (P : Process T K) (C : ProfileContext K) (t : T) (i : ℕ) (now : Int64)
    (c : Call K) : Process T K :=
  let got := (C.threadContexts i).record sh C P.log.length now c
  { P with
    context := some { got.context with
      threadContexts := Function.update got.context.threadContexts i got.thread }
    log := P.log ++ [(t, got.entry)] }

variable (sh) in
theorem espRecord_bound {t : T} {i : ℕ} (hp : P.paused = false) (hC : P.context = some C)
    (ht : P.threadContext t = some (P.session, i)) (hi : i < espMaxThreadCount) (now : Int64)
    (c : Call K) : P.espRecord sh t now c = some (P.recordIn sh C t i now c) := by
  rw [Process.espRecord, if_neg (by rw [hp]; nofun), espThreadInit_again ht, Option.bind_some]
  simp only [hC, ht]
  rw [if_pos ⟨trivial, hi⟩]
  rfl

/-- INVERSION: a recording call finds the recording paused, or no session open behind the pointer its
    thread has, or records through a context of the open session. -/
theorem espRecord_cases {t : T} {now : Int64} {c : Call K} (h : P.espRecord sh t now c = some P') :
    (P.paused = true ∧ P' = P) ∨
    (P.paused = false ∧ P.espThreadInit t = some P' ∧ P'.context = none) ∨
    (P.paused = false ∧ ∃ P₁ C i, P.espThreadInit t = some P₁ ∧ P₁.context = some C ∧
      P₁.threadContext t = some (P₁.session, i) ∧ i < espMaxThreadCount ∧
      P' = P₁.recordIn sh C t i now c) := by
  unfold Process.espRecord at h
  split at h
  · rename_i hp
    exact Or.inl ⟨hp, (Option.some.inj h).symm⟩
  · rename_i hp
    have hp : P.paused = false := eq_false_of_ne_true hp
    obtain ⟨P₁, hinit, hrest⟩ := Option.bind_eq_some_iff.mp h
    split at hrest
    · rename_i hC
      obtain rfl := Option.some.inj hrest
      exact Or.inr (Or.inl ⟨hp, hinit, hC⟩)
    · cases hrest
    · rename_i C session i hC hctx
      split at hrest
      · rename_i hvalid
        obtain ⟨rfl, hi⟩ := hvalid
        exact Or.inr (Or.inr ⟨hp, P₁, C, i, hinit, hC, hctx, hi, (Option.some.inj hrest).symm⟩)
      · cases hrest

variable (sh) in
/-- A recording call is that call made after `InitThread`. -/
theorem espRecord_threadInit {P₁ : Process T K} {t : T} (hp : P.paused = false)
    (hinit : P.espThreadInit t = some P₁) (now : Int64) (c : Call K) :
    P.espRecord sh t now c = P₁.espRecord sh t now c := by
  obtain ⟨hagain, hp₁⟩ := espThreadInit_idem hinit
  rw [Process.espRecord, Process.espRecord, if_neg (by rw [hp]; exact Bool.false_ne_true),
    if_neg (by rw [hp₁, hp]; exact Bool.false_ne_true), hinit, hagain]

variable (sh) in
/-- A recorded call of a thread that gets its context first. -/
theorem espRecord_init {P₁ : Process T K} {t : T} {i : ℕ} (hp : P.paused = false)
    (hinit : P.espThreadInit t = some P₁) (hC : P₁.context = some C)
    (ht : P₁.threadContext t = some (P₁.session, i)) (hi : i < espMaxThreadCount) (now : Int64)
    (c : Call K) : P.espRecord sh t now c = some (P₁.recordIn sh C t i now c) :=
  (espRecord_threadInit sh hp hinit now c).trans
    (espRecord_bound sh ((espThreadInit_idem hinit).2.trans hp) hC ht hi now c)

variable (sh) in
/-- STEP: a thread that has a context records one call in it. -/
theorem OpenInv.recordBound (h : OpenInv ts P C) {t : T} (ht : t ∈ ts) {i : ℕ}
    (hp : P.threadContext t = some (P.session, i)) (now : Int64) (c : Call K) :
    ∃ C', OpenInv ts (P.recordIn sh C t i now c) C' := by
  unfold Process.recordIn
  obtain ⟨st, hrun, hst⟩ := h.slabs t ht _ hp
  obtain ⟨st', hstep, hst'⟩ := record_local C sh hst P.log.length now c
  obtain ⟨hnum, -, -, hidx⟩ := record_entry sh (C.threadContexts i) C P.log.length now c
  obtain ⟨hcount, hctx, hid⟩ := record_context sh (C.threadContexts i) C P.log.length now c
  rw [h.index i] at hstep hidx
  generalize (C.threadContexts i).record sh C P.log.length now c = got at *
  have hother : ∀ u, u ≠ t → ({ P with log := P.log ++ [(t, got.entry)] } : Process T K).logOf u =
      P.logOf u := by
    intro u hut
    rw [logOf_append, if_neg (Ne.symm hut), List.append_nil]
  refine ⟨_, ⟨rfl, h.paused, ?_, h.inj, ?_, ?_, ?_, ?_, ?_, ?_, ?_, ?_⟩⟩
  · intro u hu p hpu
    rw [hcount]
    exact h.bound u hu p hpu
  · rw [hcount]
    exact h.count
  · intro j
    by_cases hj : j = i
    · subst hj
      simp only [Function.update_self, hidx]
    · simp only [Function.update_of_ne hj, hctx, h.index j]
  · intro u hu hn
    have hut : u ≠ t := by rintro rfl; rw [hp] at hn; cases hn
    exact (hother u hut).trans (h.silent u hu hn)
  · intro j hj
    rw [hcount] at hj
    have hji : j ≠ i := by
      rintro rfl
      exact absurd (h.bound t ht _ hp).2 (not_lt.mpr hj)
    simp only [Function.update_of_ne hji, hctx]
    exact h.unused j hj
  · intro u hu p hpu
    by_cases hut : u = t
    · subst hut
      rw [hp] at hpu
      obtain rfl := Option.some.inj hpu
      refine ⟨st', ?_, by simp only [Function.update_self]; exact hst'⟩
      have hlog := logOf_append P (u, got.entry) (u := u)
      rw [if_pos rfl] at hlog
      have := hrun.snoc hstep
      rw [← hlog] at this
      exact this
    · have hpi : p.2 ≠ i := by
        intro he
        have hsess := (h.bound u hu p hpu).1
        have hpp : p = (P.session, i) := Prod.ext hsess he
        exact hut (h.inj u hu t ht p hpu (hpp ▸ hp))
      obtain ⟨st₂, hrun₂, hst₂⟩ := h.slabs u hu p hpu
      refine ⟨st₂, ?_, by simp only [Function.update_of_ne hpi, hctx]; exact hst₂⟩
      rw [← hother u hut] at hrun₂
      exact hrun₂
  · exact (ids_record h.ids h.nextID hid).1
  · exact (ids_record h.ids h.nextID hid).2
  · simp only [List.map_append, List.map_cons, List.map_nil, hnum, h.numbers, List.length_append,
      List.length_singleton, List.range_succ]

omit [DecidableEq K] in
theorem OpenInv.count_le (h : OpenInv ts P C) : C.threadCount ≤ ts.card := by
  rw [h.count]
  exact Finset.card_filter_le _ _

omit [DecidableEq K] in
theorem OpenInv.mapContext (h : OpenInv ts P C) {f : ProfileContext K → ProfileContext K}
    (hf : Keeps C (f C)) :
    ∃ P' C', P.mapContext f = some P' ∧ OpenInv ts P' C' ∧ P'.log = P.log :=
  ⟨_, _, mapContext_some h.context f, h.keep hf, rfl⟩

/-- STEP: with no more threads than contexts, every recording call is defined, keeps the invariant
    and is logged. -/
theorem OpenInv.record (h : OpenInv ts P C) (hts : ts.card ≤ espMaxThreadCount) {t : T}
    (ht : t ∈ ts) (now : Int64) (c : Call K) :
    ∃ P' C', P.espRecord sh t now c = some P' ∧ OpenInv ts P' C' ∧
      ∃ e, P'.log = P.log ++ [(t, e)] ∧ e.timed = (now, c) := by
  obtain ⟨P₁, C₁, hinit, h₁, hlog, i, hi⟩ := h.threadInit ht
  obtain ⟨C', h'⟩ := h₁.recordBound sh ht hi now c
  have hlt : i < espMaxThreadCount :=
    lt_of_lt_of_le (lt_of_lt_of_le (h₁.bound t ht _ hi).2 h₁.count_le) hts
  obtain ⟨-, hnow, hcall, -⟩ := record_entry sh (C₁.threadContexts i) C₁ P₁.log.length now c
  exact ⟨_, C', espRecord_init sh h.paused hinit h₁.context hi hlt now c, h', _,
    congrArg (· ++ _) hlog, Prod.ext hnow hcall⟩

omit [DecidableEq K] in
theorem logs_same (hlog : P'.log = P.log) (u : T) :
    (P'.logOf u).map Entry.timed = (P.logOf u).map Entry.timed ++ [] := by
  rw [Process.logOf, hlog, Process.logOf, List.append_nil]

variable (sh) in
/-- STEP: every action of the threads `ts` is defined, keeps the invariant, and logs what it calls. -/
theorem openInv_step (hts : ts.card ≤ espMaxThreadCount) (h : OpenInv ts P C) {a : Action T K}
    (ha : Within ts a) :
    ∃ P' C', step sh P a = some P' ∧ OpenInv ts P' C' ∧
      ∀ u, (P'.logOf u).map Entry.timed = (P.logOf u).map Entry.timed ++ callsOf u [a] := by
  cases a with
  | record t now c =>
    obtain ⟨P', C', hs, h', e, hlog, he⟩ := h.record hts ha now c
    refine ⟨P', C', hs, h', ?_⟩
    intro u
    have happ := logOf_append P (t, e) (u := u)
    have hlog' : P'.logOf u = P.logOf u ++ if t = u then [e] else [] := by
      rw [← happ, Process.logOf, hlog, Process.logOf]
    rw [hlog', List.map_append]
    by_cases htu : t = u <;> simp [callsOf, htu, he]
  | threadInit t =>
    obtain ⟨P', C', hs, h', hlog, -⟩ := h.threadInit ha
    exact ⟨P', C', hs, h', logs_same hlog⟩
  | frameEnd now =>
    obtain ⟨P', C', hs, h', hlog⟩ := h.mapContext (f := fun C => C.frameEnd now) ⟨rfl, rfl, rfl⟩
    exact ⟨P', C', hs, h', logs_same hlog⟩
  | setPaused b => cases ha
  | drainEvents n =>
    obtain ⟨P', C', hs, h', hlog⟩ := h.mapContext (f := fun C =>
      { C with eventQueue := (C.eventQueue.tryDequeueBulk espMaxEventBuffer n).2 }) ⟨rfl, rfl, rfl⟩
    exact ⟨P', C', hs, h', logs_same hlog⟩
  | drainString =>
    obtain ⟨P', C', hs, h', hlog⟩ := h.mapContext (f := fun C =>
      { C with stringQueue := (C.stringQueue.tryDequeue stringQueueCapacity).2 }) ⟨rfl, rfl, rfl⟩
    exact ⟨P', C', hs, h', logs_same hlog⟩

variable (sh) in
/-- RUN: a run of the threads `ts` is defined, keeps the invariant, and logs what each thread calls. -/
theorem openInv_run (hts : ts.card ≤ espMaxThreadCount) {as : List (Action T K)}
    (has : ∀ a ∈ as, Within ts a) (h : OpenInv ts P C) :
    ∃ P' C', run (step sh) P as = some P' ∧ OpenInv ts P' C' ∧
      ∀ u, (P'.logOf u).map Entry.timed = (P.logOf u).map Entry.timed ++ callsOf u as := by
  induction as generalizing P C with
  | nil => exact ⟨P, C, rfl, h, fun u => (List.append_nil _).symm⟩
  | cons a as ih =>
    obtain ⟨P₁, C₁, hs, h₁, hl₁⟩ := openInv_step sh hts h (has a List.mem_cons_self)
    obtain ⟨P', C', hr, h', hl⟩ := ih (fun b hb => has b (List.mem_cons_of_mem a hb)) h₁
    refine ⟨P', C', run_cons_some.mpr ⟨P₁, hs, hr⟩, h', ?_⟩
    intro u
    rw [hl u, hl₁ u, List.append_assoc]
    exact congrArg _ (List.filterMap_append (l := [a])).symm

omit [DecidableEq K] in
/-- The log of a thread is a run of the stack machine. -/
theorem OpenInv.localRun (h : OpenInv ts P C) {t : T} (ht : t ∈ ts) :
    ∃ i st, LocalRun espMaxZoneRecursion i [] (P.logOf t) st := by
  rcases hp : P.threadContext t with _ | p
  · refine ⟨0, [], ?_⟩
    rw [h.silent t ht hp]
    exact .nil []
  · obtain ⟨st, hrun, -⟩ := h.slabs t ht p hp
    exact ⟨p.2, st, hrun⟩

omit [DecidableEq K] in
/-- `esp_init` opens a session for threads that have no context yet. -/
theorem openInv_espInit {main : T} (hmain : main ∈ ts) (hpaused : P.paused = false)
    (hfresh : ∀ t ∈ ts, P.threadContext t = none) (junk : Junk K) :
    ∃ P' C', P.espInit junk main = some P' ∧ OpenInv ts P' C' ∧ P'.log = [] := by
  have h : OpenInv ts ({ P with
      session := P.session + 1
      context := some (ProfileContext.new junk)
      log := [] } : Process T K) (ProfileContext.new junk) := by
    refine ⟨rfl, hpaused, ?_, ?_, ?_, fun _ => rfl,
      fun _ _ _ => rfl, fun i _ => stackOk_new i _, ?_, rfl, rfl, rfl⟩
    · intro t ht p hp
      simp only [hfresh t ht] at hp; cases hp
    · intro t ht _ _ p hp
      simp only [hfresh t ht] at hp; cases hp
    · rw [Finset.filter_eq_empty_iff.mpr fun t ht => not_not_intro (hfresh t ht)]
      rfl
    · intro t ht p hp
      simp only [hfresh t ht] at hp; cases hp
  obtain ⟨P', C', hinit, h', hlog, -⟩ := h.threadInit hmain
  exact ⟨P', C', hinit, h', hlog⟩

end Esp.Context
