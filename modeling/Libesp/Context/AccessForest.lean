import Libesp.Context.CallForest
import Libesp.Context.AccessEffects
import Libesp.Context.EventIds
import Libesp.Map.HashReferences

/-! @esp context | name:ThreadContext, ProfileContext | scheme:projection |
    source:src/profile.cpp, src/Context.cpp (InitThread, Zone, End, Sample, PeekParentID, StampEvent,
    NextEventID, MapStringToReference)

    The call forest of a thread whatever comes between two accesses of its calls. The ids of two threads
    cross, their events reach the ring in another order than their ids, and a name may be answered late;
    but the stack is the thread's own, its ids increase, and so its events are still its forest.

        t   draw 1 ──────────────── map "a" ── end, offer 1
        u            draw 2 ── map "a" ── offer 2
        ring                                2      1 -/

namespace Esp.Accesses
open Event PointerHash LocklessRing Context Machine Brackets Tickets
open HashThreads (nameA nameB)

variable {T K : Type} [DecidableEq T] [DecidableEq K] {sh : Shape K} {s s' : State T K} {t u : T}

/-! ### What a thread has called, drawn, been answered and handed on -/

/-- The recording calls that thread `t` makes, in order. -/
def callsOf (t : T) (as : List (Action T K)) : List (Call K) :=
  as.filterMap fun a =>
    match a with
    | .call u c => if u = t then some c else none
    | _ => none

/-- The calls of thread `t`, the one it is in included. -/
def State.calls (s : State T K) (t : T) : List (Call K) :=
  (s.logOf t).map Entry.call ++ (s.view t).call.toList

/-- The ids of thread `t`, in the order in which it drew them. -/
def State.idsOf (s : State T K) (t : T) : List UInt32 :=
  (s.logOf t).filterMap (fun e => e.stamp.map Stamp.id) ++
    ((s.view t).stamping.map fun x => x.2.2).toList

/-- The events of thread `t`, in the order in which its calls hand them to `TryEnqueue`. -/
def State.offeredBy (s : State T K) (t : T) : List ProfileEvent :=
  (s.logOf t).filterMap Entry.offered

/-- The name and the reference of a call that stamps. -/
def namedRef (e : Entry K) : Option (Option K × UInt32) :=
  e.stamp.map fun σ => (e.call.name, σ.nameRef)

/-- The answers of the string table to thread `t`, each with the name it was asked for. -/
def State.answersTo (s : State T K) (t : T) : List (Option K × UInt32) :=
  (s.strings.returnsTo t).map fun x => (x.ptr, x.ref)

/-- INVARIANT: the ids of the threads are the tickets of `NextEventID`, their stamped references the
    answers of the table, and what the event ring was called with is what they have handed on. -/
structure Follows (draws : List (T × ℕ)) (rs : List (RingThreads.Action T ProfileEvent))
    (junk : ℤ → ProfileEvent) (s : State T K) : Prop where
  inTurn : InTurn draws
  next : s.nextMessageID = draws.length + 1
  ids : ∀ t, s.idsOf t = (own draws t).map UInt32.ofNat
  answers : ∀ t, s.answersTo t = (s.logOf t).filterMap namedRef
  ring : run (RingThreads.step espMaxEventBuffer) (.new junk) rs = some s.eventQueue
  enqueued : ∀ t, RingThreads.enqueuedBy t rs ++ (s.view t).event.toList = s.offeredBy t

variable {draws : List (T × ℕ)} {rs : List (RingThreads.Action T ProfileEvent)}
  {junk : ℤ → ProfileEvent}

omit [DecidableEq K] in
theorem follows_new (junk : Junk K) : Follows [] [] junk.events (State.new junk : State T K) where
  inTurn := inTurn_nil
  next := rfl
  ids := fun _ => rfl
  answers := fun _ => rfl
  ring := rfl
  enqueued := fun _ => rfl

omit [DecidableEq K] in
theorem enqueuedBy_concat (t : T) (rs : List (RingThreads.Action T ProfileEvent))
    (b : RingThreads.Action T ProfileEvent) : RingThreads.enqueuedBy t (rs ++ [b]) =
      RingThreads.enqueuedBy t rs ++ RingThreads.enqueuedBy t [b] :=
  List.filterMap_append

omit [DecidableEq K] in
/-- A step of the event ring that is no call of `TryEnqueue`. -/
theorem ringStays_run (hring : run (RingThreads.step espMaxEventBuffer) (.new junk) rs =
      some s.eventQueue) (hstays : RingStays s s') :
    ∃ rs', run (RingThreads.step espMaxEventBuffer) (.new junk) rs' = some s'.eventQueue ∧
      ∀ t, RingThreads.enqueuedBy t rs' = RingThreads.enqueuedBy t rs := by
  rcases hstays with he | ⟨b, hb, hs⟩
  · exact ⟨rs, he ▸ hring, fun _ => rfl⟩
  · refine ⟨rs ++ [b], ?_, ?_⟩
    · rw [run_append, hring, Option.bind_some, run_cons, hs]
      rfl
    · intro t
      rw [enqueuedBy_concat]
      cases b with
      | enqueue u v => exact absurd rfl (hb u v)
      | _ => exact List.append_nil _

omit [DecidableEq K] in
theorem answersTo_same (h : s'.strings.returned = s.strings.returned) (t : T) :
    s'.answersTo t = s.answersTo t := by
  rw [State.answersTo, HashThreads.State.returnsTo, h]
  rfl

omit [DecidableEq K] in
/-- STEP: nothing but the ring moves, and what a thread may still call. -/
theorem Follows.quiet (h : Follows draws rs junk s)
    (hstamping : ∀ u, (s'.view u).stamping = (s.view u).stamping)
    (hevent : ∀ u, (s'.view u).event = (s.view u).event)
    (hids : s'.nextMessageID = s.nextMessageID) (hlog : s'.log = s.log)
    (hreturned : s'.strings.returned = s.strings.returned) (hevents : RingStays s s') :
    ∃ rs', Follows draws rs' junk s' := by
  obtain ⟨rs', hrun, henq⟩ := ringStays_run h.ring hevents
  have hlogOf := logOf_congr hlog
  refine ⟨rs', h.inTurn, hids.trans h.next, ?_, ?_, hrun, ?_⟩
  · intro u
    rw [State.idsOf, hlogOf, hstamping]
    exact h.ids u
  · intro u
    rw [answersTo_same hreturned, hlogOf]
    exact h.answers u
  · intro u
    rw [henq, hevent, State.offeredBy, hlogOf]
    exact h.enqueued u

omit [DecidableEq K] in
/-- STEP: `NextEventID`. -/
theorem Follows.draw (h : Follows draws rs junk s) {i : ℕ} {c : Call K}
    (hbefore : s.view t = ⟨some c, none, none⟩)
    (hview : s'.view t = ⟨some c, some (i, c, UInt32.ofNat s.nextMessageID), none⟩)
    (hothers : ∀ u, u ≠ t → s'.view u = s.view u) (hids : s'.nextMessageID = s.nextMessageID + 1)
    (hlog : s'.log = s.log) (hreturned : s'.strings.returned = s.strings.returned)
    (hevents : RingStays s s') :
    ∃ rs', Follows (draws ++ [(t, draws.length + 1)]) rs' junk s' := by
  obtain ⟨rs', hrun, henq⟩ := ringStays_run h.ring hevents
  have hlogOf := logOf_congr hlog
  refine ⟨rs', h.inTurn.draw t, ?_, ?_, ?_, hrun, ?_⟩
  · rw [hids, h.next, List.length_append, List.length_singleton]
  · intro u
    rw [own_concat, List.map_append, ← h.ids u, State.idsOf, State.idsOf, hlogOf, List.append_assoc]
    refine congrArg _ ?_
    by_cases hut : u = t
    · rw [hut, hview, hbefore, if_pos rfl, ← h.next]
      rfl
    · rw [hothers u hut, if_neg (Ne.symm hut)]
      exact (List.append_nil _).symm
  · intro u
    rw [answersTo_same hreturned, hlogOf]
    exact h.answers u
  · intro u
    rw [henq, view_part View.event hbefore hview hothers rfl, State.offeredBy, hlogOf]
    exact h.enqueued u

omit [DecidableEq K] in
theorem filterMap_single {α β : Type} (g : α → Option β) (x : α) :
    [x].filterMap g = (g x).toList := by
  cases hx : g x <;> simp [hx]

omit [DecidableEq K] in
/-- STEP: a record puts into the log what was pending, and its event on the way to the ring. -/
theorem Follows.records (h : Follows draws rs junk s) {i : ℕ} {c : Call K} {r : Reads}
    {nameRef : UInt32} {x : Option (ℕ × Call K × UInt32)} (hbefore : s.view t = ⟨some c, x, none⟩)
    (hid : (((s.threadContexts i).recordWith s.log.length c r nameRef).2.stamp.map Stamp.id) =
      x.map fun x => x.2.2)
    (hanswers : ∀ u, s'.answersTo u = s.answersTo u ++
      if t = u then (namedRef ((s.threadContexts i).recordWith s.log.length c r nameRef).2).toList
      else []) (hr : Records s s' t i c r nameRef) : ∃ rs', Follows draws rs' junk s' := by
  obtain ⟨rs', hrun, henq⟩ := ringStays_run h.ring hr.eventQueue
  refine ⟨rs', h.inTurn, hr.nextMessageID.trans h.next, ?_, ?_, hrun, ?_⟩
  · intro u
    rw [← h.ids u, State.idsOf, State.idsOf, hr.logOf, List.filterMap_append, List.append_assoc]
    refine congrArg _ ?_
    by_cases hut : u = t
    · rw [hut, if_pos rfl, hr.view, hbefore, ← hid, Option.map_none, Option.toList_none,
        List.append_nil, filterMap_single]
    · rw [if_neg (Ne.symm hut), hr.others u hut]
      rfl
  · intro u
    rw [hanswers, h.answers u, hr.logOf, List.filterMap_append]
    refine congrArg _ ?_
    by_cases hut : t = u
    · rw [if_pos hut, if_pos hut, filterMap_single]
    · rw [if_neg hut, if_neg hut]
      rfl
  · intro u
    rw [henq, State.offeredBy, hr.logOf, List.filterMap_append, ← State.offeredBy, ← h.enqueued u,
      List.append_assoc]
    refine congrArg _ ?_
    by_cases hut : u = t
    · rw [hut, if_pos rfl, hr.view, hbefore, filterMap_single]
      rfl
    · rw [if_neg (Ne.symm hut), hr.others u hut]
      exact (List.append_nil _).symm

omit [DecidableEq K] in
/-- STEP: the call of `TryEnqueue`. -/
theorem Follows.offer (h : Follows draws rs junk s) {event : ProfileEvent}
    (hbefore : s.view t = ⟨none, none, some event⟩) (hview : s'.view t = ⟨none, none, none⟩)
    (hothers : ∀ u, u ≠ t → s'.view u = s.view u) (hrest : Rest s s')
    (hreturned : s'.strings.returned = s.strings.returned)
    (hring : RingThreads.step espMaxEventBuffer s.eventQueue (.enqueue t event) =
      some s'.eventQueue) : Follows draws (rs ++ [.enqueue t event]) junk s' := by
  have hlogOf := logOf_congr hrest.log
  refine ⟨h.inTurn, hrest.nextMessageID.trans h.next, ?_, ?_, ?_, ?_⟩
  · intro u
    rw [State.idsOf, hlogOf, view_part View.stamping hbefore hview hothers rfl]
    exact h.ids u
  · intro u
    rw [answersTo_same hreturned, hlogOf]
    exact h.answers u
  · rw [run_append, h.ring, Option.bind_some, run_cons, hring]
    rfl
  · intro u
    rw [enqueuedBy_concat, State.offeredBy, hlogOf, ← State.offeredBy, ← h.enqueued u,
      List.append_assoc]
    refine congrArg _ ?_
    by_cases hut : u = t
    · rw [hut, hview, hbefore]
      simp [RingThreads.enqueuedBy]
    · rw [hothers u hut]
      simp [RingThreads.enqueuedBy, Ne.symm hut]

omit [DecidableEq K] in
/-- STEP: an access adds to the ids, the answers and the calls of the ring what it draws, is answered
    and hands on. -/
theorem Follows.effect (h : Follows draws rs junk s) (hc : Contexts s) {a : Action T K}
    (he : Effect s a s') : ∃ draws' rs', Follows draws' rs' junk s' := by
  cases he with
  | quiet ha hview hrest hreturned hevents =>
    exact ⟨draws, h.quiet (fun u => congrArg View.stamping (hview u))
      (fun u => congrArg View.event (hview u)) hrest.nextMessageID hrest.log hreturned hevents⟩
  | @call t c _ hbefore hview hothers hrest hreturned hevents =>
    exact ⟨draws, h.quiet (view_part View.stamping hbefore hview hothers rfl)
      (view_part View.event hbefore hview hothers rfl) hrest.nextMessageID hrest.log hreturned hevents⟩
  | turnBack hpaused hbefore hview hothers hrest hreturned hevents =>
    exact ⟨draws, h.quiet (view_part View.stamping hbefore hview hothers rfl)
      (view_part View.event hbefore hview hothers rfl) hrest.nextMessageID hrest.log hreturned hevents⟩
  | init ha hview hctx hcount hcontexts hids hlog hreturned hevents =>
    exact ⟨draws, h.quiet (fun u => congrArg View.stamping (hview u))
      (fun u => congrArg View.event (hview u)) hids hlog hreturned hevents⟩
  | draw hctx hpasses hbefore hview hothers hcount hctx' hcontexts hids hlog hreturned hevents =>
    exact ⟨_, h.draw hbefore hview hothers hids hlog hreturned hevents⟩
  | @unstamped t i c r _ hctx hpasses hbefore hrecords hreturned =>
    have hstamp := recordWith_stamp (s.threadContexts i) s.log.length c r noRef
    rw [hpasses, Option.map_none] at hstamp
    refine ⟨draws, h.records hbefore (by rw [hstamp]; rfl) ?_ hrecords⟩
    intro u
    rw [answersTo_same hreturned, namedRef, hstamp, Option.map_none, Option.toList_none, ite_self,
      List.append_nil]
  | @stamped _ t i c r ref v tbl _ ha hctx hbefore href hrecords hreturned =>
    obtain ⟨-, hpasses⟩ := hc.passes t i c r.id (by rw [hbefore])
    have hstamp := recordWith_stamp (s.threadContexts i) s.log.length c r ref
    rw [hpasses, Option.map_some] at hstamp
    obtain ⟨hcall, -⟩ := recordWith_entry (s.threadContexts i) s.log.length c r ref
    refine ⟨draws, h.records hbefore (by rw [hstamp]; rfl) ?_ hrecords⟩
    intro u
    rw [namedRef, hstamp, hcall, State.answersTo, HashThreads.State.returnsTo, hreturned,
      List.filter_append, List.map_append]
    refine congrArg (s.answersTo u ++ ·) ?_
    by_cases htu : t = u
    · rw [if_pos htu, List.filter_singleton, decide_eq_true htu]
      rfl
    · rw [if_neg htu, List.filter_singleton, decide_eq_false htu]
      rfl
  | offer ha hbefore hview hothers hrest hreturned hring =>
    exact ⟨draws, _, h.offer hbefore hview hothers hrest hreturned hring⟩

omit [DecidableEq K] in
/-- STEP: in a session that is not paused, a call that a thread makes is the one it is in, until it is
    in the log. -/
theorem calls_effect (hpaused : s.paused = false) {a : Action T K} (he : Effect s a s') (u : T) :
    s'.calls u = s.calls u ++ callsOf u [a] := by
  have hnone : (∀ t c, a ≠ .call t c) → callsOf u [a] = [] := by
    intro ha
    cases a with
    | call t c => exact absurd rfl (ha t c)
    | _ => rfl
  have hrecord : ∀ {t : T} {i : ℕ} {c : Call K} {r : Reads} {nameRef : UInt32} {x},
      s.view t = ⟨some c, x, none⟩ → Records s s' t i c r nameRef → (∀ t c, a ≠ .call t c) →
      s'.calls u = s.calls u ++ callsOf u [a] := by
    intro t i c r nameRef x hbefore hr ha
    obtain ⟨hcall, -⟩ := recordWith_entry (s.threadContexts i) s.log.length c r nameRef
    rw [hnone ha, List.append_nil, State.calls, State.calls, hr.logOf, List.map_append,
      List.append_assoc]
    refine congrArg _ ?_
    by_cases hut : u = t
    · rw [hut, if_pos rfl, hr.view, hbefore, List.map_singleton, hcall]
      rfl
    · rw [if_neg (Ne.symm hut), hr.others u hut]
      rfl
  have hsame : (∀ t c, a ≠ .call t c) → s'.log = s.log → (s'.view u).call = (s.view u).call →
      s'.calls u = s.calls u ++ callsOf u [a] := by
    intro ha hlog hcall
    rw [hnone ha, List.append_nil, State.calls, State.calls, State.logOf, hlog, hcall]
    rfl
  cases he with
  | quiet ha hview hrest hreturned hevents => exact hsame ha hrest.log (by rw [hview])
  | @call t c _ hbefore hview hothers hrest hreturned hevents =>
    rw [State.calls, State.calls, State.logOf, hrest.log, List.append_assoc]
    refine congrArg (((s.logOf u).map Entry.call) ++ ·) ?_
    by_cases hut : u = t
    · rw [hut, hview, hbefore]
      simp [callsOf]
    · rw [hothers u hut]
      simp [callsOf, Ne.symm hut]
  | turnBack hp hbefore hview hothers hrest hreturned hevents =>
    rw [hpaused] at hp
    cases hp
  | init ha hview hctx hcount hcontexts hids hlog hreturned hevents =>
    exact hsame ha hlog (by rw [hview])
  | @draw t i c _ hctx hpasses hbefore hview hothers hcount hctx' hcontexts hids hlog hreturned hevents =>
    exact hsame (fun _ _ h => by cases h) hlog (view_part View.call hbefore hview hothers rfl u)
  | unstamped hctx hpasses hbefore hrecords hreturned =>
    exact hrecord hbefore hrecords fun _ _ h => by cases h
  | stamped ha hctx hbefore href hrecords hreturned => exact hrecord hbefore hrecords ha
  | @offer _ t event _ ha hbefore hview hothers hrest hreturned hring =>
    exact hsame ha hrest.log (view_part View.call hbefore hview hothers rfl u)

/-! ### Runs -/

/-- INVARIANT: a session that records. -/
structure Recording (junk : ℤ → ProfileEvent) (s : State T K) : Prop where
  placed : ∀ t, Placed s t
  contexts : Contexts s
  follows : ∃ draws rs, Follows draws rs junk s

theorem Recording.step (h : Recording junk s) {a : Action T K} (hs : step sh s a = some s') :
    Recording junk s' := by
  have he := moves_effect h.placed (step_moves hs)
  obtain ⟨draws, rs, hf⟩ := h.follows
  exact ⟨placed_step h.placed hs, h.contexts.effect sh he, hf.effect h.contexts he⟩

theorem recording_run {junk : Junk K} {as : List (Action T K)}
    (hr : run (step sh) (State.new junk) as = some s) : Recording junk.events s := by
  refine run_inv (I := Recording junk.events) (G := fun _ _ => True)
    (fun _ _ _ h _ hs => h.step hs) as (meets_true _ _) ?_ hr
  exact ⟨placed_new junk, contexts_new junk, [], [], follows_new junk⟩

/-- RUN: as long as nobody pauses the session, every call of a thread comes to the log. -/
theorem calls_run {as : List (Action T K)} (hplaced : ∀ t, Placed s t) (hpaused : s.paused = false)
    (hp : ∀ a ∈ as, a ≠ .setPaused true) (hr : run (step sh) s as = some s') (t : T) :
    s'.calls t = s.calls t ++ callsOf t as := by
  induction as generalizing s with
  | nil =>
    cases hr
    exact (List.append_nil _).symm
  | cons a as ih =>
    obtain ⟨u, hs, hr⟩ := run_cons_some.mp hr
    have hm := step_moves hs
    rw [ih (placed_step hplaced hs) ((moves_shared hm).1 (hp a List.mem_cons_self) hpaused)
      (fun b hb => hp b (List.mem_cons_of_mem a hb)) hr,
      calls_effect hpaused (moves_effect hplaced hm), List.append_assoc, callsOf, callsOf,
      ← List.filterMap_append]
    rfl

/-! ### The forest of a thread -/

/-- The calls of a forest, without the clock. -/
def callTokens (f : Forest (Option K) (Option K × Probe)) : List (Call K) :=
  f.tokens .zone (fun _ => .endZone) fun x => .sample x.1 x.2

omit [DecidableEq K] [DecidableEq T] in
/-- Calls that are those of a forest are, with the clock they read, those of a timed one. -/
theorem timed_forest (f : Forest (Option K) (Option K × Probe)) {l : List (Int64 × Call K)}
    (h : l.map Prod.snd = callTokens f) : ∃ g : Forest (ZoneCall K) (SampleCall K),
      forestCalls g = l ∧ g.map ZoneCall.name (fun x => (x.name, x.probe)) = f := by
  induction f generalizing l with
  | nil =>
    obtain rfl := List.map_eq_nil_iff.mp h
    exact ⟨.nil, rfl, rfl⟩
  | zone z kids rest ihk ihr =>
    obtain ⟨⟨start, c⟩, l₁, rfl, hc, h₁⟩ := List.map_eq_cons_iff.mp h
    obtain ⟨lk, l₂, rfl, hk, h₂⟩ := List.map_eq_append_iff.mp h₁
    obtain ⟨⟨stop, c'⟩, lr, rfl, hc', hr⟩ := List.map_eq_cons_iff.mp h₂
    obtain ⟨gk, rfl, rfl⟩ := ihk hk
    obtain ⟨gr, rfl, rfl⟩ := ihr hr
    cases hc
    cases hc'
    exact ⟨.zone ⟨z, start, stop⟩ gk gr, rfl, rfl⟩
  | leaf x rest ih =>
    obtain ⟨⟨now, c⟩, l₁, rfl, hc, h₁⟩ := List.map_eq_cons_iff.mp h
    obtain ⟨g, rfl, rfl⟩ := ih h₁
    cases hc
    exact ⟨.leaf ⟨x.1, x.2, now⟩ g, rfl, rfl⟩

/-- What the session holds of a thread `t` whose recorded calls are the forest `f`: `a` is `f` with its
    events, recorded in the context `i` and handed to `TryEnqueue` as `offered`. -/
structure Rebuilt (s : State T K) (t : T) (offered : List ProfileEvent)
    (f : Forest (Option K) (Option K × Probe)) (i : ℕ) (a : Forest (ZoneNode K) (SampleNode K)) :
    Prop where
  calls : a.map (fun z => z.call.name) (fun x => (x.call.name, x.call.probe)) = f
  context : f ≠ .nil → s.threadContext t = some i
  forest : CallForest i 0 (a.map ZoneNode.call SampleNode.call) (s.logOf t) a
  handedOn : offered = (forestEvents a).post
  /-- What the string table has answered is what the events name. -/
  answers : s.answersTo t = (a.map (fun z => (z.call.name, z.event.data.eventNameRef))
    fun x => (x.call.name, x.event.data.eventNameRef)).pre
  increasing : ((forestEvents a).pre.map eventKey).Pairwise (· < ·)
  /-- The events, in any order, give the forest back. -/
  recovered : ∀ l, l.Perm offered →
    Forest.recover eventKey eventParent isZoneEvent 0 l = forestEvents a

omit [DecidableEq K] in
/-- The ids of the threads tell their events apart, as long as `NextEventID` has not come round. -/
theorem Follows.separate (h : Follows draws rs junk s) (hids : s.nextMessageID ≤ 2 ^ 32) :
    Separate 0 s.idsOf := by
  have hown : s.idsOf = fun t => (own draws t).map UInt32.ofNat := funext h.ids
  have hlt : draws.length < 2 ^ 32 := by
    have hnext := h.next
    omega
  rw [hown]
  exact (separate_iff UInt32.lt_irrefl (by decide) rfl (fun i j hij hj => ofNat_lt_ofNat hij hj)
    (fun i h1 hi => ofNat_ne_zero h1 hi) h.inTurn).mpr hlt

omit [DecidableEq T] [DecidableEq K] in
theorem idle_view (hidle : s.place t = .idle) : s.view t = ⟨none, none, none⟩ := by
  rw [State.view, hidle]
  rfl

omit [DecidableEq K] in
/-- The ids in a thread's log, in preorder of its forest. -/
theorem forest_ids {i : ℕ} {p : UInt32} {g : Forest (ZoneCall K) (SampleCall K)}
    {a : Forest (ZoneNode K) (SampleNode K)} (ha : CallForest i p g (s.logOf t) a)
    (hidle : s.place t = .idle) : s.idsOf t = (forestEvents a).pre.map fun ev => ev.header.id := by
  have hstamps : (s.logOf t).filterMap (fun e => e.stamp.map Stamp.id) =
      ((s.logOf t).filterMap Entry.stamp).map Stamp.id := by
    rw [List.map_filterMap]
  rw [State.idsOf, idle_view hidle, hstamps, ← ha.entries, stamps_tokens, List.map_map]
  exact List.append_nil _

omit [DecidableEq K] in
/-- A thread between two calls, whose recorded calls are a forest. -/
theorem Recording.rebuilt (h : Recording junk s) (hf : Follows draws rs junk s)
    (hsep : Separate 0 s.idsOf) (hidle : s.place t = .idle)
    {f : Forest (Option K) (Option K × Probe)} (hlog : (s.logOf t).map Entry.call = callTokens f)
    (hd : f.depth ≤ espMaxZoneRecursion) :
    ∃ i a, Rebuilt s t (RingThreads.enqueuedBy t rs) f i a := by
  obtain ⟨g, hg, hgf⟩ := timed_forest f (l := (s.logOf t).map Entry.timed)
    (by rw [← hlog, List.map_map]; rfl)
  obtain ⟨i, st, hctx, hrun⟩ : ∃ i st, (s.logOf t ≠ [] → s.threadContext t = some i) ∧
      LocalRun espMaxZoneRecursion i [] (s.logOf t) st := by
    rcases hi : s.threadContext t with _ | i
    · have hnil := h.contexts.silent t hi
      exact ⟨0, [], fun hne => absurd hnil hne, by rw [hnil]; exact .nil _⟩
    · obtain ⟨st, hrun, -⟩ := h.contexts.slabs t i hi
      exact ⟨i, st, fun _ => rfl, hrun⟩
  have hgd : g.depth ≤ espMaxZoneRecursion := by
    rw [← hgf, Forest.depth_map] at hd
    exact hd
  obtain ⟨-, a, ha⟩ := localRun_forest g (by simpa using hgd) hg.symm hrun
  have hids := forest_ids ha hidle
  have hinc : ((forestEvents a).pre.map eventKey).Pairwise (· < ·) := by
    have := hsep.increasing t
    rw [hids, List.pairwise_map] at this
    exact List.pairwise_map.mpr this
  have hpos : ∀ ev ∈ (forestEvents a).pre, 0 < eventKey ev := by
    intro ev hev
    refine Nat.pos_of_ne_zero fun hz => hsep.proper t ?_
    rw [hids]
    exact List.mem_map.mpr ⟨ev, hev, UInt32.toNat_inj.mp hz⟩
  have hoffered : RingThreads.enqueuedBy t rs = (forestEvents a).post := by
    have henq := hf.enqueued t
    rw [idle_view hidle, State.offeredBy, ← ha.entries, offered_tokens] at henq
    exact (List.append_nil _).symm.trans henq
  refine ⟨i, a, ?_, ?_, by rw [ha.calls]; exact ha, hoffered, ?_, hinc, ?_⟩
  · rw [← hgf, ← ha.calls, Forest.map_map]
  · intro hne
    refine hctx fun hnil => hne ?_
    rw [hnil] at hlog
    cases f with
    | nil => rfl
    | _ => cases hlog
  · rw [hf.answers t, ← ha.entries]
    exact Forest.filterMap_tokens_pre (g := namedRef) (fun _ => rfl) (fun _ => rfl) (fun _ => rfl) a
  · intro l hl
    exact Forest.recover_perm ha.parents hpos hinc (hoffered ▸ hl)

/-! ### The names -/

/-- Two names that are both answered an index are answered two. -/
def NamesApart (s : State T K) : Prop :=
  ∀ t, ∀ x ∈ s.answersTo t, ∀ u, ∀ y ∈ s.answersTo u,
    x.1 ≠ none → y.1 ≠ none → x.1 ≠ y.1 → x.2 ≠ noRef → y.2 ≠ noRef → x.2 ≠ y.2

omit [DecidableEq K] in
theorem answer_returned {x : Option K × UInt32} (hx : x ∈ s.answersTo t) :
    ∃ c ∈ s.strings.returned, c.ptr = x.1 ∧ c.ref = x.2 := by
  obtain ⟨c, hc, rfl⟩ := List.mem_map.mp hx
  exact ⟨c, (List.mem_filter.mp hc).1, rfl, rfl⟩

omit [DecidableEq K] in
theorem namesApart (h : HashThreads.DistinctRefs s.strings) : NamesApart s := by
  intro t x hx u y hy
  obtain ⟨c, hc, hptr, href⟩ := answer_returned hx
  obtain ⟨d, hd, hptr', href'⟩ := answer_returned hy
  rw [← hptr, ← hptr', ← href, ← href']
  exact h.pairs c hc d hd

/-- The table has run its own machine. -/
theorem strings_run {junk : Junk K} {as : List (Action T K)}
    (hr : run (step sh) (State.new junk) as = some s) :
    ∃ hs, run (HashThreads.step sh) .new hs = some s.strings ∧
      (Meets (HashThreads.step sh) HashThreads.LoadsStored .new hs → NamesApart s) := by
  obtain ⟨hs, hrun⟩ : ∃ hs, run (HashThreads.step sh) .new hs = some s.strings :=
    run_project State.strings (fun _ _ _ h => (moves_shared (step_moves h)).2) hr
  refine ⟨hs, hrun, fun hstored => namesApart ?_⟩
  exact (HashThreads.refsIssued_run hrun hstored).distinct (HashThreads.entryInv_run hrun).1

/-- CORRECT: in any run of a session, whatever comes between two accesses of a call, the ids of all
    threads are apart, and the events that a thread has handed to the ring are the forest of its
    recorded calls: of all its calls, where nobody pauses the session. The table and the ring have run
    their own machines. -/
theorem accessForest_run {junk : Junk K} {as : List (Action T K)}
    (hr : run (step sh) (State.new junk) as = some s) (hids : s.nextMessageID ≤ 2 ^ 32) :
    Separate 0 s.idsOf ∧
      (∃ hs, run (HashThreads.step sh) .new hs = some s.strings ∧
        (Meets (HashThreads.step sh) HashThreads.LoadsStored .new hs → NamesApart s)) ∧
      (∃ rs, run (RingThreads.step espMaxEventBuffer) (.new junk.events) rs = some s.eventQueue ∧
        ∀ t f, s.place t = .idle → (s.logOf t).map Entry.call = callTokens f →
          f.depth ≤ espMaxZoneRecursion →
            ∃ i a, Rebuilt s t (RingThreads.enqueuedBy t rs) f i a) ∧
      ((∀ a ∈ as, a ≠ .setPaused true) →
        ∀ t, s.place t = .idle → (s.logOf t).map Entry.call = callsOf t as) := by
  have h := recording_run hr
  obtain ⟨draws, rs, hf⟩ := h.follows
  refine ⟨hf.separate hids, strings_run hr, ⟨rs, hf.ring, ?_⟩, ?_⟩
  · exact fun t f hidle hlog hd => h.rebuilt hf (hf.separate hids) hidle hlog hd
  · intro hp t hidle
    have hcalls := calls_run (placed_new junk) rfl hp hr t
    rw [State.calls, idle_view hidle] at hcalls
    exact (List.append_nil _).symm.trans hcalls

/-- Thread `t` makes its next `n` accesses. -/
def accesses (t : Bool) (n : ℕ) : List (Action Bool Addr) := List.replicate n (.go t)

/-- A sample of thread `false` goes on while `true` is between the id and the name of its zone; its second
    one finds the session paused. -/
def crossingCalls : List (Action Bool Addr) :=
  .call true (.zone (some nameA)) :: accesses true 3 ++
  .call false (.sample (some nameB) (.int 7)) :: accesses false 8 ++ accesses true 13 ++
  .call true .endZone :: accesses true 4 ++ accesses false 14 ++ accesses true 5 ++
  [.setPaused true, .call false (.sample (some nameA) (.int 8)), .go false]

def crossingForests : Bool → Forest (Option Addr) (Option Addr × Probe)
  | true => .zone (some nameA) .nil .nil
  | false => .leaf (some nameB, .int 7) .nil

theorem accessForest_run_crossingCalls : ∃ (s : State Bool Addr) (rs : _),
    run (step espStrings) (State.new (Junk.zero nameA)) crossingCalls = some s ∧
      run (RingThreads.step espMaxEventBuffer) (.new (Junk.zero nameA).events) rs =
        some s.eventQueue ∧
      ∀ t, ∃ i a, Rebuilt s t (RingThreads.enqueuedBy t rs) (crossingForests t) i a := by
  obtain ⟨-, -, ⟨rs, hring, hforests⟩, -⟩ := accessForest_run
    (rfl : run (step espStrings) (State.new (Junk.zero nameA)) crossingCalls = some _) (by decide)
  refine ⟨_, rs, rfl, hring, fun t => ?_⟩
  cases t with
  | true => exact hforests true (crossingForests true) rfl rfl (by decide)
  | false => exact hforests false (crossingForests false) rfl rfl (by decide)

end Esp.Accesses
