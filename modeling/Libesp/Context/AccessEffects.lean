import Libesp.Context.Handoffs
import Libesp.Context.Recording

/-! @esp context | name:ThreadContext, ProfileContext | scheme:projection |
    source:src/Context.cpp (InitThread, Zone, End, Sample, StampEvent, NextEventID)

    What one access does to the calls, the ids and the events of the threads, wherever the table and the
    rings are. Most accesses do nothing to them (`Effect.quiet`); the others are few.

        place    entered … ready   numbered … mapping   offering   sending, idle
        view     call              call, id             event      nothing
                              draw                records      offer

    The contexts of the threads follow from these alone: a thread records in a slab of its own, which
    follows its own calls (`Contexts`). -/

namespace Esp.Accesses
open Event PointerHash LocklessRing Context

variable {T K : Type}

/-- What a thread's call has still to put into the log or the ring. -/
structure View (K : Type) where
  call : Option (Call K)
  /-- With the context it records in and its id, once it has one. -/
  stamping : Option (ℕ × Call K × UInt32)
  event : Option ProfileEvent

def Place.view : Place K → View K
  | .idle | .sending => ⟨none, none, none⟩
  | .entered c | .unpaused c | .ready _ c => ⟨some c, none, none⟩
  | .numbered i c id | .timed i c id _ => ⟨some c, some (i, c, id), none⟩
  | .mapping i c r | .naming i c r => ⟨some c, some (i, c, r.id), none⟩
  | .offering event => ⟨none, none, some event⟩

def State.view (s : State T K) (t : T) : View K := (s.place t).view

/-- The contexts, the ids and the log are as they were. -/
structure Rest (s s' : State T K) : Prop where
  threadCount : s'.threadCount = s.threadCount
  threadContext : s'.threadContext = s.threadContext
  threadContexts : s'.threadContexts = s.threadContexts
  nextMessageID : s'.nextMessageID = s.nextMessageID
  log : s'.log = s.log

variable [DecidableEq T]

/-- The event ring takes a step that is no call of `TryEnqueue`, or none. -/
def RingStays (s s' : State T K) : Prop :=
  s'.eventQueue = s.eventQueue ∨ ∃ b, (∀ t v, b ≠ .enqueue t v) ∧
    RingThreads.step espMaxEventBuffer s.eventQueue b = some s'.eventQueue

/-- The record that thread `t` makes in its context `i`. -/
structure Records (s s' : State T K) (t : T) (i : ℕ) (c : Call K) (r : Reads) (nameRef : UInt32) :
    Prop where
  threadCount : s'.threadCount = s.threadCount
  threadContext : s'.threadContext = s.threadContext
  threadContexts : s'.threadContexts = Function.update s.threadContexts i
    ((s.threadContexts i).recordWith s.log.length c r nameRef).1
  nextMessageID : s'.nextMessageID = s.nextMessageID
  log : s'.log = s.log ++ [(t, ((s.threadContexts i).recordWith s.log.length c r nameRef).2)]
  view : s'.view t =
    ⟨none, none, ((s.threadContexts i).recordWith s.log.length c r nameRef).2.offered⟩
  others : ∀ u, u ≠ t → s'.view u = s.view u
  eventQueue : RingStays s s'

/-- What an action does to the calls, the ids and the events of the threads. -/
inductive Effect (s : State T K) : Action T K → State T K → Prop
  | quiet {a s'} (ha : ∀ t c, a ≠ .call t c) (hview : ∀ u, s'.view u = s.view u) (hrest : Rest s s')
      (hreturned : s'.strings.returned = s.strings.returned) (hevents : RingStays s s') : Effect s a s'
  | call {t c s'} (hbefore : s.view t = ⟨none, none, none⟩)
      (hview : s'.view t = ⟨some c, none, none⟩) (hothers : ∀ u, u ≠ t → s'.view u = s.view u)
      (hrest : Rest s s') (hreturned : s'.strings.returned = s.strings.returned)
      (hevents : RingStays s s') : Effect s (.call t c) s'
  /-- A call that finds the session paused is over. -/
  | turnBack {t c s'} (hpaused : s.paused = true) (hbefore : s.view t = ⟨some c, none, none⟩)
      (hview : s'.view t = ⟨none, none, none⟩) (hothers : ∀ u, u ≠ t → s'.view u = s.view u)
      (hrest : Rest s s') (hreturned : s'.strings.returned = s.strings.returned)
      (hevents : RingStays s s') : Effect s (.go t) s'
  | init {a t s'} (ha : ∀ t c, a ≠ .call t c) (hview : ∀ u, s'.view u = s.view u)
      (hctx : s'.threadContext = (s.initThread t).threadContext)
      (hcount : s'.threadCount = (s.initThread t).threadCount)
      (hcontexts : s'.threadContexts = s.threadContexts)
      (hids : s'.nextMessageID = s.nextMessageID) (hlog : s'.log = s.log)
      (hreturned : s'.strings.returned = s.strings.returned) (hevents : RingStays s s') : Effect s a s'
  | draw {t i c s'} (hctx : s.threadContext t = some i)
      (hpasses : (s.threadContexts i).passes c = some c.name)
      (hbefore : s.view t = ⟨some c, none, none⟩)
      (hview : s'.view t = ⟨some c, some (i, c, UInt32.ofNat s.nextMessageID), none⟩)
      (hothers : ∀ u, u ≠ t → s'.view u = s.view u) (hcount : s'.threadCount = s.threadCount)
      (hctx' : s'.threadContext = s.threadContext) (hcontexts : s'.threadContexts = s.threadContexts)
      (hids : s'.nextMessageID = s.nextMessageID + 1) (hlog : s'.log = s.log)
      (hreturned : s'.strings.returned = s.strings.returned) (hevents : RingStays s s') :
      Effect s (.go t) s'
  | unstamped {t i c r s'} (hctx : s.threadContext t = some i)
      (hpasses : (s.threadContexts i).passes c = none) (hbefore : s.view t = ⟨some c, none, none⟩)
      (hrecords : Records s s' t i c r noRef)
      (hreturned : s'.strings.returned = s.strings.returned) : Effect s (.go t) s'
  | stamped {a t i c r ref v tbl s'} (ha : ∀ t c, a ≠ .call t c) (hctx : s.threadContext t = some i)
      (hbefore : s.view t = ⟨some c, some (i, c, r.id), none⟩)
      (href : isIndex ref = true ∨ ref = noRef) (hrecords : Records s s' t i c r ref)
      (hreturned : s'.strings.returned = s.strings.returned ++ [⟨t, .map, c.name, ref, v, tbl⟩]) :
      Effect s a s'
  | offer {a t event s'} (ha : ∀ t c, a ≠ .call t c) (hbefore : s.view t = ⟨none, none, some event⟩)
      (hview : s'.view t = ⟨none, none, none⟩) (hothers : ∀ u, u ≠ t → s'.view u = s.view u)
      (hrest : Rest s s') (hreturned : s'.strings.returned = s.strings.returned)
      (hring : RingThreads.step espMaxEventBuffer s.eventQueue (.enqueue t event) =
        some s'.eventQueue) : Effect s a s'

variable {s s' : State T K} {t u : T}

/-- `InitThread` moves nobody. -/
theorem initThread_kept (s : State T K) (t : T) : (s.initThread t).place = s.place ∧
    (s.initThread t).threadContexts = s.threadContexts ∧
    (s.initThread t).nextMessageID = s.nextMessageID ∧ (s.initThread t).log = s.log ∧
    (s.initThread t).strings = s.strings ∧ (s.initThread t).eventQueue = s.eventQueue ∧
    (s.initThread t).paused = s.paused := by
  obtain ⟨n, ctx, he⟩ := initThread_rest s t
  rw [he]
  exact ⟨rfl, rfl, rfl, rfl, rfl, rfl, rfl⟩

theorem view_goto (s : State T K) (t : T) (pl : Place K) :
    (s.goto t pl).view t = pl.view ∧ ∀ u, u ≠ t → (s.goto t pl).view u = s.view u :=
  ⟨congrArg Place.view (goto_place s t pl),
    fun _ hut => congrArg Place.view (Function.update_of_ne hut ..)⟩

/-- A part of the view that is the same for the thread that moves is the same for all. -/
theorem view_part {β : Type} (part : View K → β) {x y : View K} (hbefore : s.view t = x)
    (hview : s'.view t = y) (hothers : ∀ u, u ≠ t → s'.view u = s.view u) (hpart : part y = part x)
    (u : T) : part (s'.view u) = part (s.view u) := by
  by_cases hut : u = t
  · rw [hut, hview, hbefore, hpart]
  · rw [hothers u hut]

/-- A move to a place with the same view is quiet for everybody. -/
theorem view_same {pl : Place K} (pl' : Place K) (hpl : s.place t = pl) (hv : pl'.view = pl.view) (u : T) :
    (s.goto t pl').view u = s.view u :=
  view_part id (congrArg Place.view hpl) (view_goto s t pl').1 (view_goto s t pl').2 hv u

theorem logOf_congr (h : s'.log = s.log) (u : T) : s'.logOf u = s.logOf u := by
  rw [State.logOf, h, State.logOf]

/-- A step of a producer in its `TryEnqueue` is no call. -/
theorem ringStays_moves {q : RingThreads.State T ProfileEvent} {a : Action T K}
    {b : RingThreads.Action T ProfileEvent}
    (hab : a = .go t ∧ b = .produce t ∧ q.producer t ≠ .idle ∨ a = .casFails t ∧ b = .casFails t)
    (hq : RingThreads.step espMaxEventBuffer s.eventQueue b = some q) :
    RingStays s { s with eventQueue := q } ∧ ∀ t c, a ≠ .call t c := by
  rcases hab with ⟨rfl, rfl, -⟩ | ⟨rfl, rfl⟩
  · exact ⟨Or.inr ⟨_, (fun _ _ h => by cases h), hq⟩, (fun _ _ h => by cases h)⟩
  · exact ⟨Or.inr ⟨_, (fun _ _ h => by cases h), hq⟩, (fun _ _ h => by cases h)⟩

/-- A call records where only the table and the string queue have moved. -/
theorem records_settle (s : State T K) (q : RingThreads.State T (RuntimeStringReference K))
    (h : HashThreads.State T K) (t : T) (i : ℕ) (c : Call K) (r : Reads) (nameRef : UInt32) :
    Records s (State.settle { s with stringQueue := q, strings := h } t i c r nameRef) t i c r
      nameRef where
  threadCount := rfl
  threadContext := rfl
  threadContexts := rfl
  nextMessageID := rfl
  log := rfl
  view := by
    refine (view_goto { s with stringQueue := q, strings := h } t _).1.trans ?_
    cases ((s.threadContexts i).recordWith s.log.length c r nameRef).2.offered <;> rfl
  others := (view_goto { s with stringQueue := q, strings := h } t _).2
  eventQueue := Or.inl rfl

/-- What comes of a turn in the table. -/
theorem effect_looked (q : RingThreads.State T (RuntimeStringReference K)) {a : Action T K}
    (ha : ∀ t c, a ≠ .call t c) {i : ℕ} {c : Call K} {r : Reads} {h : HashThreads.State T K}
    (hctx : s.threadContext t = some i) (hbefore : s.view t = ⟨some c, some (i, c, r.id), none⟩)
    (hoffers : (s.strings.thread t).OffersIndex)
    (hturn : HashThreads.Turn s.strings t c.name h) :
    Effect s a (State.looked { s with stringQueue := q } t i c r h) := by
  cases hturn with
  | on hcall hreturned _ _ =>
    rw [looked_on _ (HashThreads.busy_of_call hcall)]
    obtain ⟨hown, hothers⟩ := view_goto { s with stringQueue := q, strings := h } t (.mapping i c r)
    refine .quiet ha ?_ ⟨rfl, rfl, rfl, rfl, rfl⟩ hreturned (Or.inl rfl)
    intro u
    by_cases hut : u = t
    · subst hut
      exact hown.trans hbefore.symm
    · exact hothers u hut
  | @offered ref tbl hidle hreturned hfrom =>
    rw [looked_back _ hidle hreturned]
    rw [hfrom] at hoffers
    exact .stamped ha hctx hbefore (Or.inl hoffers) (records_settle s q h t i c r ref) hreturned
  | @back ref v tbl hidle hreturned _ href =>
    rw [looked_back _ hidle hreturned]
    exact .stamped ha hctx hbefore (href.imp And.right And.right) (records_settle s q h t i c r ref)
      hreturned

variable [DecidableEq K] {sh : Shape K}

/-- INVERSION: what a step does to the calls, the ids and the events. -/
theorem moves_effect (hp : ∀ t, Placed s t) {a : Action T K} (hm : Moves sh s a s') :
    Effect s a s' := by
  have hgo : ∀ {u : T}, ∀ t c, (Action.go u : Action T K) ≠ .call t c := fun _ _ h => by cases h
  cases hm with
  | call h =>
    obtain ⟨hown, hothers⟩ := view_goto s _ (.entered _)
    exact .call (congrArg Place.view h) hown hothers ⟨rfl, rfl, rfl, rfl, rfl⟩ rfl
      (Or.inl rfl)
  | turnBack h hpaused =>
    obtain ⟨hown, hothers⟩ := view_goto s _ .idle
    exact .turnBack hpaused (congrArg Place.view h) hown hothers ⟨rfl, rfl, rfl, rfl, rfl⟩ rfl
      (Or.inl rfl)
  | enter h hpaused =>
    exact .quiet hgo (view_same _ h rfl) ⟨rfl, rfl, rfl, rfl, rfl⟩ rfl (Or.inl rfl)
  | @bind t c i h hi hlt =>
    obtain ⟨hplace, hcontexts, hids, hlog, hstrings, hevents, -⟩ := initThread_kept s t
    have hpl : (s.initThread t).place t = .unpaused c := (congrFun hplace t).trans h
    refine .init hgo ?_ rfl rfl hcontexts hids hlog (congrArg _ hstrings) (Or.inl hevents)
    exact fun u => (view_same (.ready i c) hpl rfl u).trans (congrArg Place.view (congrFun hplace u))
  | @draw t i c name h hname =>
    obtain ⟨hown, hothers⟩ := view_goto s t (.numbered i c (UInt32.ofNat s.nextMessageID))
    exact .draw ((hp t).context i (by rw [h]; rfl)) (hname.trans (congrArg _ (name_of_passes hname)))
      (congrArg Place.view h) hown hothers rfl rfl rfl rfl rfl rfl (Or.inl rfl)
  | @unstamped t i c h hname =>
    exact .unstamped ((hp t).context i (by rw [h]; rfl)) hname (congrArg Place.view h)
      (records_settle s s.stringQueue s.strings t i c _ noRef) rfl
  | readClock h =>
    exact .quiet hgo (view_same _ h rfl) ⟨rfl, rfl, rfl, rfl, rfl⟩ rfl (Or.inl rfl)
  | readFrame h hv =>
    obtain rfl := map_call hv
    exact .quiet hgo (view_same _ h rfl) ⟨rfl, rfl, rfl, rfl, rfl⟩ rfl (Or.inl rfl)
  | @look _ t i c r b v h hab hoffer hv =>
    obtain ⟨hactor, hb⟩ := look_actor hab
    obtain ⟨hturn, -, -⟩ := table_turn hb hv (request_mapping (hp t) h)
    have ha : ∀ t c, a ≠ .call t c := by
      rcases hab with ⟨rfl, -⟩ | ⟨rfl, -⟩ <;> exact fun _ _ he => by cases he
    exact effect_looked s.stringQueue ha ((hp t).context i (by rw [h]; rfl))
      (congrArg Place.view h) (hp t).offers hturn
  | name h hoffer hq =>
    exact .quiet hgo (view_same _ h rfl) ⟨rfl, rfl, rfl, rfl, rfl⟩ rfl (Or.inl rfl)
  | nameOn h hab hq =>
    exact .quiet (by rcases hab with ⟨rfl, -⟩ | ⟨rfl, -⟩ <;> exact fun _ _ he => by cases he)
      (fun _ => rfl) ⟨rfl, rfl, rfl, rfl, rfl⟩ rfl (Or.inl rfl)
  | @named t i c r q v h hq hidle hv =>
    obtain ⟨hturn, -, -⟩ := table_turn (Or.inl rfl) hv (request_naming (hp t) h)
    exact effect_looked q hgo ((hp t).context i (by rw [h]; rfl)) (congrArg Place.view h)
      (hp t).offers hturn
  | offer h hq =>
    obtain ⟨hown, hothers⟩ := view_goto s _ .sending
    exact .offer hgo (congrArg Place.view h) hown hothers ⟨rfl, rfl, rfl, rfl, rfl⟩ rfl hq
  | sendOn h hab hq =>
    obtain ⟨hstays, ha⟩ := ringStays_moves hab hq
    exact .quiet ha (fun _ => rfl) ⟨rfl, rfl, rfl, rfl, rfl⟩ rfl hstays
  | sent h hq hidle =>
    exact .quiet hgo (view_same _ h rfl) ⟨rfl, rfl, rfl, rfl, rfl⟩ rfl
      (Or.inr ⟨_, (fun _ _ he => by cases he), hq⟩)
  | @threadInit t h =>
    obtain ⟨hplace, hcontexts, hids, hlog, hstrings, hevents, -⟩ := initThread_kept s t
    exact .init (fun _ _ he => by cases he) (fun u => congrArg Place.view (congrFun hplace u)) rfl rfl
      hcontexts hids hlog (congrArg _ hstrings) (Or.inl hevents)
  | setPaused =>
    exact .quiet (fun _ _ he => by cases he) (fun _ => rfl) ⟨rfl, rfl, rfl, rfl, rfl⟩ rfl (Or.inl rfl)
  | updateTimestamp =>
    exact .quiet (fun _ _ he => by cases he) (fun _ => rfl) ⟨rfl, rfl, rfl, rfl, rfl⟩ rfl (Or.inl rfl)
  | frameEnd =>
    exact .quiet (fun _ _ he => by cases he) (fun _ => rfl) ⟨rfl, rfl, rfl, rfl, rfl⟩ rfl (Or.inl rfl)
  | @drainEvents _ b q hab hq =>
    have hb : ∀ t v, b ≠ .enqueue t v := by
      rcases hab with ⟨n, -, rfl⟩ | ⟨-, rfl⟩ <;> exact fun _ _ he => by cases he
    exact .quiet (by rcases hab with ⟨n, rfl, -⟩ | ⟨rfl, -⟩ <;> exact fun _ _ he => by cases he)
      (fun _ => rfl) ⟨rfl, rfl, rfl, rfl, rfl⟩ rfl (Or.inr ⟨b, hb, hq⟩)
  | drainStrings hab hq =>
    exact .quiet (by rcases hab with ⟨rfl, -⟩ | ⟨rfl, -⟩ <;> exact fun _ _ he => by cases he)
      (fun _ => rfl) ⟨rfl, rfl, rfl, rfl, rfl⟩ rfl (Or.inl rfl)

/-- Only `SetPaused` pauses, and the table takes its own steps. -/
theorem moves_shared {a : Action T K} (hm : Moves sh s a s') :
    (a ≠ .setPaused true → s.paused = false → s'.paused = false) ∧
      (s'.strings = s.strings ∨ ∃ b, HashThreads.step sh s.strings b = some s'.strings) := by
  cases hm with
  | @bind t c i h hi hlt =>
    obtain ⟨-, -, -, -, hstrings, -, hpaused⟩ := initThread_kept s t
    exact ⟨fun _ hp => hpaused.trans hp, Or.inl hstrings⟩
  | @threadInit t h =>
    obtain ⟨-, -, -, -, hstrings, -, hpaused⟩ := initThread_kept s t
    exact ⟨fun _ hp => hpaused.trans hp, Or.inl hstrings⟩
  | readFrame h hu => exact ⟨fun _ hp => hp, Or.inr ⟨_, hu⟩⟩
  | @look _ t i c r b u h hab hoffer hu =>
    obtain ⟨hstrings, hpaused, -⟩ := looked_kept s t i c r u
    exact ⟨fun _ hp => hpaused.trans hp, Or.inr ⟨b, hstrings.symm ▸ hu⟩⟩
  | @named t i c r q u h hq hidle hu =>
    obtain ⟨hstrings, hpaused, -⟩ := looked_kept { s with stringQueue := q } t i c r u
    exact ⟨fun _ hp => hpaused.trans hp, Or.inr ⟨_, hstrings.symm ▸ hu⟩⟩
  | @setPaused b =>
    refine ⟨?_, Or.inl rfl⟩
    cases b with
    | false => exact fun _ _ => rfl
    | true => exact fun ha => absurd rfl ha
  | _ => exact ⟨fun _ hp => hp, Or.inl rfl⟩

/-! ### The thread contexts -/

/-- The session as a call from start to end finds it; its `frameTimestamp`, which no call reads, is 0. -/
def State.context (s : State T K) : ProfileContext K where
  threadCount := s.threadCount
  nextMessageID := s.nextMessageID
  frameNumber := s.frameNumber
  frameTimestamp := 0
  threadContexts := s.threadContexts
  eventQueue := s.eventQueue.ring
  stringQueue := s.stringQueue.ring
  strings := s.strings.table

/-- INVARIANT: each thread records in a context of its own, whose slab follows its own calls. -/
structure Contexts (s : State T K) : Prop where
  inj : ∀ t u i, s.threadContext t = some i → s.threadContext u = some i → t = u
  bound : ∀ t i, s.threadContext t = some i → i < s.threadCount
  index : ∀ i, (s.threadContexts i).threadIndex = i
  unused : ∀ i, s.threadCount ≤ i → StackOk (s.threadContexts i) []
  silent : ∀ t, s.threadContext t = none → s.logOf t = []
  slabs : ∀ t i, s.threadContext t = some i →
    ∃ st, LocalRun espMaxZoneRecursion i [] (s.logOf t) st ∧ StackOk (s.threadContexts i) st
  passes : ∀ t i c id, (s.view t).stamping = some (i, c, id) →
    s.threadContext t = some i ∧ (s.threadContexts i).passes c = some c.name

omit [DecidableEq K] in
theorem contexts_new (junk : Junk K) : Contexts (State.new junk : State T K) where
  inj := fun _ _ _ h => by cases h
  bound := fun _ _ h => by cases h
  index := fun _ => rfl
  unused := fun i _ => stackOk_new i _
  silent := fun _ _ => rfl
  slabs := fun _ _ h => by cases h
  passes := fun _ _ _ _ h => by cases h

omit [DecidableEq K] in
/-- What the thread contexts do not look at may change. -/
theorem Contexts.congr (h : Contexts s) (hcount : s'.threadCount = s.threadCount)
    (hctx : s'.threadContext = s.threadContext) (hcontexts : s'.threadContexts = s.threadContexts)
    (hlog : s'.log = s.log)
    (hstamping : ∀ u, (s'.view u).stamping = (s.view u).stamping) : Contexts s' := by
  have hlogOf := logOf_congr hlog
  refine ⟨?_, ?_, ?_, ?_, ?_, ?_, ?_⟩
  · rw [hctx]; exact h.inj
  · rw [hctx, hcount]; exact h.bound
  · rw [hcontexts]; exact h.index
  · rw [hcount, hcontexts]; exact h.unused
  · intro t ht
    rw [hctx] at ht
    rw [hlogOf]
    exact h.silent t ht
  · intro t i hi
    rw [hctx] at hi
    rw [hlogOf, hcontexts]
    exact h.slabs t i hi
  · intro t i c id hs
    rw [hstamping] at hs
    rw [hctx, hcontexts]
    exact h.passes t i c id hs

omit [DecidableEq K] in
/-- STEP: `InitThread`. -/
theorem Contexts.init (h : Contexts s) (hctx : s'.threadContext = (s.initThread t).threadContext)
    (hcount : s'.threadCount = (s.initThread t).threadCount)
    (hcontexts : s'.threadContexts = s.threadContexts) (hlog : s'.log = s.log)
    (hview : ∀ u, s'.view u = s.view u) : Contexts s' := by
  rcases hn : s.threadContext t with _ | j
  · obtain ⟨hfresh, hself, hothers⟩ := initThread_fresh hn
    have hlogOf := logOf_congr hlog
    have hcases : ∀ u i, s'.threadContext u = some i →
        u = t ∧ i = s.threadCount ∨ u ≠ t ∧ s.threadContext u = some i :=
      fun u i hi => fresh_cases hn (hctx ▸ hi)
    refine ⟨?_, by rw [hctx, hcount]; exact initThread_bound h.bound t,
      by rw [hcontexts]; exact h.index, ?_, ?_, ?_, ?_⟩
    · intro u v i hu hv
      rcases hcases u i hu with ⟨rfl, rfl⟩ | ⟨-, hu⟩ <;> rcases hcases v _ hv with ⟨rfl, hi⟩ | ⟨-, hv⟩
      · rfl
      · exact absurd (h.bound v _ hv) (lt_irrefl _)
      · rw [hi] at hu
        exact absurd (h.bound u _ hu) (lt_irrefl _)
      · exact h.inj u v i hu hv
    · intro i hi
      rw [hcount, hfresh] at hi
      rw [hcontexts]
      exact h.unused i ((Nat.le_succ _).trans hi)
    · intro u hu
      rw [hlogOf]
      refine h.silent u ?_
      by_cases hut : u = t
      · rw [hut, hn]
      · rwa [hctx, hothers u hut] at hu
    · intro u i hi
      rw [hlogOf, hcontexts]
      rcases hcases u i hi with ⟨rfl, rfl⟩ | ⟨-, hi⟩
      · refine ⟨[], ?_, h.unused _ (le_refl _)⟩
        rw [h.silent u hn]
        exact .nil _
      · exact h.slabs u i hi
    · intro u i c id hs
      rw [hview] at hs
      obtain ⟨hi, hp⟩ := h.passes u i c id hs
      have hut : u ≠ t := by
        rintro rfl
        rw [hn] at hi
        cases hi
      rw [hctx, hcontexts, hothers u hut]
      exact ⟨hi, hp⟩
  · rw [initThread_known hn] at hctx hcount
    exact h.congr hcount hctx hcontexts hlog fun u => congrArg View.stamping (hview u)

omit [DecidableEq K] in
theorem Records.logOf {i : ℕ} {c : Call K} {r : Reads} {nameRef : UInt32}
    (hr : Records s s' t i c r nameRef) (u : T) : s'.logOf u = s.logOf u ++
      if t = u then [((s.threadContexts i).recordWith s.log.length c r nameRef).2] else [] := by
  rw [State.logOf, hr.log]
  exact logOf_append s (t, _)

/-- STEP: a record in the thread's own context. -/
theorem Contexts.records (sh : Shape K) (h : Contexts s) {i : ℕ} {c : Call K} {r : Reads} {nameRef : UInt32}
    (hi : s.threadContext t = some i) (href : isIndex nameRef = true ∨ nameRef = noRef)
    (hr : Records s s' t i c r nameRef) : Contexts s' := by
  obtain ⟨st, hrun, hst⟩ := h.slabs t i hi
  obtain ⟨st', hstep, hst'⟩ := recordWith_local sh s.context hst s.log.length c r href
  obtain ⟨-, hindex⟩ := recordWith_entry (s.threadContexts i) s.log.length c r nameRef
  rw [h.index i] at hstep hindex
  have hother : ∀ u j, u ≠ t → s.threadContext u = some j → j ≠ i := by
    rintro u j hut hj rfl
    exact hut (h.inj u t j hj hi)
  refine ⟨by rw [hr.threadContext]; exact h.inj,
    by rw [hr.threadContext, hr.threadCount]; exact h.bound, ?_, ?_, ?_, ?_, ?_⟩
  · intro j
    rw [hr.threadContexts]
    by_cases hj : j = i
    · rw [hj, Function.update_self, hindex]
    · rw [Function.update_of_ne hj, h.index j]
  · intro j hj
    rw [hr.threadCount] at hj
    have hji : j ≠ i := by
      rintro rfl
      exact absurd (h.bound t j hi) (not_lt.mpr hj)
    rw [hr.threadContexts, Function.update_of_ne hji]
    exact h.unused j hj
  · intro u hu
    rw [hr.threadContext] at hu
    have htu : t ≠ u := by
      rintro rfl
      rw [hi] at hu
      cases hu
    rw [hr.logOf, if_neg htu, List.append_nil]
    exact h.silent u hu
  · intro u j hj
    rw [hr.threadContext] at hj
    rw [hr.logOf, hr.threadContexts]
    by_cases hut : u = t
    · subst hut
      obtain rfl : i = j := Option.some.inj (hi.symm.trans hj)
      rw [if_pos rfl, Function.update_self]
      exact ⟨st', hrun.snoc hstep, hst'⟩
    · rw [if_neg (Ne.symm hut), List.append_nil, Function.update_of_ne (hother u j hut hj)]
      exact h.slabs u j hj
  · intro u j d id hs
    have hut : u ≠ t := by
      rintro rfl
      rw [hr.view] at hs
      cases hs
    rw [hr.others u hut] at hs
    obtain ⟨hj, hp⟩ := h.passes u j d id hs
    rw [hr.threadContext, hr.threadContexts, Function.update_of_ne (hother u j hut hj)]
    exact ⟨hj, hp⟩

/-- STEP: the contexts after any step. -/
theorem Contexts.effect (sh : Shape K) (h : Contexts s) {a : Action T K}
    (he : Effect s a s') : Contexts s' := by
  cases he with
  | quiet ha hview hrest hreturned hevents =>
    exact h.congr hrest.threadCount hrest.threadContext hrest.threadContexts hrest.log
      fun u => congrArg View.stamping (hview u)
  | @call t c _ hbefore hview hothers hrest hreturned hevents =>
    exact h.congr hrest.threadCount hrest.threadContext hrest.threadContexts hrest.log
      (view_part View.stamping hbefore hview hothers rfl)
  | @turnBack t c _ hpaused hbefore hview hothers hrest hreturned hevents =>
    exact h.congr hrest.threadCount hrest.threadContext hrest.threadContexts hrest.log
      (view_part View.stamping hbefore hview hothers rfl)
  | init ha hview hctx hcount hcontexts hids hlog hreturned hevents =>
    exact h.init hctx hcount hcontexts hlog hview
  | @draw t i c _ hctx hpasses hbefore hview hothers hcount hctx' hcontexts hids hlog hreturned hevents =>
    have hlogOf := logOf_congr hlog
    refine ⟨by rw [hctx']; exact h.inj, by rw [hctx', hcount]; exact h.bound,
      by rw [hcontexts]; exact h.index, by rw [hcount, hcontexts]; exact h.unused, ?_, ?_, ?_⟩
    · intro u hu
      rw [hctx'] at hu
      rw [hlogOf]
      exact h.silent u hu
    · intro u j hj
      rw [hctx'] at hj
      rw [hlogOf, hcontexts]
      exact h.slabs u j hj
    · intro u j d id hs
      rw [hctx', hcontexts]
      by_cases hut : u = t
      · rw [hut, hview] at hs
        cases hs
        exact ⟨hut ▸ hctx, hpasses⟩
      · rw [hothers u hut] at hs
        exact h.passes u j d id hs
  | unstamped hctx hpasses hbefore hrecords hreturned =>
    exact h.records sh hctx (Or.inr rfl) hrecords
  | stamped ha hctx hbefore href hrecords hreturned => exact h.records sh hctx href hrecords
  | @offer _ t event _ ha hbefore hview hothers hrest hreturned hring =>
    exact h.congr hrest.threadCount hrest.threadContext hrest.threadContexts hrest.log
      (view_part View.stamping hbefore hview hothers rfl)

end Esp.Accesses
