import Libesp.Context.Recording

/-! @esp context | name:ProfileContext | scheme:simulation |
    source:src/Context.cpp (Zone, End, Sample, MapStringToReference)

    The rings write-only. The recording calls hand events and strings to the rings and never look at
    what becomes of them, so two sessions that differ in their rings record the same: which enqueues a
    full ring refuses, and what the drain thread takes and when, changes no event.

        P  ── record ──▶ P'          the same log, id counter, stacks and string table;
        ┊                ┊           other rings
        Q  ── record ──▶ Q'     and  P ── drain ──▶ P' still agrees with Q -/

namespace Esp.Context
open Event PointerHash LocklessRing Slab Machine

variable {T K : Type}

/-- The context with other rings. -/
def ProfileContext.withRings (C : ProfileContext K) (q : RingQueue ProfileEvent)
    (q' : RingQueue (RuntimeStringReference K)) : ProfileContext K :=
  { C with eventQueue := q, stringQueue := q' }

/-- RELATION: two processes alike in everything but the rings. -/
structure Agree (P Q : Process T K) : Prop where
  paused : Q.paused = P.paused
  session : Q.session = P.session
  threadContext : Q.threadContext = P.threadContext
  log : Q.log = P.log
  context : P.context = none ∧ Q.context = none ∨
    ∃ C q q', P.context = some C ∧ Q.context = some (C.withRings q q')

/-- The steps of the drain thread. -/
def Action.isDrain : Action T K → Bool
  | .drainEvents _ | .drainString => true
  | _ => false

theorem Agree.refl (P : Process T K) : Agree P P := by
  refine ⟨rfl, rfl, rfl, rfl, ?_⟩
  rcases hC : P.context with _ | C
  · exact Or.inl ⟨rfl, rfl⟩
  · exact Or.inr ⟨C, C.eventQueue, C.stringQueue, rfl, rfl⟩

variable [DecidableEq K] (sh : Shape K)

theorem mapString_withRings (C : ProfileContext K) (q : RingQueue ProfileEvent)
    (q' : RingQueue (RuntimeStringReference K)) (name : Option K) :
    ∃ q₁, (C.withRings q q').mapStringToReference sh name =
      ((C.mapStringToReference sh name).1,
        (C.mapStringToReference sh name).2.withRings q q₁) := by
  rcases hget : isIndex (C.strings.get sh name) with _ | _
  · rcases hput : isIndex (C.strings.put sh name).1 with _ | _
    · exact ⟨q', by simp [ProfileContext.mapStringToReference, ProfileContext.withRings, hget, hput]⟩
    · rcases name with _ | ptr
      · exact ⟨q', by
          simp [ProfileContext.mapStringToReference, ProfileContext.withRings, hget, hput]⟩
      · refine ⟨(q'.tryEnqueue stringQueueCapacity ⟨(C.strings.put sh (some ptr)).1, ptr⟩).2, ?_⟩
        simp [ProfileContext.mapStringToReference, ProfileContext.withRings,
          ProfileContext.offerString, hget, hput]
  · exact ⟨q', by simp [ProfileContext.mapStringToReference, ProfileContext.withRings, hget]⟩

theorem stampEvent_withRings (t : ThreadContext) (C : ProfileContext K) (q : RingQueue ProfileEvent)
    (q' : RingQueue (RuntimeStringReference K)) (now : Int64) (ev : ProfileEvent)
    (name : Option K) :
    ∃ q₁, t.stampEvent sh (C.withRings q q') now ev name =
      { t.stampEvent sh C now ev name with
        context := (t.stampEvent sh C now ev name).context.withRings q q₁ } := by
  obtain ⟨q₁, hq⟩ := mapString_withRings sh C.nextEventID.2 q q' name
  have hid : (C.withRings q q').nextEventID =
      (C.nextEventID.1, C.nextEventID.2.withRings q q') := rfl
  refine ⟨q₁, ?_⟩
  simp only [ThreadContext.stampEvent, hid, hq]
  rfl

/-- STEP: a recording call does the same whatever the rings are. -/
theorem record_withRings (t : ThreadContext) (C : ProfileContext K) (q : RingQueue ProfileEvent)
    (q' : RingQueue (RuntimeStringReference K)) (number : ℕ) (now : Int64) (c : Call K) :
    ∃ q₁ q₂, t.record sh (C.withRings q q') number now c =
      { t.record sh C number now c with
        context := (t.record sh C number now c).context.withRings q₁ q₂ } := by
  cases c with
  | zone name =>
    simp only [ThreadContext.record, ThreadContext.zone]
    split
    · exact ⟨q, q', rfl⟩
    · rename_i slot stack _
      obtain ⟨q₂, hq⟩ := stampEvent_withRings sh t C q q' now (stack.slab slot) name
      exact ⟨q, q₂, by rw [hq]⟩
  | endZone =>
    simp only [ThreadContext.record, ThreadContext.endZone]
    split
    · exact ⟨q, q', rfl⟩
    · exact ⟨_, q', rfl⟩
  | sample name probe =>
    obtain ⟨q₂, hq⟩ := stampEvent_withRings sh t C q q' now ⟨⟨0, 0⟩, ⟨0, 0, 0, 0, 0, 0⟩⟩ name
    exact ⟨_, q₂, by simp only [ThreadContext.record, ThreadContext.sample, hq]; rfl⟩

variable [DecidableEq T] {P P' Q : Process T K}

omit [DecidableEq K] in
theorem Agree.threadInit (h : Agree P Q) {t : T} (hs : P.espThreadInit t = some P') :
    ∃ Q', Q.espThreadInit t = some Q' ∧ Agree P' Q' := by
  rcases espThreadInit_cases hs with ⟨⟨p, ht⟩, rfl⟩ | ⟨ht, C, hC, rfl⟩
  · exact ⟨Q, espThreadInit_again (by rw [h.threadContext, ht]), h⟩
  · rcases h.context with ⟨hP, hQ⟩ | ⟨C', q, q', hP, hQ⟩
    · rw [hC] at hP
      cases hP
    · obtain rfl := Option.some.inj (hC.symm.trans hP)
      refine ⟨_, espThreadInit_fresh hQ (by rw [h.threadContext, ht]), h.paused, h.session, ?_, h.log,
        Or.inr ⟨_, q, q', rfl, rfl⟩⟩
      simp only [h.session, h.threadContext, ProfileContext.withRings]

theorem Agree.record (h : Agree P Q) {t : T} {now : Int64} {c : Call K}
    (hs : P.espRecord sh t now c = some P') :
    ∃ Q', Q.espRecord sh t now c = some Q' ∧ Agree P' Q' := by
  rcases espRecord_cases hs with
    ⟨hp, rfl⟩ | ⟨hp, hinit, hnone⟩ | ⟨hp, P₁, C, i, hinit, hC, hi, hlt, rfl⟩
  · exact ⟨Q, by rw [Process.espRecord, if_pos (h.paused.trans hp)], h⟩
  · obtain ⟨Q', hinit', h'⟩ := h.threadInit hinit
    refine ⟨Q', ?_, h'⟩
    rcases h'.context with ⟨-, hQ⟩ | ⟨C, q, q', hP, -⟩
    · rw [Process.espRecord, if_neg (by rw [h.paused, hp]; exact Bool.false_ne_true), hinit',
        Option.bind_some]
      simp only [hQ]
    · rw [hnone] at hP
      cases hP
  · obtain ⟨Q₁, hinit', h₁⟩ := h.threadInit hinit
    rcases h₁.context with ⟨hP, -⟩ | ⟨C', q, q', hP, hQ⟩
    · rw [hC] at hP
      cases hP
    · obtain rfl := Option.some.inj (hC.symm.trans hP)
      have hctx : Q₁.threadContext t = some (Q₁.session, i) := by
        rw [h₁.threadContext, h₁.session, hi]
      obtain ⟨q₁, q₂, hrec⟩ := record_withRings sh (C.threadContexts i) C q q' P₁.log.length now c
      have hthreads : (C.withRings q q').threadContexts i = C.threadContexts i := rfl
      refine ⟨_, espRecord_init sh (h.paused.trans hp) hinit' hQ hctx hlt now c, ?_⟩
      simp only [Process.recordIn, h₁.log, hthreads, hrec]
      exact ⟨h₁.paused, h₁.session, h₁.threadContext, rfl, Or.inr ⟨_, q₁, q₂, rfl, rfl⟩⟩

/-- STEP: an action of the session that is no drain keeps two processes alike. -/
theorem agree_step {a : Action T K} (h : Agree P Q) (ha : a.isDrain = false)
    (hs : step sh P a = some P') : ∃ Q', step sh Q a = some Q' ∧ Agree P' Q' := by
  cases a with
  | record t now c => exact h.record sh hs
  | threadInit t => exact h.threadInit hs
  | frameEnd now =>
    rcases h.context with ⟨hP, hQ⟩ | ⟨C, q, q', hP, hQ⟩
    · simp only [step, Process.mapContext, hP, Option.map_none] at hs
      cases hs
    · rw [step, mapContext_some hP] at hs
      obtain rfl := Option.some.inj hs
      exact ⟨_, mapContext_some hQ _, h.paused, h.session, h.threadContext, h.log,
        Or.inr ⟨_, q, q', rfl, rfl⟩⟩
  | setPaused b =>
    obtain rfl := Option.some.inj hs
    exact ⟨_, rfl, rfl, h.session, h.threadContext, h.log, h.context⟩
  | drainEvents n => cases ha
  | drainString => cases ha

/-- STEP: a drain changes rings only. -/
theorem agree_drain {a : Action T K} (h : Agree P Q) (ha : a.isDrain = true)
    (hs : step sh P a = some P') : Agree P' Q := by
  have hmap : ∃ f : ProfileContext K → ProfileContext K, P.mapContext f = some P' ∧
      ∀ C, ∃ q q', C = (f C).withRings q q' := by
    cases a with
    | drainEvents n => exact ⟨_, hs, fun C => ⟨C.eventQueue, C.stringQueue, rfl⟩⟩
    | drainString => exact ⟨_, hs, fun C => ⟨C.eventQueue, C.stringQueue, rfl⟩⟩
    | _ => cases ha
  obtain ⟨f, hf, hrings⟩ := hmap
  rcases h.context with ⟨hP, -⟩ | ⟨C, q, q', hP, hQ⟩
  · simp only [Process.mapContext, hP, Option.map_none] at hf
    cases hf
  · rw [mapContext_some hP] at hf
    obtain rfl := Option.some.inj hf
    obtain ⟨q₀, q₀', hC⟩ := hrings C
    refine ⟨h.paused, h.session, h.threadContext, h.log, Or.inr ⟨_, q, q', rfl, ?_⟩⟩
    rw [hQ]
    conv_lhs => rw [hC]
    rfl

/-- RUN: a run agrees with the run of its recording calls alone. -/
theorem agree_run {as : List (Action T K)} (h : Agree P Q) (hr : run (step sh) P as = some P') :
    ∃ Q', run (step sh) Q (as.filter fun a => !a.isDrain) = some Q' ∧ Agree P' Q' := by
  induction as generalizing P Q with
  | nil =>
    obtain rfl := Option.some.inj hr
    exact ⟨Q, rfl, h⟩
  | cons a as ih =>
    obtain ⟨P₁, hs, hr₁⟩ := run_cons_some.mp hr
    rcases ha : a.isDrain with _ | _
    · obtain ⟨Q₁, hQ₁, h₁⟩ := agree_step sh h ha hs
      obtain ⟨Q', hQ', h'⟩ := ih h₁ hr₁
      refine ⟨Q', ?_, h'⟩
      rw [List.filter_cons, ha]
      exact run_cons_some.mpr ⟨Q₁, hQ₁, hQ'⟩
    · obtain ⟨Q', hQ', h'⟩ := ih (agree_drain sh h ha hs) hr₁
      refine ⟨Q', ?_, h'⟩
      rw [List.filter_cons, ha]
      exact hQ'

/-- Two runs that differ in their drains only log the same. -/
theorem log_eq_of_drains {as bs : List (Action T K)} {P₁ P₂ : Process T K}
    (hab : (as.filter fun a => !a.isDrain) = bs.filter fun a => !a.isDrain)
    (h₁ : run (step sh) P as = some P₁) (h₂ : run (step sh) P bs = some P₂) : P₂.log = P₁.log := by
  obtain ⟨Q₁, hQ₁, ha₁⟩ := agree_run sh (Agree.refl P) h₁
  obtain ⟨Q₂, hQ₂, ha₂⟩ := agree_run sh (Agree.refl P) h₂
  rw [hab, hQ₂] at hQ₁
  obtain rfl := Option.some.inj hQ₁
  rw [← ha₂.log, ← ha₁.log]

end Esp.Context
