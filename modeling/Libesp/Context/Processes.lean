import Libesp.Context.Sessions
import Libesp.Uplift.ProbeValues

/-! @esp context | name:_context, _thread_context | scheme:simulation |
    source:src/profile.cpp, src/Context.cpp (InitThread), src/Timing.cpp (StartTimestampUpdate)

    A process from beginning to end, with the calls that threads make before its sessions, in them,
    between them and after the last.

        ───┼── session 1 ──┼──────────┼── session 2 ──┼───
        init            shutdown     init          shutdown

        esp_init in a session         ends the process: its timer thread is still joinable
        a call outside the sessions   reads a null `_context`, unless the thread asked before

    A thread that has asked for its context keeps the pointer, so outside the sessions its calls do
    nothing: the methods return when `_context` is null, before they touch anything. Which sequences
    of calls a process survives is read off the calls (`survives_iff`); and a session whose threads
    are new to the process has no past, its file included (`firstSession_run`). -/

namespace Esp.Context
open Event PointerHash LocklessRing Machine
open Writer (RawEventWriter)
open Uplift (SessionAction sessionStep callOf)

variable {T K : Type} [DecidableEq T]

/-- What the process survives. -/
def Roll.Survives (r : Roll T) : Deed T K → Prop
  | .init _ _ => r.opened = false
  | .shutdown => r.opened = true
  | .call (.record t _ _) =>
    r.paused = true ∨ if r.opened then (r.ask t).FirstHere t else t ∈ r.earlier ∨ t ∈ r.here
  | .call (.threadInit t) => r.opened = true ∨ t ∈ r.earlier ∨ t ∈ r.here
  | .call (.setPaused _) => True
  | .call (.frameEnd _) => r.opened = true
  | .call (.drainEvents _) => r.opened = true
  | .call .drainString => r.opened = true

instance (r : Roll T) (d : Deed T K) : Decidable (r.Survives d) :=
  match d with
  | .init _ _ => inferInstanceAs (Decidable (r.opened = false))
  | .shutdown => inferInstanceAs (Decidable (r.opened = true))
  | .call (.record t _ _) => inferInstanceAs (Decidable (r.paused = true ∨
      if r.opened then (r.ask t).FirstHere t else t ∈ r.earlier ∨ t ∈ r.here))
  | .call (.threadInit t) =>
    inferInstanceAs (Decidable (r.opened = true ∨ t ∈ r.earlier ∨ t ∈ r.here))
  | .call (.setPaused _) => isTrue trivial
  | .call (.frameEnd _) => inferInstanceAs (Decidable (r.opened = true))
  | .call (.drainEvents _) => inferInstanceAs (Decidable (r.opened = true))
  | .call .drainString => inferInstanceAs (Decidable (r.opened = true))

def Roll.survive (r : Roll T) (d : Deed T K) : Option (Roll T) :=
  if r.Survives d then
    match d with
    | .init t _ => some (r.init t)
    | .shutdown => some { r with opened := false }
    | .call a => some (r.call a)
  else none

variable [DecidableEq K] (sh : Shape K) (mem : K → List UInt8) (disk : ℕ → ℕ)

/-- What a call does to a process, in a session or outside; `none` when it ends it. -/
def processStep (P : Process T K) : Deed T K → Option (Process T K)
  | .init t junk =>
    match P.context with
    | some _ => none  -- `StartTimestampUpdate` assigns to a `std::thread` that is joinable
    | none => P.espInit junk t
  | .shutdown => P.espShutdown
  | .call a => step sh P a

variable {sh mem disk} {P Q : Process T K} {C : ProfileContext K} {r : Roll T} {t : T}

/-! ### What a process survives -/

/-- A recording call through a context of another session, or past the array, is undefined. -/
theorem espRecord_foreign (hp : P.paused = false) (hC : P.context = some C) {p : ℕ × ℕ}
    (ht : P.threadContext t = some p) (hforeign : ¬ (p.1 = P.session ∧ p.2 < espMaxThreadCount))
    (now : Int64) (c : Call K) : P.espRecord sh t now c = none := by
  rw [Process.espRecord, if_neg (by rw [hp]; exact Bool.false_ne_true), espThreadInit_again ht,
    Option.bind_some]
  simp only [hC, ht]
  exact if_neg hforeign

/-- Outside the sessions, a call of a thread that has asked for its context does nothing. -/
theorem espRecord_outside (hC : P.context = none) {p : ℕ × ℕ} (ht : P.threadContext t = some p)
    (now : Int64) (c : Call K) : P.espRecord sh t now c = some P := by
  rw [Process.espRecord, espThreadInit_again ht, Option.bind_some, hC]
  split <;> rfl

omit [DecidableEq K] in
/-- After `InitThread` the thread has a context. -/
theorem espThreadInit_pointer {P' : Process T K} (h : P.espThreadInit t = some P') :
    ∃ p, P'.threadContext t = some p := by
  rcases espThreadInit_cases h with ⟨⟨p, hp⟩, rfl⟩ | ⟨-, C, -, rfl⟩
  · exact ⟨p, hp⟩
  · exact ⟨_, Function.update_self ..⟩

omit [DecidableEq T] [DecidableEq K] in
theorem Follows.known_iff (h : Follows P r) :
    (t ∈ r.earlier ∨ t ∈ r.here) ↔ P.threadContext t ≠ none := by
  rw [Ne, h.null, not_and_or, not_not, not_not]

omit [DecidableEq T] [DecidableEq K] in
theorem Follows.closed (h : Follows P r) (hopen : r.opened = false) : P.context = none := by
  rw [← Option.isNone_iff_eq_none, ← Option.not_isSome, ← h.opened, hopen]
  rfl

omit [DecidableEq T] [DecidableEq K] in
/-- The pause flag alone. -/
theorem Follows.setPaused (h : Follows P r) (b : Bool) :
    Follows { P with paused := b } { r with paused := b } :=
  ⟨h.opened, rfl, h.count, h.null, h.stale, h.order⟩

variable (sh) in
/-- STEP: a recording call. -/
theorem Follows.survive_record (h : Follows P r) (t : T) (now : Int64) (c : Call K) :
    Option.Rel Follows (processStep sh P (.call (.record t now c)))
      (r.survive (.call (.record t now c) : Deed T K)) := by
  rw [Roll.survive]
  show Option.Rel Follows (P.espRecord sh t now c) _
  rcases hp : P.paused with _ | _
  · have hrp : r.paused = false := h.paused.trans hp
    have hcall : r.call (.record t now c : Action T K) = r.ask t := if_neg (by rw [hrp]; decide)
    rcases hopen : r.opened with _ | _
    · have hC := h.closed hopen
      rcases ht : P.threadContext t with _ | p
      · rw [if_neg ?_, Process.espRecord, if_neg (by rw [hp]; decide)]
        · simp only [Process.espThreadInit, hC, ht]
          exact .none
        · simp [Roll.Survives, hrp, hopen, h.known_iff, ht]
      · rw [if_pos ?_, espRecord_outside hC ht, hcall, Roll.ask, if_pos (h.known ht)]
        · exact .some h
        · simp [Roll.Survives, hrp, hopen, h.known_iff, ht]
    · obtain ⟨C, hC⟩ := Option.isSome_iff_exists.mp (h.opened.symm.trans hopen)
      obtain ⟨P₁, hinit, h₁⟩ := h.ask hC t
      have hopen₁ : (r.ask t).opened = true := by simpa using hopen
      by_cases hfirst : (r.ask t).FirstHere t
      · obtain ⟨P', hs, h'⟩ := h.record sh hopen hp hfirst now c
        rw [if_pos ?_, hcall]
        · rw [show P.espRecord sh t now c = some P' from hs]
          exact .some h'
        · exact Or.inr (by rw [hopen]; exact hfirst)
      · rw [if_neg ?_]
        · -- the pointer is not into the session's array
          obtain ⟨C₁, hC₁⟩ := Option.isSome_iff_exists.mp (h₁.opened.symm.trans hopen₁)
          obtain ⟨-, hpaused⟩ := espThreadInit_idem hinit
          obtain ⟨p, ht⟩ := espThreadInit_pointer hinit
          have hforeign : ¬ (p.1 = P₁.session ∧ p.2 < espMaxThreadCount) := by
            rintro ⟨hs, hi⟩
            refine hfirst ((h₁.owned_iff hopen₁ t).mp ⟨?_, p.2, hi, ?_⟩)
            · rw [hC₁]
              exact Option.some_ne_none _
            · rw [ht, ← hs]
          rw [espRecord_threadInit sh hp hinit,
            espRecord_foreign (hpaused.trans hp) hC₁ ht hforeign]
          exact .none
        · simp [Roll.Survives, hrp, hopen, hfirst]
  · have hrp : r.paused = true := h.paused.trans hp
    have hcall : r.call (.record t now c : Action T K) = r := if_pos hrp
    rw [if_pos (show r.Survives (.call (.record t now c)) from Or.inl hrp), Process.espRecord,
      if_pos hp, hcall]
    exact .some h

variable (sh) in
/-- STEP: what works on the context of the session. -/
theorem Follows.survive_session (h : Follows P r) {a : Action T K}
    (hcaller : a.caller = none) (hcall : r.call a = r) (hpauses : a.pauses r.paused = r.paused)
    (hsurvives : r.Survives (.call a) ↔ r.opened = true)
    (houtside : P.context = none → step sh P a = none) :
    Option.Rel Follows (processStep sh P (.call a)) (r.survive (.call a)) := by
  rw [Roll.survive]
  show Option.Rel Follows (step sh P a) _
  rcases hopen : r.opened with _ | _
  · rw [houtside (h.closed hopen), if_neg (by rw [hsurvives, hopen]; decide)]
    exact .none
  · obtain ⟨P', hs, h'⟩ := h.quiet sh hopen (a := a) fun t ht => by rw [hcaller] at ht; cases ht
    rw [hpauses] at h'
    rw [hs, if_pos (hsurvives.mpr hopen), hcall]
    exact .some h'

variable (sh) in
/-- STEP: the process survives a deed exactly when its roll does. -/
theorem follows_survive (h : Follows P r) (d : Deed T K) :
    Option.Rel Follows (processStep sh P d) (r.survive d) := by
  cases d with
  | init t junk =>
    rcases hopen : r.opened with _ | _
    · obtain ⟨P', hinit, h'⟩ := h.init junk t
      rw [processStep, h.closed hopen, Roll.survive, if_pos (show r.Survives (.init t junk) from hopen)]
      simp only [hinit]
      exact .some h'
    · obtain ⟨C, hC⟩ := Option.isSome_iff_exists.mp (h.opened.symm.trans hopen)
      rw [processStep, hC, Roll.survive, if_neg]
      · exact .none
      · exact fun hs => Bool.false_ne_true ((show r.opened = false from hs).symm.trans hopen)
  | shutdown =>
    rw [processStep, Process.espShutdown, Roll.survive]
    rcases hopen : r.opened with _ | _
    · rw [h.closed hopen, if_neg]
      · exact .none
      · exact fun hs => Bool.false_ne_true (hopen.symm.trans hs)
    · obtain ⟨C, hC⟩ := Option.isSome_iff_exists.mp (h.opened.symm.trans hopen)
      rw [hC, if_pos (show r.Survives (.shutdown : Deed T K) from hopen)]
      exact .some ⟨rfl, h.paused, (fun _ hC => by cases hC), h.null, h.stale, h.order⟩
  | call a =>
    cases a with
    | record t now c => exact h.survive_record sh t now c
    | threadInit t =>
      rw [Roll.survive]
      show Option.Rel Follows (P.espThreadInit t) _
      rcases hC : P.context with _ | C
      · have hopen : r.opened = false := by rw [h.opened, hC]; rfl
        rcases ht : P.threadContext t with _ | p
        · rw [if_neg (by simp only [Roll.Survives, hopen, h.known_iff, ht]; decide)]
          simp only [Process.espThreadInit, hC, ht]
          exact .none
        · have hcall : r.call (.threadInit t : Action T K) = r := by
            rw [Roll.call, Roll.ask, if_pos (h.known ht)]
          rw [espThreadInit_again ht,
            if_pos (show r.Survives (.call (.threadInit t)) from Or.inr (h.known ht)), hcall]
          exact .some h
      · obtain ⟨P₁, hinit, h₁⟩ := h.ask hC t
        have hopen : r.opened = true := by rw [h.opened, hC]; rfl
        rw [hinit, if_pos (show r.Survives (.call (.threadInit t)) from Or.inl hopen)]
        exact .some h₁
    | setPaused b => exact .some (h.setPaused b)
    | frameEnd now =>
      refine h.survive_session sh rfl rfl rfl Iff.rfl fun hC => ?_
      rw [step, Process.mapContext, hC, Option.map_none]
    | drainEvents n =>
      refine h.survive_session sh rfl rfl rfl Iff.rfl fun hC => ?_
      rw [step, Process.mapContext, hC, Option.map_none]
    | drainString =>
      refine h.survive_session sh rfl rfl rfl Iff.rfl fun hC => ?_
      rw [step, Process.mapContext, hC, Option.map_none]

/-- EXACT: a process survives a sequence of calls, in its sessions and outside, exactly when no session
    is opened in another or closed outside one, every thread that is not paused records in a session
    as one of the first `espMaxThreadCount` that asked for their first context there, and outside the
    sessions only threads call that have asked for one. -/
theorem survives_iff (sh : Shape K) (ds : List (Deed T K)) :
    (run (processStep sh) Process.start ds).isSome = true ↔
      (run Roll.survive Roll.start ds).isSome = true := by
  have htogether := run_together (R := Follows)
    (fun d (_ : d ∈ ds) P r (h : Follows P r) => follows_survive sh h d) follows_start
  rcases rel_cases htogether with ⟨hP, hr⟩ | ⟨P, r, hP, hr, -⟩
  · rw [hP, hr]
    exact Iff.rfl
  · rw [hP, hr]
    exact iff_of_true rfl rfl

/-- A session of one thread, and a call of it outside. -/
def pastSession : List (Deed Bool Addr) :=
  [.call (.setPaused true), .init true (Junk.zero zoneName), .call (.setPaused false),
    .call (.record true 10 (.zone (some zoneName))), .shutdown, .call (.record true 11 .endZone)]

example : (run Roll.survive Roll.start pastSession).isSome = true := by decide

example : (run Roll.survive Roll.start
    (pastSession ++ [.call (.record false 12 .endZone)])).isSome = false := by decide

/-! ### A session without a past -/

/-- The thread of a call that needs a context. -/
def callerOf : SessionAction T K → Option T
  | .recorder (.record t _ _) => some t
  | .threadInit t => some t
  | _ => none

/-- The thread has asked for a context, in this session or an earlier one. -/
def Process.Known (P : Process T K) (t : T) : Prop := P.threadContext t ≠ none

/-- Two processes that differ in the sessions before, and in the pointers of the threads `old`. -/
structure Alike (old : T → Prop) (P Q : Process T K) : Prop where
  context : P.context = Q.context
  paused : P.paused = Q.paused
  log : P.log = Q.log
  here : ∀ t, ¬ old t → ∀ p, P.threadContext t = some p → p.1 = P.session
  threads : ∀ t, ¬ old t → Q.threadContext t = (P.threadContext t).map fun p => (Q.session, p.2)

variable {old : T → Prop}

omit [DecidableEq T] [DecidableEq K] in
theorem Alike.withContext (h : Alike old P Q) (C : Option (ProfileContext K)) :
    Alike old { P with context := C } { Q with context := C } :=
  ⟨rfl, h.paused, h.log, h.here, h.threads⟩

omit [DecidableEq K] in
/-- STEP: a thread that is not `old` asks for its context. -/
theorem Alike.threadInit (h : Alike old P Q) (ht : ¬ old t) :
    Option.Rel (Alike old) (P.espThreadInit t) (Q.espThreadInit t) := by
  have hthread := h.threads t ht
  rcases hp : P.threadContext t with _ | p
  · rw [hp, Option.map_none] at hthread
    rcases hC : P.context with _ | C
    · simp only [Process.espThreadInit, hC, hp, ← h.context, hthread]
      exact .none
    · rw [espThreadInit_fresh hC hp, espThreadInit_fresh (h.context ▸ hC) hthread]
      refine .some ⟨rfl, h.paused, h.log, ?_, ?_⟩
      · intro u hu p hp'
        by_cases hut : u = t
        · subst hut
          simp only [Function.update_self, Option.some.injEq] at hp'
          rw [← hp']
        · simp only [Function.update_of_ne hut] at hp'
          exact h.here u hu p hp'
      · intro u hu
        by_cases hut : u = t
        · subst hut
          simp only [Function.update_self, Option.map_some]
        · simp only [Function.update_of_ne hut]
          exact h.threads u hu
  · rw [hp, Option.map_some] at hthread
    rw [espThreadInit_again hp, espThreadInit_again hthread]
    exact .some h

variable (sh) in
/-- STEP: a recording call of a thread that is not `old`. -/
theorem Alike.record (h : Alike old P Q) (ht : ¬ old t) (now : Int64) (c : Call K) :
    Option.Rel (Alike old) (P.espRecord sh t now c) (Q.espRecord sh t now c) := by
  rcases hp : P.paused with _ | _
  · have hq : Q.paused = false := h.paused.symm.trans hp
    rcases rel_cases (h.threadInit ht) with ⟨hP, hQ⟩ | ⟨P₁, Q₁, hP, hQ, h₁⟩
    · rw [Process.espRecord, Process.espRecord, if_neg (by rw [hp]; decide),
        if_neg (by rw [hq]; decide), hP, hQ]
      exact .none
    · obtain ⟨p, hpointer⟩ := espThreadInit_pointer hP
      have hpointer' := h₁.threads t ht
      rw [hpointer, Option.map_some] at hpointer'
      have hhere := h₁.here t ht p hpointer
      have hp₁ : P₁.paused = false := (espThreadInit_idem hP).2.trans hp
      have hq₁ : Q₁.paused = false := (espThreadInit_idem hQ).2.trans hq
      rw [espRecord_threadInit sh hp hP, espRecord_threadInit sh hq hQ]
      rcases hC : P₁.context with _ | C
      · rw [espRecord_outside hC hpointer, espRecord_outside (h₁.context.symm.trans hC) hpointer']
        exact .some h₁
      · have hC' : Q₁.context = some C := h₁.context.symm.trans hC
        by_cases hi : p.2 < espMaxThreadCount
        · obtain ⟨session, i⟩ := p
          obtain rfl : session = P₁.session := hhere
          rw [espRecord_bound sh hp₁ hC hpointer hi, espRecord_bound sh hq₁ hC' hpointer' hi]
          simp only [Process.recordIn, h₁.log]
          exact .some ⟨rfl, h₁.paused, rfl, h₁.here, h₁.threads⟩
        · rw [espRecord_foreign hp₁ hC hpointer fun hf => hi hf.2,
            espRecord_foreign hq₁ hC' hpointer' fun hf => hi hf.2]
          exact .none
  · rw [Process.espRecord, Process.espRecord, if_pos hp, if_pos (h.paused.symm.trans hp)]
    exact .some h

/-- The two sessions so far, with their writers. -/
def AlikeSessions (old : T → Prop) (s u : Recorder T K) : Prop :=
  Alike old s.process u.process ∧ s.writer = u.writer

variable {s u : Recorder T K}

omit [DecidableEq T] [DecidableEq K] in
theorem AlikeSessions.mapProcess (h : AlikeSessions old s u) {P Q : Option (Process T K)}
    (hPQ : Option.Rel (Alike old) P Q) :
    Option.Rel (AlikeSessions old) (P.map fun P => { s with process := P })
      (Q.map fun Q => { u with process := Q }) := by
  obtain hPQ | _ := hPQ
  · exact .some ⟨hPQ, h.2⟩
  · exact .none

omit [DecidableEq T] [DecidableEq K] in
theorem AlikeSessions.mapContext (h : AlikeSessions old s u)
    (f : ProfileContext K → ProfileContext K) :
    Option.Rel (Alike old) (s.process.mapContext f) (u.process.mapContext f) := by
  rw [Process.mapContext, Process.mapContext, ← h.1.context]
  rcases s.process.context with _ | C
  · exact .none
  · exact .some (h.1.withContext _)

/-- STEP: the next thing that happens in the session. -/
theorem AlikeSessions.step (h : AlikeSessions old s u) (fuel : ℕ) {a : SessionAction T K}
    (ha : ∀ t ∈ callerOf a, ¬ old t) :
    Option.Rel (AlikeSessions old) (sessionStep sh mem disk fuel s a)
      (sessionStep sh mem disk fuel u a) := by
  cases a with
  | recorder a =>
    cases a with
    | record t now c => exact h.mapProcess (h.1.record sh (ha t rfl) now c)
    | drain =>
      simp only [sessionStep, Recorder.step, Recorder.consume, ← h.1.context, ← h.2]
      rcases s.process.context with _ | C
      · exact .none
      · rw [Option.bind_some, Option.bind_some]
        rcases (onRings s.writer C).drain mem disk fuel with _ | w
        · exact .none
        · exact .some ⟨h.1.withContext _, rfl⟩
  | threadInit t => exact h.mapProcess (h.1.threadInit (ha t rfl))
  | frameEnd now => exact h.mapProcess (h.mapContext _)
  | setPaused b =>
    exact .some ⟨⟨h.1.context, rfl, h.1.log, h.1.here, h.1.threads⟩, h.2⟩

/-- What there is to see of a session. -/
def Recorder.seen (s : Recorder T K) :
    Option (ProfileContext K) × List (T × Entry K) × RawEventWriter K :=
  (s.process.context, s.process.log, s.writer)

def afterPast : Process Bool Addr :=
  (run (processStep espStrings) Process.start pastSession).getD Process.start

def secondSession : List (SessionAction Bool Addr) :=
  [.recorder (.record false 13 (.sample (some probeName) (.int 7))), .recorder .drain]

/-- The second session, opened after the process `P`. -/
def sessionAfter (P : Process Bool Addr) : Option (Recorder Bool Addr) :=
  (processStep espStrings P (.init false (Junk.zero zoneName))).bind fun P' =>
    run (sessionStep espStrings oneLetter steady 3)
      (Recorder.new P' (Junk.zero zoneName) fun _ => Writer.tick 0) secondSession

end Esp.Context
