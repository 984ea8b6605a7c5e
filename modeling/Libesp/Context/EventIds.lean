import Libesp.Context.CallForest
import Libesp.Schemes.Tickets

/-! @esp context | name:NextEventID | scheme:tickets |
    source:src/Context.cpp (NextEventID, StampEvent, Zone, Sample), src/Context.h (nextMessageID)

    The recording calls of threads that are in each other's way. A call that stamps an event is two
    steps: up to the `fetch_add` of `NextEventID`, and from there to its end; other threads take any
    steps in between. What a thread has of its own, its stack, nobody else touches, so it is carried
    along from the first step to the second.

        t:  ── PeekParentID, Push, NextEventID ──┊── MapStringToReference, TryEnqueue ──▶ log
        u:              ── NextEventID ──┊── … ──▶ log

    The ids are tickets of one counter, read in 32 bits (`separateIds_iff`). -/

namespace Esp.Context
open Event PointerHash LocklessRing Slab Machine Tickets

variable {T K : Type}

/-- A thread between `NextEventID` and the end of its call. -/
structure Stamping (K : Type) where
  thread : ThreadContext
  /-- The index of `thread` among the contexts of the session. -/
  index : ℕ
  id : UInt32
  now : Int64
  call : Call K

/-- The process and the threads that are stamping. -/
structure Overlapped (T K : Type) where
  process : Process T K
  stamping : T → Option (Stamping K)

def Overlapped.new (P : Process T K) : Overlapped T K := ⟨P, fun _ => none⟩

inductive OverlappedAction (T K : Type) where
  /-- A recording call that stamps an event, up to `NextEventID`. -/
  | stamp (t : T) (now : Int64) (c : Call K)
  /-- The rest of it. -/
  | finish (t : T)
  /-- Anything else, recording calls that stamp no event included. -/
  | other (a : Action T K)

def OverlappedAction.isStamp : OverlappedAction T K → Bool
  | .stamp .. => true
  | _ => false

variable [DecidableEq K] [DecidableEq T] (sh : Shape K)

/-- The process, the context and the thread's index when a call of `t` comes to `NextEventID`; `none`
    when the call ends before. -/
def Process.toStamp (P : Process T K) (t : T) (c : Call K) :
    Option (Process T K × ProfileContext K × ℕ) :=
  if P.paused then none
  else
    (P.espThreadInit t).bind fun P =>
      match P.context, P.threadContext t with
      | some C, some (session, i) =>
        if session = P.session ∧ i < espMaxThreadCount ∧ (C.threadContexts i).passes c ≠ none then
          some (P, C, i)
        else none
      | _, _ => none

def Overlapped.stamp (s : Overlapped T K) (t : T) (now : Int64) (c : Call K) :
    Option (Overlapped T K) :=
  if (s.stamping t).isSome then none
  else
    (s.process.toStamp t c).map fun (P, C, i) =>
      let got := C.nextEventID
      { process := { P with context := some got.2 }
        stamping := Function.update s.stamping t
          (some ⟨C.threadContexts i, i, got.1, now, c⟩) }

def Overlapped.finish (s : Overlapped T K) (t : T) : Option (Overlapped T K) :=
  match s.stamping t, s.process.context with
  | some d, some C =>
    -- the call goes on with the id it was given
    let got := d.thread.record sh { C with nextMessageID := d.id.toNat } s.process.log.length d.now
      d.call
    some { process := { s.process with
             context := some { got.context with
               nextMessageID := C.nextMessageID
               threadContexts := Function.update C.threadContexts d.index got.thread }
             log := s.process.log ++ [(t, got.entry)] }
           stamping := Function.update s.stamping t none }
  | _, _ => none

/-- Is this a call of a thread that is in another one, or a call that stamps? -/
def Overlapped.busy (s : Overlapped T K) : Action T K → Bool
  | .record t _ c => (s.stamping t).isSome || (s.process.toStamp t c).isSome
  | .threadInit t => (s.stamping t).isSome
  | _ => false

def Overlapped.step (s : Overlapped T K) : OverlappedAction T K → Option (Overlapped T K)
  | .stamp t now c => s.stamp t now c
  | .finish t => s.finish sh t
  | .other a => if s.busy a then none else (Context.step sh s.process a).map fun P =>
    { s with process := P }

/-- The ids in the events that the finished calls of thread `t` stamped. -/
def Process.stampedBy (P : Process T K) (t : T) : List UInt32 :=
  (P.logOf t).filterMap fun e => e.stamp.map Stamp.id

/-- The ids thread `t` has put into events of the session, in the order of its calls. -/
def Overlapped.idsOf (s : Overlapped T K) (t : T) : List UInt32 :=
  s.process.stampedBy t ++ ((s.stamping t).map Stamping.id).toList

/-- Each thread's ids increase, none is the one of `no parent`, and no two threads share one. -/
def SeparateIds (s : Overlapped T K) : Prop := Separate 0 s.idsOf

/-- INVARIANT: the ids are the tickets of the counter, as the threads drew them. -/
structure IdsInv (s : Overlapped T K) (draws : List (T × ℕ)) : Prop where
  context : ∃ C, s.process.context = some C ∧ C.nextMessageID = draws.length + 1
  inTurn : InTurn draws
  ids : ∀ t, s.idsOf t = (own draws t).map UInt32.ofNat
  reaches : ∀ t d, s.stamping t = some d → d.thread.passes d.call ≠ none

variable {sh} {s s' : Overlapped T K} {draws : List (T × ℕ)}

omit [DecidableEq K] in
/-- INVERSION: a call that comes to `NextEventID`. -/
theorem toStamp_some {P P' : Process T K} {C : ProfileContext K} {t : T} {c : Call K} {i : ℕ}
    (h : P.toStamp t c = some (P', C, i)) : P.espThreadInit t = some P' ∧ P'.context = some C ∧
      (C.threadContexts i).passes c ≠ none := by
  unfold Process.toStamp at h
  split at h
  · cases h
  · obtain ⟨P₁, hinit, h⟩ := Option.bind_eq_some_iff.mp h
    split at h
    · rename_i C₁ session j hC hp
      split at h
      · rename_i hok
        cases h
        exact ⟨hinit, hC, hok.2.2⟩
      · cases h
    · cases h

omit [DecidableEq K] in
/-- `InitThread` leaves the calls and the id counter alone. -/
theorem threadInit_ids {P P' : Process T K} {t : T} (h : P.espThreadInit t = some P') :
    P'.log = P.log ∧ P'.paused = P.paused ∧
      P'.context.map ProfileContext.nextMessageID = P.context.map ProfileContext.nextMessageID := by
  rcases espThreadInit_cases h with ⟨-, rfl⟩ | ⟨-, C, hC, rfl⟩
  · exact ⟨rfl, rfl, rfl⟩
  · exact ⟨rfl, rfl, by rw [hC]; rfl⟩

omit [DecidableEq K] in
theorem stampedBy_concat (P : Process T K) (t u : T) (e : Entry K) :
    ({ P with log := P.log ++ [(t, e)] } : Process T K).stampedBy u =
      P.stampedBy u ++ if t = u then (e.stamp.map Stamp.id).toList else [] := by
  rw [Process.stampedBy, logOf_append, List.filterMap_append]
  by_cases htu : t = u
  · rcases hs : e.stamp with _ | σ <;> simp [Process.stampedBy, htu, hs]
  · simp [Process.stampedBy, htu]

omit [DecidableEq K] in
theorem stampedBy_congr {P P' : Process T K} (h : P'.log = P.log) (u : T) :
    P'.stampedBy u = P.stampedBy u := by
  rw [Process.stampedBy, Process.logOf, h, Process.stampedBy, Process.logOf]

/-- A call that ends before `NextEventID` is given no id. -/
theorem record_unstamped {P P' : Process T K} {t : T} {now : Int64} {c : Call K}
    (h : P.espRecord sh t now c = some P') (ht : P.toStamp t c = none) :
    (∀ u, P'.stampedBy u = P.stampedBy u) ∧
      P'.context.map ProfileContext.nextMessageID = P.context.map ProfileContext.nextMessageID := by
  rcases espRecord_cases h with ⟨-, rfl⟩ | ⟨-, hinit, -⟩ | ⟨hp, P₁, C, i, hinit, hC, hi, hlt, rfl⟩
  · exact ⟨fun u => rfl, rfl⟩
  · obtain ⟨hlog, -, hnext⟩ := threadInit_ids hinit
    exact ⟨stampedBy_congr hlog, hnext⟩
  · obtain ⟨hlog, -, hnext⟩ := threadInit_ids hinit
    have hpass : (C.threadContexts i).passes c = none := by
      by_contra hpass
      rw [Process.toStamp, if_neg (by rw [hp]; exact Bool.false_ne_true), hinit,
        Option.bind_some] at ht
      simp only [hC, hi] at ht
      rw [if_pos ⟨trivial, hlt, hpass⟩] at ht
      cases ht
    have hnone := (record_stamp sh (C.threadContexts i) C P₁.log.length now c).mpr hpass
    obtain ⟨-, -, hid⟩ := record_context sh (C.threadContexts i) C P₁.log.length now c
    refine ⟨?_, ?_⟩
    · intro u
      refine (stampedBy_concat P₁ t u _).trans ?_
      rw [hnone, Option.map_none, Option.toList_none, ite_self, List.append_nil]
      exact stampedBy_congr hlog u
    · rcases hid with ⟨-, hsame⟩ | ⟨σ, hσ, -⟩
      · rw [← hnext, hC]
        exact congrArg some hsame
      · rw [hnone] at hσ
        cases hσ

/-- STEP: an action other than a call that stamps gives out no id. -/
theorem step_ids {P P' : Process T K} {a : Action T K} (h : step sh P a = some P')
    (ha : ∀ t now c, a = .record t now c → P.toStamp t c = none) :
    (∀ u, P'.stampedBy u = P.stampedBy u) ∧
      P'.context.map ProfileContext.nextMessageID = P.context.map ProfileContext.nextMessageID := by
  cases a with
  | record t now c => exact record_unstamped h (ha t now c rfl)
  | threadInit t =>
    obtain ⟨hlog, -, hnext⟩ := threadInit_ids h
    exact ⟨stampedBy_congr hlog, hnext⟩
  | setPaused b =>
    obtain rfl := Option.some.inj h
    exact ⟨fun u => rfl, rfl⟩
  | frameEnd now =>
    obtain ⟨C, hC, rfl⟩ := Option.map_eq_some_iff.mp h
    exact ⟨fun u => rfl, by rw [hC]; rfl⟩
  | drainEvents n =>
    obtain ⟨C, hC, rfl⟩ := Option.map_eq_some_iff.mp h
    exact ⟨fun u => rfl, by rw [hC]; rfl⟩
  | drainString =>
    obtain ⟨C, hC, rfl⟩ := Option.map_eq_some_iff.mp h
    exact ⟨fun u => rfl, by rw [hC]; rfl⟩

/-! ### Steps -/

omit [DecidableEq K] in
/-- STEP: `NextEventID` is the next draw, and it is this thread's. -/
theorem IdsInv.stamp (h : IdsInv s draws) {t : T} {now : Int64} {c : Call K}
    (hs : s.stamp t now c = some s') : IdsInv s' (draws ++ [(t, draws.length + 1)]) := by
  unfold Overlapped.stamp at hs
  split at hs
  · cases hs
  · rename_i hfree
    obtain ⟨⟨P, C, i⟩, hto, rfl⟩ := Option.map_eq_some_iff.mp hs
    obtain ⟨hinit, hC, hpass⟩ := toStamp_some hto
    obtain ⟨hlog, -, hnext⟩ := threadInit_ids hinit
    obtain ⟨C₀, hC₀, hn⟩ := h.context
    rw [hC, hC₀, Option.map_some, Option.map_some, Option.some_inj] at hnext
    have hnum : C.nextMessageID = draws.length + 1 := hnext.trans hn
    refine ⟨⟨_, rfl, ?_⟩, h.inTurn.draw t, ?_, ?_⟩
    · rw [List.length_append, List.length_singleton]
      exact congrArg (· + 1) hnum
    · intro u
      rw [own_concat, List.map_append, ← h.ids u]
      rw [Overlapped.idsOf, Overlapped.idsOf, List.append_assoc]
      refine congrArg₂ _ (stampedBy_congr hlog u) ?_
      by_cases htu : t = u
      · subst htu
        have hnone : s.stamping t = none := Option.not_isSome_iff_eq_none.mp hfree
        simp only [Function.update_self, hnone, if_true, ProfileContext.nextEventID, hnum]
        rfl
      · simp only [Function.update_of_ne (Ne.symm htu), if_neg htu, List.map_nil, List.append_nil]
    · intro u d hd
      by_cases htu : u = t
      · subst htu
        simp only [Function.update_self, Option.some.injEq] at hd
        rw [← hd]
        exact hpass
      · simp only [Function.update_of_ne htu] at hd
        exact h.reaches u d hd

/-- STEP: the end of the call puts the id it was given into the log. -/
theorem IdsInv.finish (h : IdsInv s draws) {t : T} (hs : s.finish sh t = some s') :
    IdsInv s' draws := by
  unfold Overlapped.finish at hs
  split at hs
  · rename_i d C hd hC
    obtain ⟨C₀, hC₀, hn⟩ := h.context
    obtain rfl := Option.some.inj (hC.symm.trans hC₀)
    obtain rfl := Option.some.inj hs
    have hsome := (record_stamp sh d.thread { C with nextMessageID := d.id.toNat }
      s.process.log.length d.now d.call).not.mpr (h.reaches t d hd)
    obtain ⟨-, -, hid⟩ := record_context sh d.thread { C with nextMessageID := d.id.toNat }
      s.process.log.length d.now d.call
    refine ⟨⟨_, rfl, hn⟩, h.inTurn, ?_, ?_⟩
    · intro u
      rw [← h.ids u, Overlapped.idsOf, Overlapped.idsOf]
      refine (congrArg (· ++ _) (stampedBy_concat s.process t u _)).trans ?_
      rcases hid with ⟨hnone, -⟩ | ⟨σ, hσ, hid, -⟩
      · exact absurd hnone hsome
      · have hdid : σ.id = d.id := hid.trans UInt32.ofNat_toNat
        rw [hσ, List.append_assoc]
        refine congrArg _ ?_
        by_cases htu : t = u
        · subst htu
          simp only [Function.update_self, if_true, hd, Option.map_some, Option.map_none, hdid]
          rfl
        · simp only [Function.update_of_ne (Ne.symm htu), if_neg htu, List.nil_append]
    · intro u e he
      by_cases htu : u = t
      · subst htu
        simp only [Function.update_self] at he
        cases he
      · simp only [Function.update_of_ne htu] at he
        exact h.reaches u e he
  · cases hs

theorem IdsInv.other (h : IdsInv s draws) {a : Action T K}
    (hs : s.step sh (.other a) = some s') : IdsInv s' draws := by
  unfold Overlapped.step at hs
  simp only at hs
  split at hs
  · cases hs
  · rename_i hfree
    obtain ⟨P, hP, rfl⟩ := Option.map_eq_some_iff.mp hs
    have hunstamped : ∀ t now c, a = .record t now c → s.process.toStamp t c = none := by
      rintro t now c rfl
      rw [Overlapped.busy, Bool.or_eq_true, not_or] at hfree
      exact Option.not_isSome_iff_eq_none.mp hfree.2
    obtain ⟨hids, hnext⟩ := step_ids hP hunstamped
    obtain ⟨C₀, hC₀, hn⟩ := h.context
    rw [hC₀, Option.map_some] at hnext
    obtain ⟨C, hC, hCn⟩ := Option.map_eq_some_iff.mp hnext
    refine ⟨⟨C, hC, hCn.trans hn⟩, h.inTurn, ?_, h.reaches⟩
    intro u
    rw [← h.ids u, Overlapped.idsOf, Overlapped.idsOf, hids u]

/-- STEP: a call that stamps draws once, and nothing else draws. -/
theorem idsInv_step (h : IdsInv s draws) {a : OverlappedAction T K}
    (hs : s.step sh a = some s') :
    ∃ draws', IdsInv s' draws' ∧ draws'.length = draws.length + [a].countP OverlappedAction.isStamp := by
  cases a with
  | stamp t now c => exact ⟨_, h.stamp hs, List.length_append⟩
  | finish t => exact ⟨_, h.finish hs, rfl⟩
  | other a => exact ⟨_, h.other hs, rfl⟩

/-- RUN: the counter has given out as many ids as calls have stamped an event. -/
theorem idsInv_run (h : IdsInv s draws) {as : List (OverlappedAction T K)}
    (hr : run (Overlapped.step sh) s as = some s') :
    ∃ draws', IdsInv s' draws' ∧
      draws'.length = draws.length + as.countP OverlappedAction.isStamp := by
  induction as generalizing s draws with
  | nil =>
    obtain rfl := Option.some.inj hr
    exact ⟨draws, h, rfl⟩
  | cons a as ih =>
    obtain ⟨s₁, hs, hr⟩ := run_cons_some.mp hr
    obtain ⟨draws₁, h₁, hlen₁⟩ := idsInv_step h hs
    obtain ⟨draws₂, h₂, hlen₂⟩ := ih h₁ hr
    refine ⟨draws₂, h₂, ?_⟩
    rw [hlen₂, hlen₁, Nat.add_assoc, ← List.countP_append]
    rfl

omit [DecidableEq K] in
theorem idsInv_new {P P' : Process T K} {junk : Junk K} {main : T}
    (h : P.espInit junk main = some P') : IdsInv (Overlapped.new P') [] := by
  obtain ⟨hlog, -, hnext⟩ := threadInit_ids h
  obtain ⟨C, hC, hn⟩ := Option.map_eq_some_iff.mp hnext
  refine ⟨⟨C, hC, hn⟩, inTurn_nil, ?_, nofun⟩
  intro t
  have hnil : P'.stampedBy t = [] := by
    rw [Process.stampedBy, Process.logOf, hlog]
    rfl
  exact congrArg (· ++ []) hnil

/-! ### The ids in 32 bits -/

theorem ofNat_lt_ofNat {i j : ℕ} (hij : i < j) (hj : j < 2 ^ 32) :
    UInt32.ofNat i < UInt32.ofNat j := by
  rw [UInt32.lt_iff_toNat_lt, UInt32.toNat_ofNat_of_lt' (hij.trans hj),
    UInt32.toNat_ofNat_of_lt' hj]
  exact hij

theorem ofNat_ne_zero {i : ℕ} (hi : 1 ≤ i) (hlt : i < 2 ^ 32) : UInt32.ofNat i ≠ 0 := by
  intro h
  have htoNat := congrArg UInt32.toNat h
  rw [UInt32.toNat_ofNat_of_lt' hlt] at htoNat
  exact absurd htoNat (Nat.ne_of_gt hi)

omit [DecidableEq K] in
theorem IdsInv.separateIds_iff (h : IdsInv s draws) : SeparateIds s ↔ draws.length < 2 ^ 32 := by
  have hown : s.idsOf = fun t => (own draws t).map UInt32.ofNat := funext h.ids
  rw [SeparateIds, hown]
  exact separate_iff UInt32.lt_irrefl (by decide) rfl (fun i j hij hj => ofNat_lt_ofNat hij hj)
    (fun i h1 hlt => ofNat_ne_zero h1 hlt) h.inTurn

/-- EXACT: in every run of a session, the ids of its events tell them apart exactly when fewer than
    2^32 events have been stamped. -/
theorem separateIds_run {P P' : Process T K} {junk : Junk K} {main : T}
    (hinit : P.espInit junk main = some P') {as : List (OverlappedAction T K)}
    (hr : run (Overlapped.step sh) (Overlapped.new P') as = some s') :
    SeparateIds s' ↔ as.countP OverlappedAction.isStamp < 2 ^ 32 := by
  obtain ⟨draws, h, hlen⟩ := idsInv_run (idsInv_new hinit) hr
  rw [h.separateIds_iff, hlen, List.length_nil, Nat.zero_add]

/-- Two threads, one of them in the middle of a zone's call when the other samples. -/
def twoOverlapped : List (OverlappedAction Bool Addr) :=
  [.stamp true 1 (.zone (some zoneName)), .stamp false 2 (.sample (some zoneName) (.int 5)),
   .finish true, .finish false, .other (.record true 3 .endZone)]

theorem separateIds_run_twoOverlapped : ∃ P s,
    Process.start.espInit (Junk.zero zoneName) true = some P ∧
      run (Overlapped.step espStrings) (Overlapped.new P) twoOverlapped = some s ∧
      s.idsOf true = [1] ∧ s.idsOf false = [2] ∧ SeparateIds s := by
  refine ⟨_, _, rfl, rfl, rfl, rfl, ?_⟩
  exact (@separateIds_run Bool Addr _ _ espStrings _ Process.start _ (Junk.zero zoneName) true rfl
    twoOverlapped rfl).mpr (by decide)

/-! ### A session of 2^32 events -/

/-- A thread that has a context and is not in a call. -/
structure Ready (s : Overlapped T K) (t : T) (C : ProfileContext K) (i : ℕ) : Prop where
  context : s.process.context = some C
  paused : s.process.paused = false
  bound : s.process.threadContext t = some (s.process.session, i)
  index_lt : i < espMaxThreadCount
  free : s.stamping t = none

variable {t : T} {C : ProfileContext K} {i : ℕ}

variable (sh) in
/-- A thread that is ready can sample, and is ready again. -/
theorem Ready.sample (h : Ready s t C i) (now : Int64) (name : Option K)
    (probe : Probe) :
    ∃ s' C', run (Overlapped.step sh) s [.stamp t now (.sample name probe), .finish t] = some s' ∧
      Ready s' t C' i := by
  have hto : s.process.toStamp t (.sample name probe) = some (s.process, C, i) := by
    rw [Process.toStamp, if_neg (by rw [h.paused]; exact Bool.false_ne_true),
      espThreadInit_again h.bound, Option.bind_some]
    simp only [h.context, h.bound]
    rw [if_pos ⟨trivial, h.index_lt, Option.some_ne_none _⟩]
  have hstamp : s.stamp t now (.sample name probe) = some
      ⟨{ s.process with context := some C.nextEventID.2 }, Function.update s.stamping t
        (some ⟨C.threadContexts i, i, C.nextEventID.1, now, .sample name probe⟩)⟩ := by
    rw [Overlapped.stamp, h.free, hto]
    rfl
  obtain ⟨s', C', hfinish, h'⟩ : ∃ s' C', Overlapped.finish sh
      ⟨{ s.process with context := some C.nextEventID.2 }, Function.update s.stamping t
        (some ⟨C.threadContexts i, i, C.nextEventID.1, now, .sample name probe⟩)⟩ t = some s' ∧
      Ready s' t C' i := by
    simp only [Overlapped.finish, Function.update_self]
    exact ⟨_, _, rfl, ⟨rfl, h.paused, h.bound, h.index_lt, Function.update_self ..⟩⟩
  exact ⟨s', C', run_cons_some.mpr ⟨_, hstamp, run_cons_some.mpr ⟨s', hfinish, rfl⟩⟩, h'⟩

/-- `n` samples of one thread. -/
def sampleTimes (t : T) (name : Option K) : ℕ → List (OverlappedAction T K)
  | 0 => []
  | n + 1 => sampleTimes t name n ++ [.stamp t 0 (.sample name (.int 0)), .finish t]

omit [DecidableEq K] [DecidableEq T] in
theorem countP_sampleTimes (t : T) (name : Option K) (n : ℕ) :
    (sampleTimes t name n).countP OverlappedAction.isStamp = n := by
  induction n with
  | zero => rfl
  | succ n ih =>
    rw [sampleTimes, List.countP_append, ih]
    rfl

variable (sh) in
theorem Ready.sampleTimes (h : Ready s t C i) (name : Option K) (n : ℕ) :
    ∃ s' C', run (Overlapped.step sh) s (sampleTimes t name n) = some s' ∧ Ready s' t C' i := by
  induction n with
  | zero => exact ⟨s, C, rfl, h⟩
  | succ n ih =>
    obtain ⟨s₁, C₁, hr₁, h₁⟩ := ih
    obtain ⟨s₂, C₂, hr₂, h₂⟩ := h₁.sample sh 0 name (.int 0)
    refine ⟨s₂, C₂, ?_, h₂⟩
    rw [Context.sampleTimes, run_append]
    exact Option.bind_eq_some_iff.mpr ⟨s₁, hr₁, hr₂⟩

/-- REFUTED: the last of 2^32 samples has the id of no event. -/
theorem sampledLong_repeats : ∃ P s,
    Process.start.espInit (Junk.zero zoneName) () = some P ∧
      run (Overlapped.step espStrings) (Overlapped.new P)
        (sampleTimes () (some zoneName) 4294967296) = some s ∧ ¬ SeparateIds s := by
  obtain ⟨P, C, hinit, h₀⟩ : ∃ P C, Process.start.espInit (Junk.zero zoneName) () = some P ∧
      Ready (Overlapped.new P) () C 0 := ⟨_, _, rfl, rfl, rfl, rfl, by decide, rfl⟩
  obtain ⟨s, C', hr, -⟩ := h₀.sampleTimes espStrings (some zoneName) 4294967296
  refine ⟨P, s, hinit, hr, ?_⟩
  obtain ⟨draws, h, hlen⟩ := idsInv_run (idsInv_new hinit) hr
  rw [h.separateIds_iff, hlen, countP_sampleTimes]
  decide

end Esp.Context
