import Libesp.Context.ThreadLives

/-! @esp context | name:ProfileContext, _thread_context | scheme:simulation |
    source:src/profile.cpp (esp_init, esp_shutdown, esp_thread_init), src/Context.cpp (InitThread)

    One session after another. `esp_shutdown` deletes the context and with it the contexts of the
    threads, but the threads' pointers stay, and `InitThread` leaves alone a pointer that is not null.

        esp_init     esp_shutdown     esp_init
        t ─▶ (1,0)    deleted          (1,0) ◀─ t    still
                                       (2,0) ◀─ u    u calls for the first time

    So a thread records in the session of its first call and in no other. `Roll` reads off the calls
    alone which thread came first in which session. -/

namespace Esp.Context
open Event PointerHash Machine

variable {T K : Type}

/-- What happens to a process: sessions open and close, and the threads call. -/
inductive Deed (T K : Type) where
  | init (t : T) (junk : Junk K)
  | shutdown
  | call (a : Action T K)

/-- `esp_shutdown`: the context is deleted. -/
def Process.espShutdown (P : Process T K) : Option (Process T K) :=
  P.context.map fun _ => { P with context := none }

/-- Thread `t` has a context that was created with the session now open. -/
def Process.Owned (P : Process T K) (t : T) : Prop :=
  P.context ≠ none ∧ ∃ i < espMaxThreadCount, P.threadContext t = some (P.session, i)

/-- What the calls made so far say by themselves. -/
structure Roll (T : Type) where
  opened : Bool
  paused : Bool
  /-- The threads that asked for a context in an earlier session. -/
  earlier : Finset T
  /-- The others that asked for one in the last session, in the order they came. -/
  here : List T

def Roll.start : Roll T := ⟨false, false, ∅, []⟩

/-- The thread came first in this session, and early enough. -/
def Roll.FirstHere (r : Roll T) (t : T) : Prop := t ∈ r.here.take espMaxThreadCount

variable [DecidableEq T]

instance (r : Roll T) (t : T) : Decidable (r.FirstHere t) :=
  inferInstanceAs (Decidable (t ∈ r.here.take espMaxThreadCount))

/-- Thread `t` asks for a context. -/
def Roll.ask (r : Roll T) (t : T) : Roll T :=
  if t ∈ r.earlier ∨ t ∈ r.here then r else { r with here := r.here ++ [t] }

def Roll.init (r : Roll T) (t : T) : Roll T :=
  ({ r with opened := true, earlier := r.earlier ∪ r.here.toFinset, here := [] } : Roll T).ask t

def Roll.call (r : Roll T) : Action T K → Roll T
  | .record t _ _ => if r.paused then r else r.ask t
  | .threadInit t => r.ask t
  | .setPaused shouldPause => { r with paused := shouldPause }
  | _ => r

/-- `none` at a call outside a session, and at an `esp_init` inside one. -/
def Roll.step (r : Roll T) : Deed T K → Option (Roll T)
  | .init t _ => if r.opened then none else some (r.init t)
  | .shutdown => if r.opened then some { r with opened := false } else none
  | .call a => if r.opened then some (r.call a) else none

/-- A thread that opens a session, or records in it, came first in this session. -/
def Roll.Newcomer (r : Roll T) : Deed T K → Prop
  | .init t _ => (r.init t).FirstHere t
  | .call (.record t _ _) => r.paused = false → (r.ask t).FirstHere t
  | _ => True

instance (r : Roll T) (d : Deed T K) : Decidable (r.Newcomer d) :=
  match d with
  | .init t _ => inferInstanceAs (Decidable ((r.init t).FirstHere t))
  | .shutdown => isTrue trivial
  | .call (.record t _ _) =>
    inferInstanceAs (Decidable (r.paused = false → (r.ask t).FirstHere t))
  | .call (.threadInit _) => isTrue trivial
  | .call (.frameEnd _) => isTrue trivial
  | .call (.setPaused _) => isTrue trivial
  | .call (.drainEvents _) => isTrue trivial
  | .call .drainString => isTrue trivial

variable [DecidableEq K] (sh : Shape K)

def deed (P : Process T K) : Deed T K → Option (Process T K)
  | .init t junk => P.espInit junk t
  | .shutdown => P.espShutdown
  | .call a => step sh P a

omit [DecidableEq K] in
/-- A recording call that is not paused records through a context of the session now open, and after
    `esp_init` the calling thread has one. -/
def UsesOpenSession (P : Process T K) : Deed T K → Prop
  | .init t junk => ∃ P', P.espInit junk t = some P' ∧ P'.Owned t
  | .call (.record t _ _) => P.paused = false → ∃ P', P.espThreadInit t = some P' ∧ P'.Owned t
  | _ => True

/-! ### The process and its roll -/

/-- REFINEMENT: the pointers of the process are what the roll says. -/
structure Follows (P : Process T K) (r : Roll T) : Prop where
  opened : r.opened = P.context.isSome
  paused : r.paused = P.paused
  count : ∀ C, P.context = some C → C.threadCount = r.here.length
  null : ∀ t, P.threadContext t = none ↔ t ∉ r.earlier ∧ t ∉ r.here
  stale : ∀ t ∈ r.earlier, ∀ p, P.threadContext t = some p → p.1 < P.session
  order : ∀ t i, P.threadContext t = some (P.session, i) ↔ r.here[i]? = some t

variable {sh} {P P' : Process T K} {C : ProfileContext K} {r : Roll T} {t : T}

omit [DecidableEq K] in
@[simp] theorem Roll.ask_opened (r : Roll T) (t : T) : (r.ask t).opened = r.opened := by
  rw [Roll.ask]
  split <;> rfl

omit [DecidableEq T] [DecidableEq K] in
theorem Follows.owned_iff (h : Follows P r) (hopen : r.opened = true) (t : T) :
    P.Owned t ↔ r.FirstHere t := by
  have hC : P.context ≠ none := by
    rw [h.opened, Option.isSome_iff_ne_none] at hopen
    exact hopen
  rw [Process.Owned, and_iff_right hC, Roll.FirstHere, List.mem_iff_getElem?]
  constructor
  · rintro ⟨i, hi, hctx⟩
    exact ⟨i, by rw [List.getElem?_take_of_lt hi]; exact (h.order t i).mp hctx⟩
  · rintro ⟨i, hget⟩
    rw [List.getElem?_take] at hget
    split_ifs at hget with hi
    exact ⟨i, hi, (h.order t i).mpr hget⟩

omit [DecidableEq T] [DecidableEq K] in
/-- A thread that has a context asked for it. -/
theorem Follows.known (h : Follows P r) {p : ℕ × ℕ} (hp : P.threadContext t = some p) :
    t ∈ r.earlier ∨ t ∈ r.here := by
  by_contra hnew
  rw [not_or, ← h.null, hp] at hnew
  cases hnew

theorem getElem?_concat_iff {α : Type} {l : List α} {a b : α} {i : ℕ} :
    (l ++ [a])[i]? = some b ↔ l[i]? = some b ∨ i = l.length ∧ a = b := by
  rcases Nat.lt_trichotomy i l.length with hlt | rfl | hgt
  · rw [List.getElem?_append_left hlt, or_iff_left fun h => hlt.ne h.1]
  · simp
  · rw [List.getElem?_eq_none (by simp; omega), List.getElem?_eq_none (by omega)]
    exact iff_of_false nofun fun h => h.elim nofun fun h => hgt.ne' h.1

omit [DecidableEq K] in
/-- STEP: a thread asks for a context. -/
theorem Follows.ask (h : Follows P r) (hC : P.context = some C) (t : T) :
    ∃ P', P.espThreadInit t = some P' ∧ Follows P' (r.ask t) := by
  rcases hn : P.threadContext t with _ | p
  · obtain ⟨hearlier, hhere⟩ := (h.null t).mp hn
    have hself : (P.bindNext C t).threadContext t = some (P.session, C.threadCount) :=
      Function.update_self ..
    have hother : ∀ u, u ≠ t → (P.bindNext C t).threadContext u = P.threadContext u := fun u hu =>
      Function.update_of_ne hu ..
    have hlen := h.count C hC
    rw [Roll.ask, if_neg (not_or.mpr ⟨hearlier, hhere⟩)]
    refine ⟨P.bindNext C t, espThreadInit_fresh hC hn, ⟨?_, h.paused, ?_, ?_, ?_, ?_⟩⟩
    · rw [h.opened, hC]
      rfl
    · rintro C' hC'
      obtain rfl := Option.some.inj hC'
      rw [List.length_append, List.length_singleton, ← hlen]
    · intro u
      by_cases hut : u = t
      · subst hut
        rw [hself]
        simp
      · rw [hother u hut, h.null u]
        simp [hut]
    · intro u hu p hp
      have hut : u ≠ t := by
        rintro rfl
        exact hearlier hu
      exact h.stale u hu p (hother u hut ▸ hp)
    · intro u i
      rw [getElem?_concat_iff]
      by_cases hut : u = t
      · subst hut
        have hold : r.here[i]? ≠ some u := fun hget => hhere (List.mem_of_getElem? hget)
        rw [hself, hlen, or_iff_right hold, and_iff_left rfl, Option.some.injEq, Prod.mk.injEq]
        exact ⟨fun heq => heq.2.symm, fun heq => ⟨rfl, heq.symm⟩⟩
      · rw [hother u hut, or_iff_left fun heq => hut heq.2.symm]
        exact h.order u i
  · rw [Roll.ask, if_pos (h.known hn)]
    exact ⟨P, espThreadInit_again hn, h⟩

omit [DecidableEq K] in
/-- STEP: `esp_init` leaves every pointer behind in an earlier session, and its caller asks anew. -/
theorem Follows.init (h : Follows P r) (junk : Junk K) (t : T) :
    ∃ P', P.espInit junk t = some P' ∧ Follows P' (r.init t) := by
  let P₁ : Process T K :=
    { P with
      session := P.session + 1
      context := some (ProfileContext.new junk)
      log := [] }
  -- no thread has a context of the new session, and all those it has are of earlier ones
  have hold : ∀ u p, P.threadContext u = some p → p.1 ≤ P.session := by
    intro u p hp
    rcases h.known hp with he | hhere
    · exact (h.stale u he p hp).le
    · obtain ⟨i, hi⟩ := List.mem_iff_getElem?.mp hhere
      have := Option.some.inj (((h.order u i).mpr hi).symm.trans hp)
      rw [← this]
  have h₁ : Follows P₁ ⟨true, r.paused, r.earlier ∪ r.here.toFinset, []⟩ := by
    refine ⟨rfl, h.paused, ?_, ?_, ?_, ?_⟩
    · rintro C hC
      obtain rfl := Option.some.inj hC
      rfl
    · intro u
      rw [Finset.mem_union, List.mem_toFinset, not_or]
      exact (h.null u).trans (iff_of_eq (by simp))
    · exact fun u _ p hp => Nat.lt_succ_of_le (hold u p hp)
    · intro u i
      refine iff_of_false ?_ nofun
      intro hp
      exact absurd (hold u _ hp) (Nat.not_succ_le_self _)
  obtain ⟨P', hP', h'⟩ := h₁.ask rfl t
  exact ⟨P', hP', h'⟩

omit [DecidableEq T] [DecidableEq K] in
/-- What binds nobody. -/
theorem Follows.same (h : Follows P r) (hs : SameThreads P P' r.here.length)
    (hopen : r.opened = true) :
    Follows P' { r with paused := P'.paused } := by
  obtain ⟨⟨C', hC', hcount⟩, hsession, hctx⟩ := hs
  refine ⟨?_, rfl, ?_, ?_, ?_, ?_⟩
  · rw [hC', hopen]
    rfl
  · intro C'' hC''
    obtain rfl := Option.some.inj (hC'.symm.trans hC'')
    exact hcount
  · rw [hctx]
    exact h.null
  · rw [hctx, hsession]
    exact h.stale
  · rw [hctx, hsession]
    exact h.order

/-! ### What a call does to the pointers -/

variable (sh) in
/-- STEP: a recording call of a thread that came first in the session is defined, and the pointers are
    then those of the roll. -/
theorem Follows.record (h : Follows P r) (hopen : r.opened = true) (hp : P.paused = false)
    (hfirst : (r.ask t).FirstHere t) (now : Int64) (c : Call K) :
    ∃ P', step sh P (.record t now c) = some P' ∧ Follows P' (r.ask t) := by
  obtain ⟨C, hC⟩ := Option.isSome_iff_exists.mp (h.opened.symm.trans hopen)
  obtain ⟨P₁, hinit, h₁⟩ := h.ask hC t
  have hopen₁ : (r.ask t).opened = true := by simpa using hopen
  obtain ⟨-, i, hi, hctx⟩ := (h₁.owned_iff hopen₁ t).mpr hfirst
  obtain ⟨C₁, hC₁⟩ := Option.isSome_iff_exists.mp (h₁.opened.symm.trans hopen₁)
  obtain ⟨P', hs, hsame, hpaused⟩ := step_bound sh hC₁ (a := .record t now c) (by
    intro u hu
    obtain rfl := Option.some.inj hu
    exact Or.inl ⟨i, hctx, hi⟩)
  rw [h₁.count C₁ hC₁] at hsame
  have h' := h₁.same hsame hopen₁
  have hflag : P'.paused = (r.ask t).paused := hpaused.trans h₁.paused.symm
  rw [hflag] at h'
  refine ⟨P', ?_, h'⟩
  rw [step, espRecord_threadInit sh hp hinit]
  exact hs

variable (sh) in
/-- STEP: a call that gives nobody a context. -/
theorem Follows.quiet (h : Follows P r) (hopen : r.opened = true) {a : Action T K}
    (ha : ∀ t ∈ a.caller, a.binds P.paused ∅ = none) :
    ∃ P', step sh P a = some P' ∧ Follows P' { r with paused := a.pauses r.paused } := by
  obtain ⟨C, hC⟩ := Option.isSome_iff_exists.mp (h.opened.symm.trans hopen)
  obtain ⟨P', hs, hsame, hpaused⟩ := step_bound sh hC fun t ht => Or.inr (ha t ht)
  rw [h.count C hC] at hsame
  have h' := h.same hsame hopen
  rw [hpaused, ← h.paused] at h'
  exact ⟨P', hs, h'⟩

variable (sh) in
/-- STEP: a deed uses the open session exactly when its thread came first here; and then the roll
    follows it. -/
theorem follows_step {r' : Roll T} (h : Follows P r) {d : Deed T K} (hd : r.step d = some r') :
    (UsesOpenSession P d ↔ r.Newcomer d) ∧
      (r.Newcomer d → ∃ P', deed sh P d = some P' ∧ Follows P' r') := by
  cases d with
  | init t junk =>
    obtain ⟨P', hinit, h'⟩ := h.init junk t
    rw [Roll.step] at hd
    split_ifs at hd with hopen
    obtain rfl := Option.some.inj hd
    have hopen' : (r.init t).opened = true := by simp [Roll.init]
    refine ⟨?_, fun _ => ⟨P', hinit, h'⟩⟩
    rw [UsesOpenSession, Roll.Newcomer, ← h'.owned_iff hopen', hinit]
    simp only [Option.some.injEq, exists_eq_left']
  | shutdown =>
    rw [Roll.step] at hd
    split_ifs at hd with hopen
    obtain rfl := Option.some.inj hd
    obtain ⟨C, hC⟩ := Option.isSome_iff_exists.mp (h.opened.symm.trans hopen)
    refine ⟨Iff.rfl, fun _ => ⟨{ P with context := none }, ?_,
      ⟨rfl, h.paused, nofun, h.null, h.stale, h.order⟩⟩⟩
    rw [deed, Process.espShutdown, hC, Option.map_some]
  | call a =>
    rw [Roll.step] at hd
    split_ifs at hd with hopen
    obtain rfl := Option.some.inj hd
    obtain ⟨C, hC⟩ := Option.isSome_iff_exists.mp (h.opened.symm.trans hopen)
    cases a with
    | record t now c =>
      rcases hp : P.paused with _ | _
      · obtain ⟨P₁, hinit, h₁⟩ := h.ask hC t
        have hopen₁ : (r.ask t).opened = true := by simpa using hopen
        have hrp : r.paused = false := h.paused.trans hp
        have hcall : r.call (.record t now c) = r.ask t := if_neg (by rw [hrp]; nofun)
        rw [hcall]
        refine ⟨?_, fun hfirst => h.record sh hopen hp (hfirst hrp) now c⟩
        rw [UsesOpenSession, Roll.Newcomer, hp, hrp, ← h₁.owned_iff hopen₁, hinit]
        simp only [Option.some.injEq, exists_eq_left']
      · have hrp : r.paused = true := h.paused.trans hp
        have hcall : r.call (.record t now c) = r := if_pos hrp
        rw [hcall]
        refine ⟨?_, fun _ => ?_⟩
        · rw [UsesOpenSession, Roll.Newcomer, hp, hrp]
          exact iff_of_true nofun nofun
        · exact h.quiet sh hopen (a := .record t now c) fun _ _ => if_pos (Or.inl hp)
    | threadInit t =>
      obtain ⟨P₁, hinit, h₁⟩ := h.ask hC t
      exact ⟨Iff.rfl, fun _ => ⟨P₁, hinit, h₁⟩⟩
    | frameEnd now =>
      exact ⟨Iff.rfl, fun _ => h.quiet sh hopen (a := .frameEnd now) fun _ hu => by cases hu⟩
    | setPaused b =>
      exact ⟨Iff.rfl, fun _ => h.quiet sh hopen (a := .setPaused b) fun _ hu => by cases hu⟩
    | drainEvents n =>
      exact ⟨Iff.rfl, fun _ => h.quiet sh hopen (a := .drainEvents n) fun _ hu => by cases hu⟩
    | drainString =>
      exact ⟨Iff.rfl, fun _ => h.quiet sh hopen (a := .drainString) fun _ hu => by cases hu⟩

omit [DecidableEq T] [DecidableEq K] in
theorem follows_start : Follows (Process.start : Process T K) Roll.start where
  opened := rfl
  paused := rfl
  count := nofun
  null _ := iff_of_true rfl ⟨Finset.notMem_empty _, List.not_mem_nil⟩
  stale _ ht := absurd ht (Finset.notMem_empty _)
  order _ _ := iff_of_false nofun nofun

/-- EXACT: over any sessions and any calls in them, every recording call uses the open session, and
    every `esp_init` leaves its caller a context of it, exactly when each thread that records in a
    session or opens it asked for its first context in that session, as one of the first
    `espMaxThreadCount` to do so. -/
theorem usesOpenSession_iff (sh : Shape K) {ds : List (Deed T K)} {r : Roll T}
    (hds : run Roll.step Roll.start ds = some r) :
    Meets (deed sh) UsesOpenSession Process.start ds ↔
      Meets Roll.step Roll.Newcomer Roll.start ds := by
  refine meets_iff (R := Follows) ?_ follows_start hds
  intro P r d r' h hd
  exact follows_step sh h hd

/-- Two sessions, each opened by another thread, which then records. -/
def twoSessions : List (Deed Bool Addr) :=
  [.init true (Junk.zero zoneName), .call (.record true 10 (.zone (some zoneName))), .shutdown,
    .init false (Junk.zero zoneName), .call (.record false 5 (.zone (some zoneName)))]

theorem usesOpenSession_iff_twoSessions :
    Meets (deed espStrings) UsesOpenSession Process.start twoSessions := by
  have hds : (run Roll.step Roll.start twoSessions).isSome = true := by decide
  obtain ⟨r, hr⟩ := Option.isSome_iff_exists.mp hds
  exact (usesOpenSession_iff espStrings hr).mpr (by decide)

/-- One thread opens two sessions and records in the second. -/
def reopened : List (Deed Unit Addr) :=
  [.init () (Junk.zero zoneName), .shutdown, .init () (Junk.zero zoneName),
    .call (.record () 5 (.zone (some zoneName)))]

/-- REFUTED: its pointer is still into the first, so what it records is undefined. -/
theorem reopened_dangles : (run Roll.step Roll.start reopened).isSome = true ∧
    (run (deed espStrings) Process.start reopened).isNone = true ∧
    ¬ Meets (deed espStrings) UsesOpenSession Process.start reopened := by
  refine ⟨by decide, rfl, ?_⟩
  intro h
  obtain ⟨P', hinit, -, i, hi, hctx⟩ := h _ (show _ ∈ trace (deed espStrings) _ reopened from
    List.mem_cons_of_mem _ (List.mem_cons_of_mem _ List.mem_cons_self))
  obtain rfl := Option.some.inj hinit
  cases hctx

end Esp.Context
