import Libesp.Context.CallForest

/-! @esp context | name:esp_set_paused | scheme:bracket-structure |
    source:src/profile.cpp (esp_set_paused, esp_zone, esp_end), src/Context.cpp (Zone, End)

    Pausing in the middle of zones. The flag is tested at an `esp_zone` and again at its `esp_end`, so
    a toggle between the two leaves a zone on the stack that nobody pops, or pops one that nobody
    pushed, and the `esp_end`s that follow are off by one.

        calls      zone a   zone b   pause   end b   resume   end a
        stack      a        a b              a b              a
        closes                               ─                b        with the time of `end a`

    `Walk` reads off the calls alone which zones are open, and which of them are `held`: recorded and
    not yet ended while recording. -/

namespace Esp.Context
open Event PointerHash LocklessRing Slab Machine

variable {T K : Type}

/-- A call of the thread, or a toggle. -/
inductive PausedCall (K : Type) where
  | zone (now : Int64) (zoneName : Option K)
  | endZone (now : Int64)
  | setPaused (shouldPause : Bool)
  deriving DecidableEq, Repr

def PausedCall.action (t : T) : PausedCall K → Action T K
  | .zone now zoneName => .record t now (.zone zoneName)
  | .endZone now => .record t now .endZone
  | .setPaused shouldPause => .setPaused shouldPause

/-- What the calls made so far say by themselves. A zone goes by the number of its `esp_zone` among
    them; lists are innermost first. -/
structure Walk where
  index : ℕ
  paused : Bool
  /-- The zones whose `esp_end` is still to come. -/
  opened : List ℕ
  /-- The zones recorded, with room on the stack, and not yet ended while recording. -/
  held : List ℕ
  deriving DecidableEq

def Walk.start : Walk := ⟨0, false, [], []⟩

/-- `none` at an `esp_end` that has no `esp_zone`. -/
def Walk.step (w : Walk) : PausedCall K → Option Walk
  | .zone _ _ => some
    { index := w.index + 1
      paused := w.paused
      opened := w.index :: w.opened
      held := if w.paused = false ∧ w.held.length < espMaxZoneRecursion then w.index :: w.held
        else w.held }
  | .endZone _ =>
    match w.opened with
    | [] => none
    | own :: enclosing => some
      { index := w.index + 1
        paused := w.paused
        opened := enclosing
        held := if w.paused then w.held else w.held.erase own }
  | .setPaused shouldPause => some { w with index := w.index + 1, paused := shouldPause }

/-- An `esp_end` made while recording finds nothing held, or its own zone held last and, below it, a
    zone around it. -/
def Walk.Matched (w : Walk) : PausedCall K → Prop
  | .endZone _ => w.paused = true ∨ w.held = [] ∨
    ∃ own enclosing held, w.opened = own :: enclosing ∧ w.held = own :: held ∧
      ∀ below ∈ held.head?, below ∈ enclosing
  | _ => True

/-- The thread's calls as they run, beside what they say by themselves. -/
structure Watched (T K : Type) where
  walk : Walk
  process : Process T K
  /-- History: for each call so far, what it logged. -/
  entries : List (Option (Entry K))

variable [DecidableEq K] [DecidableEq T] (sh : Shape K)

def Watched.step (t : T) (s : Watched T K) (call : PausedCall K) : Option (Watched T K) :=
  (s.walk.step call).bind fun walk =>
    (Context.step sh s.process (call.action t)).map fun process =>
      { walk := walk
        process := process
        entries := s.entries ++ [(process.log[s.process.log.length]?).map Prod.snd] }

/-- `ev` is the interval of the zone `own`, offered by the call `e`: it has the name and the time of
    the `esp_zone`, lasts up to `e`, and names one of the zones around it or none. -/
structure OwnInterval (entries : List (Option (Entry K))) (S : Table K) (own : ℕ)
    (enclosing : List ℕ) (e : Entry K) (ev : ProfileEvent) : Prop where
  opening : ∃ o σ name, entries[own]? = some (some o) ∧ o.call = .zone name ∧ o.stamp = some σ ∧
    e.closed = some o.number ∧ ev.header = ⟨EV_ZONE_INTERVAL, σ.id⟩ ∧
    ev.data.timestamp = o.now ∧ ev.data.value = elapsed e.now o.now ∧
    ev.data.eventNameRef = σ.nameRef ∧ RefOf sh S name σ.nameRef
  parent : ev.data.parentEventRef = 0 ∨ ∃ p ∈ enclosing, ∃ o σ, entries[p]? = some (some o) ∧
    o.stamp = some σ ∧ ev.data.parentEventRef = σ.id

/-- The event this call emits, if any, is the interval of the zone it ends. -/
def Watched.Own (t : T) (s : Watched T K) (call : PausedCall K) : Prop :=
  ∀ s' e ev, Watched.step sh t s call = some s' → s'.entries.getLast? = some (some e) →
    e.offered = some ev →
    ∃ own enclosing S, s.walk.opened = own :: enclosing ∧ s'.process.strings = some S ∧
      OwnInterval sh s.entries S own enclosing e ev

/-! ### The stack and what is held -/

/-- The zone `z` on the stack of the thread with context `i` was pushed by the call number `k`. -/
def PushedBy (entries : List (Option (Entry K))) (i k : ℕ) (parent : UInt32) (z : OpenZone) : Prop :=
  ∃ o σ name frame, entries[k]? = some (some o) ∧ o.call = .zone name ∧ o.stamp = some σ ∧
    o.number = z.number ∧ z.event = zoneEvent i parent frame σ o.now

/-- The stack is the zones of `held`. -/
inductive HeldOn (entries : List (Option (Entry K))) (i : ℕ) : List ℕ → List OpenZone → Prop
  | nil : HeldOn entries i [] []
  | cons {k held z st} (hz : PushedBy entries i k (parentOf st) z) (h : HeldOn entries i held st) :
    HeldOn entries i (k :: held) (z :: st)

omit [DecidableEq K] [DecidableEq T] in
theorem HeldOn.length_eq {entries : List (Option (Entry K))} {i : ℕ} {held : List ℕ}
    {st : List OpenZone} (h : HeldOn entries i held st) : held.length = st.length := by
  induction h with
  | nil => rfl
  | cons hz h ih => rw [List.length_cons, List.length_cons, ih]

omit [DecidableEq K] [DecidableEq T] in
/-- A later call does not change what the earlier ones pushed. -/
theorem HeldOn.later {entries : List (Option (Entry K))} {i : ℕ} {held : List ℕ}
    {st : List OpenZone} (h : HeldOn entries i held st) (x : Option (Entry K)) :
    HeldOn (entries ++ [x]) i held st := by
  induction h with
  | nil => exact .nil
  | cons hz h ih =>
    obtain ⟨o, σ, name, frame, hk, hrest⟩ := hz
    have hlt : _ := (List.getElem?_eq_some_iff.mp hk).1
    exact .cons ⟨o, σ, name, frame, (List.getElem?_append_left hlt).trans hk, hrest⟩ ih

/-- INVARIANT: the calls run in an open session, and the entries are its log. -/
structure WatchedOk (t : T) (i : ℕ) (s : Watched T K) (C : ProfileContext K) : Prop where
  session : OpenInv {t} { s.process with paused := false } C
  context : s.process.threadContext t = some (s.process.session, i)
  paused : s.walk.paused = s.process.paused
  index : s.entries.length = s.walk.index
  logged : s.entries.filterMap id = s.process.log.map Prod.snd
  names : NamesOk sh s.process

/-- What a call logs, and the stack slab it leaves. -/
inductive Logs (t : T) (i : ℕ) (s : Watched T K) (C C' : ProfileContext K) :
    PausedCall K → Option (Entry K) → Prop
  | toggle {b} (h : C'.threadContexts i = C.threadContexts i) : Logs t i s C C' (.setPaused b) none
  | skipped {call} (hp : s.walk.paused = true) (h : C'.threadContexts i = C.threadContexts i) :
    Logs t i s C C' call none
  | recorded {call now c} (hcall : call.action t = .record t now c) (hp : s.walk.paused = false)
    (h : C'.threadContexts i =
      ((C.threadContexts i).record sh C s.process.log.length now c).thread) :
    Logs t i s C C' call
      (some ((C.threadContexts i).record sh C s.process.log.length now c).entry)

variable {sh} {t : T} {i : ℕ} {s s' : Watched T K} {C C' : ProfileContext K}

theorem WatchedOk.index_lt (h : WatchedOk sh t i s C) : i < espMaxThreadCount := by
  have hlt := (h.session.bound t (Finset.mem_singleton_self t) _ h.context).2
  have hle := h.session.count_le
  rw [Finset.card_singleton] at hle
  exact lt_of_lt_of_le (lt_of_lt_of_le hlt hle) (by decide)

omit [DecidableEq K] in
theorem walk_step_index {w w' : Walk} {call : PausedCall K} (hw : w.step call = some w') :
    w'.index = w.index + 1 := by
  cases call with
  | zone now name => cases hw; rfl
  | endZone now =>
    rw [Walk.step] at hw
    split at hw
    · cases hw
    · cases hw; rfl
  | setPaused b => cases hw; rfl

omit [DecidableEq K] [DecidableEq T] in
/-- INVERSION: a step is a toggle, or a recording call under the flag as it is. -/
theorem walk_step_cases {w w' : Walk} {call : PausedCall K} (hw : w.step call = some w') (t : T) :
    (∃ b, call = .setPaused b ∧ w'.paused = b) ∨
      ∃ now c, call.action t = .record t now c ∧ w'.paused = w.paused := by
  cases call with
  | zone now name => cases hw; exact Or.inr ⟨now, _, rfl, rfl⟩
  | endZone now =>
    rw [Walk.step] at hw
    split at hw
    · cases hw
    · cases hw; exact Or.inr ⟨now, _, rfl, rfl⟩
  | setPaused b => cases hw; exact Or.inl ⟨b, rfl, rfl⟩

omit [DecidableEq K] [DecidableEq T] in
theorem with_paused {P : Process T K} {b : Bool} (h : P.paused = b) : { P with paused := b } = P := by
  subst h
  rfl

/-- STEP: a call that has its bracket runs, and logs itself unless the recording is paused. -/
theorem watched_step (h : WatchedOk sh t i s C) {call : PausedCall K} {w : Walk}
    (hw : s.walk.step call = some w) :
    ∃ s' C' x, Watched.step sh t s call = some s' ∧ WatchedOk sh t i s' C' ∧ s'.walk = w ∧
      s'.entries = s.entries ++ [x] ∧ Logs sh t i s C C' call x := by
  have hindex := walk_step_index hw
  have hlen : ∀ x, (s.entries ++ [x]).length = w.index := by
    intro x
    rw [List.length_append, List.length_singleton, h.index, hindex]
  have hlog : s.process.log[s.process.log.length]? = none := List.getElem?_eq_none (le_refl _)
  -- a call that logs nothing leaves the session as it is but for the flag
  have quiet : ∀ b, w.paused = b → Context.step sh s.process (call.action t) =
      some { s.process with paused := b } → ∃ s', Watched.step sh t s call = some s' ∧
        WatchedOk sh t i s' C ∧ s'.walk = w ∧ s'.entries = s.entries ++ [none] := by
    intro b hb hstep
    refine ⟨⟨w, { s.process with paused := b }, s.entries ++ [none]⟩, ?_, ?_, rfl, rfl⟩
    · rw [Watched.step, hw, Option.bind_some, hstep, Option.map_some]
      simp only [hlog, Option.map_none]
    · refine ⟨h.session, h.context, hb, hlen none, ?_, h.names⟩
      rw [List.filterMap_append, h.logged]
      exact List.append_nil _
  rcases walk_step_cases hw t with ⟨b, rfl, hb⟩ | ⟨now, c, hact, hpaused⟩
  · obtain ⟨s', hs', h', hwalk, hentries⟩ := quiet b hb rfl
    exact ⟨s', C, none, hs', h', hwalk, hentries, .toggle rfl⟩
  · rw [h.paused] at hpaused
    rcases hp : s.process.paused with _ | _
    · have hsame := with_paused hp
      have hsess := h.session
      rw [hsame] at hsess
      obtain ⟨C', hC'⟩ := hsess.recordBound sh (Finset.mem_singleton_self t) h.context now c
      have hstep : Context.step sh s.process (call.action t) =
          some (s.process.recordIn sh C t i now c) := by
        rw [hact]
        exact espRecord_bound sh hp hsess.context h.context h.index_lt now c
      have hthreads : C'.threadContexts i = _ :=
        (congrArg (fun D => D.threadContexts i) (Option.some.inj hC'.context)).symm
      refine ⟨⟨w, s.process.recordIn sh C t i now c, s.entries ++ [some _]⟩, C', _, ?_,
        ⟨?_, h.context, hpaused, hlen _, ?_, namesOk_step h.names hstep⟩, rfl, rfl,
        .recorded hact (h.paused.trans hp) ?_⟩
      · rw [Watched.step, hw, Option.bind_some, hstep, Option.map_some]
        simp only [Process.recordIn, List.getElem?_concat_length, Option.map_some]
      · exact (with_paused (P := s.process.recordIn sh C t i now c) hp).symm ▸ hC'
      · rw [List.filterMap_append, h.logged, Process.recordIn, List.map_append]
        rfl
      · rw [hthreads]
        exact Function.update_self ..
    · have hsame := with_paused hp
      have hskip : Context.step sh s.process (call.action t) =
          some { s.process with paused := true } := by
        rw [hact, Context.step, Process.espRecord, if_pos hp, hsame]
      obtain ⟨s', hs', h', hwalk, hentries⟩ := quiet true (hpaused.trans hp) hskip
      exact ⟨s', C, none, hs', h', hwalk, hentries, .skipped (h.paused.trans hp) rfl⟩

/-! ### A call on the stack -/

section Call

variable {th : ThreadContext} {st : List OpenZone}

variable (sh C) in
/-- A recorded `esp_zone` pushes its zone, or finds the stack full. -/
theorem record_zone (h : StackOk th st) (number : ℕ) (now : Int64) (name : Option K) :
    ∃ e, (th.record sh C number now (.zone name)).entry = e ∧ e.offered = none ∧
      ((st.length < espMaxZoneRecursion ∧ ∃ σ frame,
          e = ⟨number, now, .zone name, some σ, none, none⟩ ∧
          StackOk (th.record sh C number now (.zone name)).thread
            (⟨number, zoneEvent th.threadIndex (parentOf st) frame σ now⟩ :: st)) ∨
        (st.length = espMaxZoneRecursion ∧
          StackOk (th.record sh C number now (.zone name)).thread st)) := by
  obtain ⟨st', hstep, hst'⟩ := record_local C sh h number now (.zone name)
  obtain ⟨hnum, hnow, hcall, -⟩ := record_entry sh th C number now (.zone name)
  generalize (th.record sh C number now (.zone name)).entry = e at *
  cases hstep with
  | zone frame hlt =>
    cases hnum; cases hnow; cases hcall
    exact ⟨_, rfl, rfl, Or.inl ⟨hlt, _, frame, rfl, hst'⟩⟩
  | overflow hfull => exact ⟨_, rfl, rfl, Or.inr ⟨hfull, hst'⟩⟩
  | _ => cases hcall

variable (sh C) in
/-- A recorded `esp_end` offers the zone on top, if there is one. -/
theorem record_endZone (h : StackOk th st) (number : ℕ) (now : Int64) :
    (st = [] ∧ (th.record sh C number now .endZone).entry.offered = none ∧
        StackOk (th.record sh C number now .endZone).thread []) ∨
      ∃ z rest, st = z :: rest ∧ (th.record sh C number now .endZone).entry =
          ⟨number, now, .endZone, none, some (closeAt now z.event), some z.number⟩ ∧
        StackOk (th.record sh C number now .endZone).thread rest := by
  obtain ⟨st', hstep, hst'⟩ := record_local C sh h number now .endZone
  obtain ⟨hnum, hnow, hcall, -⟩ := record_entry sh th C number now .endZone
  generalize (th.record sh C number now .endZone).entry = e at *
  cases hstep with
  | @close z rest n now' =>
    cases hnum; cases hnow
    exact Or.inr ⟨z, st', rfl, rfl, hst'⟩
  | stray => exact Or.inl ⟨rfl, rfl, hst'⟩
  | _ => cases hcall

end Call

/-- STEP: while each `esp_end` finds its own zone, the stack is the zones held. -/
theorem held_step (h : WatchedOk sh t i s C) {st : List OpenZone}
    (hst : StackOk (C.threadContexts i) st) (hheld : HeldOn s.entries i s.walk.held st)
    {call : PausedCall K} {w : Walk} {x : Option (Entry K)} (hw : s.walk.step call = some w)
    (hx : Logs sh t i s C C' call x) (hm : s.walk.Matched call) :
    ∃ st', StackOk (C'.threadContexts i) st' ∧ HeldOn (s.entries ++ [x]) i w.held st' := by
  cases hx with
  | toggle hC =>
    cases hw
    exact ⟨st, hC ▸ hst, hheld.later _⟩
  | skipped hp hC =>
    refine ⟨st, hC ▸ hst, ?_⟩
    have hsame : w.held = s.walk.held := by
      cases call with
      | zone now name =>
        cases hw
        exact if_neg fun hcond => by rw [hp] at hcond; cases hcond.1
      | endZone now =>
        rw [Walk.step] at hw
        split at hw
        · cases hw
        · cases hw
          exact if_pos hp
      | setPaused b => cases hw; rfl
    rw [hsame]
    exact hheld.later _
  | @recorded _ now c hcall hp hC =>
    cases call with
    | zone now name =>
      cases hcall
      cases hw
      obtain ⟨e, he, -, hcase⟩ := record_zone sh C hst s.process.log.length now name
      rw [hC, he]
      rcases hcase with ⟨hlt, σ, frame, rfl, hst'⟩ | ⟨hfull, hst'⟩
      · refine ⟨_, hst', ?_⟩
        simp only [hp, hheld.length_eq, hlt, and_self, if_true]
        rw [h.session.index i]
        refine .cons ⟨⟨_, now, .zone name, some σ, none, none⟩, σ, name, frame, ?_, rfl, rfl, rfl, rfl⟩
          (hheld.later _)
        rw [← h.index, List.getElem?_concat_length]
      · refine ⟨st, hst', ?_⟩
        simp only [hheld.length_eq, hfull, lt_irrefl, and_false, if_false]
        exact hheld.later _
    | endZone now =>
      cases hcall
      have hheld' := hheld.later (some
        ((C.threadContexts i).record sh C s.process.log.length now .endZone).entry)
      rw [Walk.step] at hw
      split at hw
      · cases hw
      · rename_i own enclosing hopen
        cases hw
        rw [hC, hp]
        rcases hm with hpaused | hnone | ⟨own', enclosing', held, hopen', hown, -⟩
        · rw [hp] at hpaused
          cases hpaused
        · rw [hnone] at hheld' ⊢
          cases hheld'
          rcases record_endZone sh C hst s.process.log.length now with ⟨-, -, hst'⟩ | ⟨z, rest, h0, -⟩
          · exact ⟨[], hst', .nil⟩
          · cases h0
        · cases hopen.symm.trans hopen'
          rw [hown] at hheld' ⊢
          cases hheld' with
          | cons hz hrest =>
            rcases record_endZone sh C hst s.process.log.length now with ⟨h0, -⟩ | ⟨_, _, h0, -, hst'⟩
            · cases h0
            · cases h0
              refine ⟨_, hst', ?_⟩
              rw [if_neg (by nofun), List.erase_cons_head]
              exact hrest
    | setPaused b => cases hcall

/-! ### Each call against the zones held -/

theorem WatchedOk.mem_log (h : WatchedOk sh t i s C) {k : ℕ} {o : Entry K}
    (hk : s.entries[k]? = some (some o)) : ∃ u, (u, o) ∈ s.process.log := by
  have hmem : o ∈ s.entries.filterMap id :=
    List.mem_filterMap.mpr ⟨some o, List.mem_of_getElem? hk, rfl⟩
  rw [h.logged] at hmem
  obtain ⟨⟨u, o'⟩, hx, rfl⟩ := List.mem_map.mp hmem
  exact ⟨u, hx⟩

theorem WatchedOk.refOf (h : WatchedOk sh t i s C) {k : ℕ} {o : Entry K} {σ : Stamp}
    {name : Option K} (hk : s.entries[k]? = some (some o)) (hcall : o.call = .zone name)
    (hσ : o.stamp = some σ) : RefOf sh C.strings name σ.nameRef := by
  obtain ⟨u, hu⟩ := h.mem_log hk
  have hstr : s.process.strings = some C.strings := congrArg (Option.map _) h.session.context
  have href := h.names C.strings hstr (u, o) hu σ hσ
  rwa [hcall] at href

/-- STEP: where each `esp_end` finds its own zone, what it emits is the interval of that zone. -/
theorem own_of_matched {st : List OpenZone}
    (hst : StackOk (C.threadContexts i) st) (hheld : HeldOn s.entries i s.walk.held st)
    {call : PausedCall K} {x : Option (Entry K)} (hs : Watched.step sh t s call = some s')
    (h' : WatchedOk sh t i s' C') (hentries : s'.entries = s.entries ++ [x])
    (hx : Logs sh t i s C C' call x) (hm : s.walk.Matched call) : Watched.Own sh t s call := by
  intro s₁ e ev hs₁ he hev
  obtain rfl := Option.some.inj (hs.symm.trans hs₁)
  rw [hentries, List.getLast?_concat] at he
  obtain rfl := Option.some.inj he
  generalize hxe : (some e : Option (Entry K)) = x at hx
  cases hx with
  | toggle => cases hxe
  | skipped => cases hxe
  | @recorded _ now c hcall hp hC =>
    cases hxe
    cases call with
    | zone now name =>
      cases hcall
      obtain ⟨e, he, hnone, -⟩ := record_zone sh C hst s.process.log.length now name
      rw [he, hnone] at hev
      cases hev
    | endZone now =>
      cases hcall
      rcases record_endZone sh C hst s.process.log.length now with ⟨-, hnone, -⟩ | ⟨z, rest, rfl, he, -⟩
      · rw [hnone] at hev
        cases hev
      · rw [he] at hev ⊢
        cases hev
        rcases hm with hpaused | hnone | ⟨own, enclosing, held, hopen, hown, hbelow⟩
        · rw [hp] at hpaused
          cases hpaused
        · rw [hnone] at hheld
          cases hheld
        · rw [hown] at hheld
          cases hheld with
          | cons hz hrest =>
            obtain ⟨o, σ, name, frame, hk, hcall, hσ, hnum, hevent⟩ := hz
            have hk' : s'.entries[own]? = some (some o) := by
              rw [hentries, List.getElem?_append_left (List.getElem?_eq_some_iff.mp hk).1, hk]
            rw [closeAt, hevent, zoneEvent]
            refine ⟨own, enclosing, C'.strings, hopen, congrArg (Option.map _) h'.session.context,
              ⟨o, σ, name, hk, hcall, hσ, congrArg some hnum.symm, rfl, rfl, rfl, rfl,
                h'.refOf hk' hcall hσ⟩, ?_⟩
            cases hrest with
            | nil => exact Or.inl rfl
            | @cons below _ zb _ hzb _ =>
              obtain ⟨ob, σb, _, _, hkb, -, hσb, -, heb⟩ := hzb
              refine Or.inr ⟨below, hbelow below rfl, ob, σb, hkb, hσb, ?_⟩
              simp only [parentOf, heb, zoneEvent]
    | setPaused b => cases hcall

/-- Two places of a list that give the same value are one, where the values are all different. -/
theorem eq_of_nodup_filterMap {α β : Type} {g : α → Option β} {l : List α}
    (h : (l.filterMap g).Nodup) {j k : ℕ} {a b : α} {v : β} (hj : l[j]? = some a)
    (hk : l[k]? = some b) (ha : g a = some v) (hb : g b = some v) : j = k := by
  obtain ⟨hjl, rfl⟩ := List.getElem?_eq_some_iff.mp hj
  obtain ⟨hkl, rfl⟩ := List.getElem?_eq_some_iff.mp hk
  have hpair := List.pairwise_iff_getElem.mp (List.pairwise_filterMap.mp h)
  rcases lt_trichotomy j k with hlt | heq | hgt
  · exact absurd rfl (hpair j k hjl hkl hlt v ha v hb)
  · exact heq
  · exact absurd rfl (hpair k j hkl hjl hgt v hb v ha)

/-- What is read off the entries is read off the log. -/
theorem WatchedOk.read {β : Type} (h : WatchedOk sh t i s C) (g : Entry K → Option β) :
    (s.entries.filterMap fun x => x.bind g) = s.process.log.filterMap fun x => g x.2 := by
  have hread := congrArg (List.filterMap g) h.logged
  rw [List.filterMap_filterMap, List.filterMap_map] at hread
  exact hread

theorem WatchedOk.stamps_le (h : WatchedOk sh t i s C) :
    s.process.stamps.length ≤ s.walk.index := by
  rw [Process.stamps, ← h.read, ← h.index]
  exact List.length_filterMap_le _ _

/-- One call has one number. -/
theorem WatchedOk.eq_of_number (h : WatchedOk sh t i s C) {j k : ℕ} {o o' : Entry K}
    (hj : s.entries[j]? = some (some o)) (hk : s.entries[k]? = some (some o'))
    (ho : o.number = o'.number) : j = k := by
  have hnd : (s.entries.filterMap fun x => x.bind fun e => some e.number).Nodup := by
    rw [h.read, List.filterMap_eq_map']
    exact h.session.numbers ▸ List.nodup_range
  exact eq_of_nodup_filterMap hnd hj hk rfl (congrArg some ho.symm)

/-- The ids given out are all different and none is 0, in a session that has not used them up. -/
theorem WatchedOk.ids (h : WatchedOk sh t i s C) (hn : s.walk.index < 4294967295) {k : ℕ}
    {o : Entry K} {σ : Stamp} (hk : s.entries[k]? = some (some o)) (hσ : o.stamp = some σ) :
    σ.id ≠ 0 ∧ ∀ j o' σ', s.entries[j]? = some (some o') → o'.stamp = some σ' → σ'.id = σ.id →
      j = k := by
  have hlt := lt_of_le_of_lt h.stamps_le hn
  constructor
  · intro hzero
    obtain ⟨u, hu⟩ := h.mem_log hk
    have hmem : σ ∈ s.process.stamps := List.mem_filterMap.mpr ⟨_, hu, hσ⟩
    have hids : (s.process.stamps.map fun σ => σ.id.toNat) =
        List.range' 1 s.process.stamps.length := h.session.ids_toNat hlt
    have hpos : 1 ≤ σ.id.toNat :=
      (List.mem_range'_1.mp (hids ▸ List.mem_map.mpr ⟨σ, hmem, rfl⟩)).1
    rw [hzero] at hpos
    exact absurd hpos (by decide)
  · intro j o' σ' hj hσ' hid
    have hnd : (s.entries.filterMap fun x => x.bind fun e => e.stamp.map Stamp.id).Nodup := by
      have hnd := h.session.ids_nodup hlt
      rw [h.read]
      rw [Process.stamps, List.map_filterMap] at hnd
      exact hnd
    refine eq_of_nodup_filterMap hnd hj hk (v := σ.id) ?_ ?_
    · rw [Option.bind_some, hσ', Option.map_some, hid]
    · rw [Option.bind_some, hσ, Option.map_some]

/-- STEP: where the stack is the zones held, an `esp_end` that emits the interval of its own zone
    found that zone, held last. -/
theorem matched_of_own (h : WatchedOk sh t i s C) (hn : s.walk.index < 4294967295)
    {st : List OpenZone} (hst : StackOk (C.threadContexts i) st)
    (hheld : HeldOn s.entries i s.walk.held st) {call : PausedCall K} {x : Option (Entry K)}
    (hs : Watched.step sh t s call = some s') (hentries : s'.entries = s.entries ++ [x])
    (hx : Logs sh t i s C C' call x) (hown : Watched.Own sh t s call) : s.walk.Matched call := by
  cases call with
  | zone now name => trivial
  | setPaused b => trivial
  | endZone now =>
    cases hx with
    | skipped hp => exact Or.inl hp
    | @recorded _ now c hcall hp hC =>
      cases hcall
      rcases record_endZone sh C hst s.process.log.length now with ⟨rfl, -⟩ | ⟨z, rest, rfl, he, -⟩
      · generalize hw : s.walk.held = held at hheld
        cases hheld
        exact Or.inr (Or.inl hw)
      · rw [he] at hentries
        obtain ⟨own, enclosing, S, hopen, -, ⟨o, σ, name, hk, -, -, hclosed, -⟩, hparent⟩ :=
          hown s' _ _ hs (by rw [hentries, List.getLast?_concat]) rfl
        generalize hw : s.walk.held = held at hheld
        cases hheld with
        | @cons top held _ _ hz hrest =>
          obtain ⟨ot, σt, namet, frame, hkt, -, -, hnum, hevent⟩ := hz
          obtain rfl : own = top := h.eq_of_number hk hkt (by
            rw [hnum]; exact (Option.some.inj hclosed).symm)
          refine Or.inr (Or.inr ⟨own, enclosing, held, hopen, hw, ?_⟩)
          intro below hbelow
          cases hrest with
          | nil => cases hbelow
          | @cons b held zb rest hzb hrest =>
            cases hbelow
            obtain ⟨ob, σb, _, _, hkb, -, hσb, -, heb⟩ := hzb
            have hidb : (closeAt now z.event).data.parentEventRef = σb.id := by
              simp only [closeAt, hevent, zoneEvent, parentOf, heb]
            obtain ⟨hzero, hone⟩ := h.ids hn hkb hσb
            rw [hidb] at hparent
            rcases hparent with hroot | ⟨p, hp, op, σp, hkp, hσp, hid⟩
            · exact absurd hroot hzero
            · exact hone p op σp hkp hσp hid.symm ▸ hp

/-! ### Whole sequences -/

/-- INVARIANT: the stack is the zones held. -/
def Tracks (sh : Shape K) (t : T) (i : ℕ) (s : Watched T K) : Prop :=
  ∃ C st, WatchedOk sh t i s C ∧ StackOk (C.threadContexts i) st ∧
    HeldOn s.entries i s.walk.held st

/-- RUN: calls that have their brackets run to the end. -/
theorem watched_run {calls : List (PausedCall K)} {w : Walk} (h : WatchedOk sh t i s C)
    (hw : run Walk.step s.walk calls = some w) :
    ∃ s', run (Watched.step sh t) s calls = some s' := by
  induction calls generalizing s C with
  | nil => exact ⟨s, rfl⟩
  | cons call calls ih =>
    obtain ⟨w₁, hw₁, hrest⟩ := run_cons_some.mp hw
    obtain ⟨s₁, C₁, x, hs, h₁, rfl, -⟩ := watched_step h hw₁
    obtain ⟨s', hs'⟩ := ih h₁ hrest
    exact ⟨s', run_cons_some.mpr ⟨s₁, hs, hs'⟩⟩

/-- RUN: as long as each `esp_end` finds its own zone, each emits the interval of its own zone. -/
theorem own_run {calls : List (PausedCall K)} {w : Walk} (h : Tracks sh t i s)
    (hw : run Walk.step s.walk calls = some w) (hm : Meets Walk.step Walk.Matched s.walk calls) :
    Meets (Watched.step sh t) (Watched.Own sh t) s calls := by
  induction calls generalizing s with
  | nil => exact fun _ hx => absurd hx List.not_mem_nil
  | cons call calls ih =>
    obtain ⟨C, st, hok, hst, hheld⟩ := h
    obtain ⟨w₁, hw₁, hrest⟩ := run_cons_some.mp hw
    obtain ⟨s₁, C₁, x, hs, h₁, rfl, hentries, hx⟩ := watched_step hok hw₁
    obtain ⟨hcall, hcalls⟩ := (meets_cons hw₁).mp hm
    obtain ⟨st₁, hst₁, hheld₁⟩ := held_step hok hst hheld hw₁ hx hcall
    refine (meets_cons hs).mpr ⟨own_of_matched hst hheld hs h₁ hentries hx hcall, ?_⟩
    exact ih ⟨C₁, st₁, h₁, hst₁, hentries ▸ hheld₁⟩ hrest hcalls

/-- RUN: and as long as each emits the interval of its own zone, each finds it. -/
theorem matched_run {calls : List (PausedCall K)} {w : Walk} (h : Tracks sh t i s)
    (hw : run Walk.step s.walk calls = some w) (hn : s.walk.index + calls.length < 4294967295)
    (hown : Meets (Watched.step sh t) (Watched.Own sh t) s calls) :
    Meets Walk.step Walk.Matched s.walk calls := by
  induction calls generalizing s with
  | nil => exact fun _ hx => absurd hx List.not_mem_nil
  | cons call calls ih =>
    obtain ⟨C, st, hok, hst, hheld⟩ := h
    obtain ⟨w₁, hw₁, hrest⟩ := run_cons_some.mp hw
    have hindex := walk_step_index hw₁
    obtain ⟨s₁, C₁, x, hs, h₁, rfl, hentries, hx⟩ := watched_step hok hw₁
    obtain ⟨hcall, hcalls⟩ := (meets_cons hs).mp hown
    rw [List.length_cons] at hn
    have hm := matched_of_own hok (by omega) hst hheld hs hentries hx hcall
    obtain ⟨st₁, hst₁, hheld₁⟩ := held_step hok hst hheld hw₁ hx hm
    refine (meets_cons hw₁).mpr ⟨hm, ?_⟩
    exact ih ⟨C₁, st₁, h₁, hst₁, hentries ▸ hheld₁⟩ hrest (by omega) hcalls

theorem tracks_espInit (sh : Shape K) (junk : Junk K) (t : T) :
    ∃ P, Process.start.espInit junk t = some P ∧ Tracks sh t 0 ⟨Walk.start, P, []⟩ := by
  obtain ⟨P, C, hinit, h, hlog⟩ := openInv_espInit (P := Process.start)
    (Finset.mem_singleton_self t) rfl (fun _ _ => rfl) junk
  have hcontext : P.threadContext t = some (P.session, 0) := by
    obtain rfl := Option.some.inj hinit
    exact Function.update_self ..
  have hflag : P.paused = false := h.paused
  obtain ⟨st, hrun, hst⟩ := h.slabs t (Finset.mem_singleton_self t) _ hcontext
  rw [Process.logOf, hlog] at hrun
  cases hrun
  refine ⟨P, hinit, C, [], ⟨?_, hcontext, hflag.symm, rfl, ?_, namesOk_nil hlog⟩, hst, .nil⟩
  · exact (with_paused hflag).symm ▸ h
  · exact (congrArg (List.map Prod.snd) hlog).symm

/-- Pausing mismatches none of the zones of these calls. -/
def NeverMismatched (sh : Shape K) (junk : Junk K) (t : T) (calls : List (PausedCall K)) : Prop :=
  ∃ P s, Process.start.espInit junk t = some P ∧
    run (Watched.step sh t) ⟨Walk.start, P, []⟩ calls = some s ∧
    Meets (Watched.step sh t) (Watched.Own sh t) ⟨Walk.start, P, []⟩ calls

variable {junk : Junk K} {calls : List (PausedCall K)} {w : Walk}

theorem neverMismatched_of_matched (hw : run Walk.step Walk.start calls = some w)
    (hm : Meets Walk.step Walk.Matched Walk.start calls) : NeverMismatched sh junk t calls := by
  obtain ⟨P, hinit, htracks⟩ := tracks_espInit sh junk t
  obtain ⟨C, st, hok, -⟩ := id htracks
  obtain ⟨s, hs⟩ := watched_run hok hw
  exact ⟨P, s, hinit, hs, own_run htracks hw hm⟩

theorem matched_of_neverMismatched (hw : run Walk.step Walk.start calls = some w)
    (hn : calls.length < 4294967295) (h : NeverMismatched sh junk t calls) :
    Meets Walk.step Walk.Matched Walk.start calls := by
  obtain ⟨P, s, hinit, -, hown⟩ := h
  obtain ⟨P', hinit', htracks⟩ := tracks_espInit sh junk t
  obtain rfl := Option.some.inj (hinit.symm.trans hinit')
  exact matched_run htracks hw (by rw [show Walk.start.index = 0 from rfl]; omega) hown

/-- EXACT: pausing mismatches no zone of a well-bracketed sequence when every `esp_end` made while
    recording finds nothing held or its own zone held last inside a zone around it; and only then, in
    a sequence too short to use up the ids. -/
theorem neverMismatched_iff (sh : Shape K) (junk : Junk K) (t : T)
    (hw : run Walk.step Walk.start calls = some w) :
    (Meets Walk.step Walk.Matched Walk.start calls → NeverMismatched sh junk t calls) ∧
      (calls.length < 4294967295 →
        (NeverMismatched sh junk t calls ↔ Meets Walk.step Walk.Matched Walk.start calls)) :=
  ⟨neverMismatched_of_matched hw,
    fun hn => ⟨matched_of_neverMismatched hw hn, neverMismatched_of_matched hw⟩⟩

/-- The recording pauses inside a zone and resumes there, with a whole zone skipped between. -/
def pausedInside : List (PausedCall Addr) :=
  [.zone 10 (some zoneName), .setPaused true, .zone 11 (some probeName), .endZone 12,
    .setPaused false, .endZone 13]

theorem neverMismatched_iff_pausedInside :
    NeverMismatched espStrings (Junk.zero zoneName) () pausedInside := by
  have hwalk : run Walk.step Walk.start pausedInside = some ⟨6, false, [], []⟩ := by decide
  refine (neverMismatched_iff espStrings (Junk.zero zoneName) () hwalk).1 ?_
  simp [Meets, trace, pausedInside, Walk.step, Walk.start, Walk.Matched, espMaxZoneRecursion]

/-- The recording pauses in the inner zone and resumes in the outer one. -/
def pausedAcross : List (PausedCall Addr) :=
  [.zone 10 (some zoneName), .zone 11 (some probeName), .setPaused true, .endZone 12,
    .setPaused false, .endZone 13]

/-- REFUTED: the outer `esp_end` emits the inner zone, with its own time as the end. -/
theorem pausedAcross_mismatches :
    ¬ NeverMismatched espStrings (Junk.zero zoneName) () pausedAcross := by
  intro h
  have hwalk : run Walk.step Walk.start pausedAcross = some ⟨6, false, [], [1]⟩ := by decide
  have hm := matched_of_neverMismatched hwalk (by decide) h
  have hlast := hm (⟨5, false, [0], [1, 0]⟩, .endZone 13) (by decide)
  simp [Walk.Matched] at hlast

end Esp.Context
