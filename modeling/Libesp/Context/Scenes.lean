import Mathlib.Data.List.Forall2
import Libesp.Context.CallForest

/-! @esp context | name:ProfileContext | scheme:simulation |
    source:src/Context.cpp (StampEvent, Zone, End, Sample, FrameEnd, NextEventID)

    What the ids, frames and parents of a session say, without the 32 bits they are kept in. A scene
    has the zones open in each thread context and what was offered so far, each as a mark; the calls of
    a process follow the moves of a scene, whatever the threads, the drain thread and the pause flag
    do between them.

        call     esp_zone        esp_end          esp_sample        esp_frame_end
        scene    push a mark     offer the top    offer a mark      next frame
        mark     id, frame of its stamp, id of the zone around it

    A mark is made when an event is stamped and does not change, so a zone that is open across the end
    of a frame belongs to the frame it was opened in (`frames_run`). -/

namespace Esp.Context
open Event PointerHash LocklessRing Slab Machine

variable {T K : Type}

/-- What a stamp gives an event. -/
structure Mark where
  id : ℕ
  frame : ℕ
  /-- The id of the zone that was open around it, or 0. -/
  parent : ℕ
  /-- The index of the thread context. -/
  context : ℕ
  isZone : Bool
  deriving DecidableEq

structure Scene where
  /-- The open zones of each context, innermost first. -/
  zones : ℕ → List Mark
  offered : List Mark
  nextID : ℕ
  frame : ℕ

def Scene.start : Scene := ⟨fun _ => [], [], 1, 0⟩

/-- The mark of an event stamped in context `i`. -/
def Scene.stamp (S : Scene) (i : ℕ) (isZone : Bool) : Mark :=
  ⟨S.nextID, S.frame, (S.zones i).head?.elim 0 Mark.id, i, isZone⟩

/-- A move of a scene: nothing, the end of a frame, or a call in context `i`. -/
inductive Scene.Moves (S : Scene) : Scene → Prop
  | idle : Moves S S
  | frameEnd : Moves S { S with frame := S.frame + 1 }
  | opens (i : ℕ) : Moves S { S with
      zones := Function.update S.zones i (S.stamp i true :: S.zones i)
      nextID := S.nextID + 1 }
  | closes {i : ℕ} {z : Mark} {zs : List Mark} (h : S.zones i = z :: zs) : Moves S { S with
      zones := Function.update S.zones i zs
      offered := S.offered ++ [z] }
  | samples (i : ℕ) : Moves S { S with
      offered := S.offered ++ [S.stamp i false]
      nextID := S.nextID + 1 }

/-- REFINEMENT: the event carries the mark, in 32 bits. -/
structure Carries (m : Mark) (ev : ProfileEvent) : Prop where
  id : ev.header.id = UInt32.ofNat m.id
  frame : ev.data.frameNumber = UInt32.ofNat m.frame
  parent : ev.data.parentEventRef = UInt32.ofNat m.parent
  context : ev.data.threadID = UInt32.ofNat m.context
  isZone : isZoneEvent ev = m.isZone
  stored : ev.header.eventType ≠ EV_NEW_STRING

/-- The events that the calls have handed to the event ring. -/
def Process.offers (P : Process T K) : List ProfileEvent := P.log.filterMap fun x => x.2.offered

/-- REFINEMENT: the process shows the scene. -/
structure Shows (P : Process T K) (C : ProfileContext K) (S : Scene) : Prop where
  context : P.context = some C
  nextID : C.nextMessageID = S.nextID
  frame : C.frameNumber = S.frame
  index : ∀ i, (C.threadContexts i).threadIndex = i
  zones : ∀ i, List.Forall₂ Carries (S.zones i) (C.threadContexts i).profileIntervalStack.contents
  offered : List.Forall₂ Carries S.offered P.offers

/-! ### The stack of a thread -/

theorem push_contents {α : Type} {s s' : SlabStack α} {slot : ℕ} (h : s.push = some (slot, s'))
    (v : α) : (s'.store slot v).contents = v :: s.contents := by
  have hlt : s.contents.length < s.capacity := by
    refine lt_of_le_of_ne (contents_length_le s) ?_
    intro hfull
    rw [push_full hfull] at h
    cases h
  obtain ⟨slot', s'', hpush, -, hstore⟩ := push_room hlt
  obtain ⟨rfl, rfl⟩ := Prod.mk.inj (Option.some.inj (h.symm.trans hpush))
  exact hstore v

theorem pop_contents {α : Type} {s s' : SlabStack α} {slot : ℕ} (h : s.pop = some (slot, s')) :
    ∃ xs, s.contents = s'.slab slot :: xs ∧ ∀ v, (s'.store slot v).contents = xs := by
  rcases hc : s.contents with _ | ⟨x, xs⟩
  · rw [pop_empty hc] at h
    cases h
  · obtain ⟨slot', s'', hpop, hslot, -, hstore⟩ := pop_cons hc
    obtain ⟨rfl, rfl⟩ := Prod.mk.inj (Option.some.inj (h.symm.trans hpop))
    exact ⟨xs, by rw [hslot], hstore⟩

/-- `PeekParentID` returns the id of the innermost open zone. -/
theorem peekParentID_eq (t : ThreadContext) : t.peekParentID =
    t.profileIntervalStack.contents.head?.elim 0 fun z => z.header.id := by
  rcases hc : t.profileIntervalStack.contents with _ | ⟨x, xs⟩
  · rw [ThreadContext.peekParentID, peek_nil hc]
    rfl
  · obtain ⟨slot, hpeek, hslot⟩ := peek_cons hc
    rw [ThreadContext.peekParentID, hpeek]
    exact congrArg (fun ev => ev.header.id) hslot

theorem Probe.eventType_ne_string (p : Probe) : p.eventType ≠ EV_NEW_STRING := by
  cases p
  · exact show EV_PROBE_INT ≠ EV_NEW_STRING by decide
  · exact show EV_PROBE_UINT ≠ EV_NEW_STRING by decide
  · exact show EV_PROBE_FLOAT ≠ EV_NEW_STRING by decide

variable {P P' : Process T K} {C : ProfileContext K} {S : Scene}

theorem Shows.parent (h : Shows P C S) (i : ℕ) (isZone : Bool) :
    (C.threadContexts i).peekParentID = UInt32.ofNat (S.stamp i isZone).parent := by
  have hz := h.zones i
  rw [peekParentID_eq, Scene.stamp]
  generalize (C.threadContexts i).profileIntervalStack.contents = evs at hz ⊢
  generalize S.zones i = ms at hz ⊢
  cases hz with
  | nil => rfl
  | cons hm _ => exact hm.id

theorem Carries.closeAt {m : Mark} {ev : ProfileEvent} (h : Carries m ev) (now : Int64) :
    Carries m (closeAt now ev) :=
  ⟨h.id, h.frame, h.parent, h.context, h.isZone, h.stored⟩

variable [DecidableEq K] (sh : Shape K)

theorem mapString_frame (C : ProfileContext K) (name : Option K) :
    (C.mapStringToReference sh name).2.frameNumber = C.frameNumber := by
  unfold ProfileContext.mapStringToReference
  simp only
  split
  · rfl
  · split
    · split <;> rfl
    · rfl

variable (th : ThreadContext) (C : ProfileContext K) (number : ℕ) (now : Int64)

theorem record_frame (c : Call K) :
    (th.record sh C number now c).context.frameNumber = C.frameNumber := by
  cases c with
  | zone name =>
    simp only [ThreadContext.record, ThreadContext.zone]
    split
    · rfl
    · exact mapString_frame sh C.nextEventID.2 name
  | endZone =>
    simp only [ThreadContext.record, ThreadContext.endZone]
    split <;> rfl
  | sample name probe => exact mapString_frame sh C.nextEventID.2 name

/-- A zone that finds the stack full does nothing but log itself. -/
theorem record_zone_full (name : Option K) (h : th.profileIntervalStack.push = none) :
    th.record sh C number now (.zone name) =
      ⟨th, C, ⟨number, now, .zone name, none, none, none⟩⟩ := by
  simp only [ThreadContext.record, ThreadContext.zone, h]

/-- An `esp_end` outside every zone does nothing but log itself. -/
theorem record_end_empty (h : th.profileIntervalStack.pop = none) :
    th.record sh C number now (.endZone) = ⟨th, C, ⟨number, now, .endZone, none, none, none⟩⟩ := by
  simp only [ThreadContext.record, ThreadContext.endZone, h]

variable {th C}

/-- A zone that is pushed carries its mark. -/
theorem record_zone_pushed {S : Scene} {i slot : ℕ} {stack : SlabStack ProfileEvent}
    (name : Option K) (h : th.profileIntervalStack.push = some (slot, stack))
    (hid : C.nextMessageID = S.nextID) (hframe : C.frameNumber = S.frame)
    (hindex : th.threadIndex = i) (hparent : th.peekParentID = UInt32.ofNat (S.stamp i true).parent) :
    ∃ ev, Carries (S.stamp i true) ev ∧
      (th.record sh C number now (.zone name)).thread.profileIntervalStack.contents =
        ev :: th.profileIntervalStack.contents ∧
      (th.record sh C number now (.zone name)).entry.offered = none ∧
      (th.record sh C number now (.zone name)).context.nextMessageID = S.nextID + 1 := by
  have hnext := (keeps_mapString sh C.nextEventID.2 name).nextMessageID
  simp only [ThreadContext.record, ThreadContext.zone, h, push_contents h, ThreadContext.stampEvent]
  refine ⟨_, ?_, rfl, trivial, hnext.trans (congrArg (· + 1) hid)⟩
  refine ⟨congrArg UInt32.ofNat hid, ?_, hparent, congrArg UInt32.ofNat hindex, rfl, ?_⟩
  · exact congrArg UInt32.ofNat ((rfl : C.nextEventID.2.frameNumber = C.frameNumber).trans hframe)
  · exact show EV_ZONE_INTERVAL ≠ EV_NEW_STRING by decide

/-- A sample carries its mark. -/
theorem record_sample {S : Scene} {i : ℕ} (name : Option K) (probe : Probe)
    (hid : C.nextMessageID = S.nextID) (hframe : C.frameNumber = S.frame)
    (hindex : th.threadIndex = i)
    (hparent : th.peekParentID = UInt32.ofNat (S.stamp i false).parent) :
    ∃ ev, Carries (S.stamp i false) ev ∧
      (th.record sh C number now (.sample name probe)).thread = th ∧
      (th.record sh C number now (.sample name probe)).entry.offered = some ev ∧
      (th.record sh C number now (.sample name probe)).context.nextMessageID = S.nextID + 1 := by
  have hnext := (keeps_mapString sh C.nextEventID.2 name).nextMessageID
  refine ⟨_, ?_, rfl, rfl, hnext.trans (congrArg (· + 1) hid)⟩
  exact ⟨congrArg UInt32.ofNat hid, congrArg UInt32.ofNat hframe, hparent,
    congrArg UInt32.ofNat hindex, probe.eventType_ne_zone, probe.eventType_ne_string⟩

/-- An `esp_end` in a zone offers it. -/
theorem record_end_popped {slot : ℕ} {stack : SlabStack ProfileEvent}
    (h : th.profileIntervalStack.pop = some (slot, stack)) :
    ∃ ev evs, th.profileIntervalStack.contents = ev :: evs ∧
      (th.record sh C number now (.endZone)).thread.profileIntervalStack.contents = evs ∧
      (th.record sh C number now (.endZone)).entry.offered = some (closeAt now ev) ∧
      (th.record sh C number now (.endZone)).context.nextMessageID = C.nextMessageID := by
  obtain ⟨evs, hcontents, hstore⟩ := pop_contents h
  refine ⟨stack.slab slot, evs, hcontents, ?_⟩
  simp only [ThreadContext.record, ThreadContext.endZone, h, hstore]
  exact ⟨trivial, rfl, rfl⟩

/-! ### The moves of a process -/

variable {sh} {P P' : Process T K} {C : ProfileContext K} {S : Scene}

variable (sh) in
/-- The process after a call that leaves these zones on the stack and offers these events. -/
theorem Shows.recorded (h : Shows P C S) (t : T) (i : ℕ) (now : Int64) (c : Call K)
    (ms os : List Mark)
    (hzones : List.Forall₂ Carries ms
      ((C.threadContexts i).record sh C P.log.length now c).thread.profileIntervalStack.contents)
    (hoffered : List.Forall₂ Carries os
      ((C.threadContexts i).record sh C P.log.length now c).entry.offered.toList) :
    ∃ D, Shows (P.recordIn sh C t i now c) D ⟨Function.update S.zones i ms, S.offered ++ os,
        ((C.threadContexts i).record sh C P.log.length now c).context.nextMessageID, S.frame⟩ := by
  obtain ⟨-, -, -, hindex⟩ := record_entry sh (C.threadContexts i) C P.log.length now c
  obtain ⟨-, hthreads, -⟩ := record_context sh (C.threadContexts i) C P.log.length now c
  have hframe := record_frame sh (C.threadContexts i) C P.log.length now c
  rw [h.index i] at hindex
  refine ⟨_, rfl, rfl, hframe.trans h.frame, ?_, ?_, ?_⟩
  · intro j
    by_cases hj : j = i
    · subst hj
      simp only [Function.update_self, hindex]
    · simp only [Function.update_of_ne hj, hthreads, h.index]
  · intro j
    by_cases hj : j = i
    · subst hj
      simpa only [Function.update_self] using hzones
    · simpa only [Function.update_of_ne hj, hthreads] using h.zones j
  · have hlog : (P.recordIn sh C t i now c).offers = P.offers ++
        ((C.threadContexts i).record sh C P.log.length now c).entry.offered.toList := by
      rw [Process.offers, Process.recordIn, List.filterMap_append]
      cases hev : ((C.threadContexts i).record sh C P.log.length now c).entry.offered <;>
        simp only [Process.offers, List.filterMap_cons, List.filterMap_nil, hev, Option.toList]
    rw [hlog]
    exact List.rel_append h.offered hoffered

variable (sh) in
/-- STEP: a recorded call is a move in the context it goes through. -/
theorem Shows.record (h : Shows P C S) (t : T) (i : ℕ) (now : Int64) (c : Call K) :
    ∃ D S', Shows (P.recordIn sh C t i now c) D S' ∧ S.Moves S' ∧ S'.frame = S.frame := by
  have hsame : Function.update S.zones i (S.zones i) = S.zones := Function.update_eq_self ..
  have hnone : ∀ {got : Recorded K}, (C.threadContexts i).record sh C P.log.length now c = got →
      got.thread = C.threadContexts i → got.entry.offered = none →
      got.context.nextMessageID = C.nextMessageID →
      ∃ D S', Shows (P.recordIn sh C t i now c) D S' ∧ S.Moves S' ∧ S'.frame = S.frame := by
    rintro got rfl hthread hoff hnext
    obtain ⟨D, hD⟩ := h.recorded sh t i now c (S.zones i) [] (by rw [hthread]; exact h.zones i)
      (by rw [hoff]; exact .nil)
    rw [hsame, List.append_nil, hnext, h.nextID] at hD
    exact ⟨D, S, hD, .idle, rfl⟩
  cases c with
  | zone name =>
    rcases hpush : (C.threadContexts i).profileIntervalStack.push with _ | ⟨slot, stack⟩
    · exact hnone (record_zone_full sh _ C _ now name hpush) rfl rfl rfl
    · obtain ⟨ev, hcarries, hzones, hoff, hnext⟩ := record_zone_pushed sh P.log.length now name hpush
        h.nextID h.frame (h.index i) (h.parent i true)
      obtain ⟨D, hD⟩ := h.recorded sh t i now (.zone name) (S.stamp i true :: S.zones i) []
        (by rw [hzones]; exact .cons hcarries (h.zones i)) (by rw [hoff]; exact .nil)
      rw [List.append_nil, hnext] at hD
      exact ⟨D, _, hD, .opens i, rfl⟩
  | endZone =>
    rcases hpop : (C.threadContexts i).profileIntervalStack.pop with _ | ⟨slot, stack⟩
    · exact hnone (record_end_empty sh _ C _ now hpop) rfl rfl rfl
    · obtain ⟨ev, evs, hcontents, hzones, hoff, hnext⟩ := record_end_popped sh P.log.length now hpop
      obtain ⟨z, zs, hz, hzs, hms⟩ := List.forall₂_cons_right_iff.mp (hcontents ▸ h.zones i)
      obtain ⟨D, hD⟩ := h.recorded sh t i now .endZone zs [z] (by rw [hzones]; exact hzs)
        (by rw [hoff]; exact .cons (hz.closeAt now) .nil)
      rw [hnext, h.nextID] at hD
      exact ⟨D, _, hD, .closes hms, rfl⟩
  | sample name probe =>
    obtain ⟨ev, hcarries, hthread, hoff, hnext⟩ := record_sample sh P.log.length now name probe
      h.nextID h.frame (h.index i) (h.parent i false)
    obtain ⟨D, hD⟩ := h.recorded sh t i now (.sample name probe) (S.zones i) [S.stamp i false]
      (by rw [hthread]; exact h.zones i) (by rw [hoff]; exact .cons hcarries .nil)
    rw [hsame, hnext] at hD
    exact ⟨D, _, hD, .samples i, rfl⟩

omit [DecidableEq K] in
/-- What touches neither the stacks nor the log nor the counters. -/
theorem Shows.same (h : Shows P C S) {D : ProfileContext K} (hC : P'.context = some D)
    (hlog : P'.log = P.log) (hid : D.nextMessageID = C.nextMessageID)
    (hframe : D.frameNumber = C.frameNumber) (hthreads : D.threadContexts = C.threadContexts) :
    Shows P' D S := by
  refine ⟨hC, hid.trans h.nextID, hframe.trans h.frame, ?_, ?_, ?_⟩
  · rw [hthreads]
    exact h.index
  · rw [hthreads]
    exact h.zones
  · rw [Process.offers, hlog]
    exact h.offered

variable [DecidableEq T]

omit [DecidableEq K] in
theorem Shows.threadInit (h : Shows P C S) {t : T} (hs : P.espThreadInit t = some P') :
    ∃ D, Shows P' D S := by
  rcases espThreadInit_cases hs with ⟨-, rfl⟩ | ⟨-, C', hC', rfl⟩
  · exact ⟨C, h⟩
  · obtain rfl := Option.some.inj (h.context.symm.trans hC')
    exact ⟨_, h.same rfl rfl rfl rfl rfl⟩

def Action.isFrameEnd : Action T K → Bool
  | .frameEnd _ => true
  | _ => false

/-- STEP: whatever happens in a session is a move of its scene, and only `esp_frame_end` ends a frame. -/
theorem shows_step (h : Shows P C S) {a : Action T K} (hs : step sh P a = some P') :
    ∃ D S', Shows P' D S' ∧ S.Moves S' ∧ S'.frame = S.frame + [a].countP Action.isFrameEnd := by
  cases a with
  | record t now c =>
    rcases espRecord_cases hs with ⟨-, rfl⟩ | ⟨-, hinit, hnone⟩ | ⟨-, P₁, C₁, i, hinit, hC₁, -, -, rfl⟩
    · exact ⟨C, S, h, .idle, rfl⟩
    · obtain ⟨D, hD⟩ := h.threadInit hinit
      exact absurd (hD.context.symm.trans hnone) (Option.some_ne_none D)
    · obtain ⟨D, hD⟩ := h.threadInit hinit
      obtain rfl := Option.some.inj (hD.context.symm.trans hC₁)
      exact hD.record sh t i now c
  | threadInit t =>
    obtain ⟨D, hD⟩ := h.threadInit hs
    exact ⟨D, S, hD, .idle, rfl⟩
  | setPaused b =>
    obtain rfl := Option.some.inj hs
    exact ⟨C, S, h.same h.context rfl rfl rfl rfl, .idle, rfl⟩
  | frameEnd now =>
    obtain rfl := Option.some.inj ((mapContext_some h.context _).symm.trans hs)
    exact ⟨_, { S with frame := S.frame + 1 }, ⟨rfl, h.nextID, congrArg (· + 1) h.frame, h.index,
      h.zones, h.offered⟩, .frameEnd, rfl⟩
  | drainEvents n =>
    obtain rfl := Option.some.inj ((mapContext_some h.context _).symm.trans hs)
    exact ⟨_, S, h.same rfl rfl rfl rfl rfl, .idle, rfl⟩
  | drainString =>
    obtain rfl := Option.some.inj ((mapContext_some h.context _).symm.trans hs)
    exact ⟨_, S, h.same rfl rfl rfl rfl rfl, .idle, rfl⟩

/-- RULE: what every move of a scene keeps holds of the scene after a session's calls. -/
theorem shows_run {I : Scene → Prop} (hI : ∀ S S', I S → S.Moves S' → I S') (h : Shows P C S)
    (h₀ : I S) {as : List (Action T K)} (hr : run (step sh) P as = some P') :
    ∃ D S', Shows P' D S' ∧ I S' ∧ S'.frame = S.frame + as.countP Action.isFrameEnd := by
  induction as generalizing P C S with
  | nil =>
    obtain rfl := Option.some.inj hr
    exact ⟨C, S, h, h₀, rfl⟩
  | cons a as ih =>
    obtain ⟨P₁, hs, hr⟩ := run_cons_some.mp hr
    obtain ⟨C₁, S₁, h₁, hmove, hframe₁⟩ := shows_step h hs
    obtain ⟨D, S', h', hI', hframe⟩ := ih h₁ (hI S S₁ h₀ hmove) hr
    refine ⟨D, S', h', hI', ?_⟩
    rw [hframe, hframe₁, Nat.add_assoc, ← List.countP_append]
    rfl

omit [DecidableEq K] in
theorem shows_espInit {P₀ : Process T K} {junk : Junk K} {main : T}
    (h : P₀.espInit junk main = some P) : ∃ C, Shows P C Scene.start := by
  refine Shows.threadInit (P := { P₀ with
    session := P₀.session + 1
    context := some (ProfileContext.new junk)
    log := [] }) (C := ProfileContext.new junk) ?_ h
  exact ⟨rfl, rfl, rfl, fun _ => rfl, fun i => .nil, .nil⟩

/-! ### Marks -/

/-- What is in a list has its like in the list beside it. -/
theorem exists_beside {α β : Type} {R : α → β → Prop} {as : List α} {bs : List β}
    (h : List.Forall₂ R as bs) {a : α} (ha : a ∈ as) : ∃ b ∈ bs, R a b := by
  induction h with
  | nil => cases ha
  | @cons x y as bs hxy _ ih =>
    rcases List.mem_cons.mp ha with rfl | ha
    · exact ⟨y, List.mem_cons_self, hxy⟩
    · obtain ⟨b, hb, hab⟩ := ih ha
      exact ⟨b, List.mem_cons_of_mem y hb, hab⟩

/-- `Q` holds of every mark of the scene. -/
def Scene.All (Q : Mark → Prop) (S : Scene) : Prop :=
  (∀ i, ∀ z ∈ S.zones i, Q z) ∧ ∀ m ∈ S.offered, Q m

variable {S' : Scene}

/-- The counters only grow. -/
theorem Scene.Moves.counters (h : S.Moves S') : S.nextID ≤ S'.nextID ∧ S.frame ≤ S'.frame := by
  cases h with
  | idle => exact ⟨le_refl _, le_refl _⟩
  | frameEnd => exact ⟨le_refl _, Nat.le_succ _⟩
  | opens i => exact ⟨Nat.le_succ _, le_refl _⟩
  | closes h => exact ⟨le_refl _, le_refl _⟩
  | samples i => exact ⟨Nat.le_succ _, le_refl _⟩

/-- The zones of the contexts after those of one have changed. -/
theorem forall_update {zones : ℕ → List Mark} {Q : ℕ → Mark → Prop} {i : ℕ} {zs : List Mark}
    (h : ∀ j, ∀ z ∈ zones j, Q j z) (hi : ∀ z ∈ zs, Q i z) :
    ∀ j, ∀ z ∈ Function.update zones i zs j, Q j z := by
  intro j
  by_cases hj : j = i
  · subst hj
    simpa only [Function.update_self] using hi
  · simpa only [Function.update_of_ne hj] using h j

/-- STEP: the marks after a move are those before, and the one it stamps. -/
theorem Scene.All.moves {Q : Mark → Prop} (h : S.All Q) (hm : S.Moves S')
    (hstamp : S'.nextID = S.nextID + 1 → ∀ i isZone, Q (S.stamp i isZone)) : S'.All Q := by
  cases hm with
  | idle => exact h
  | frameEnd => exact h
  | opens i =>
    exact ⟨forall_update h.1 (List.forall_mem_cons.mpr ⟨hstamp rfl i true, h.1 i⟩), h.2⟩
  | @closes i z zs hzs =>
    have hz := h.1 i
    rw [hzs] at hz
    refine ⟨forall_update h.1 fun w hw => hz w (List.mem_cons_of_mem z hw), ?_⟩
    exact List.forall_mem_append.mpr ⟨h.2, List.forall_mem_singleton.mpr (hz z List.mem_cons_self)⟩
  | samples i =>
    exact ⟨h.1, List.forall_mem_append.mpr ⟨h.2, List.forall_mem_singleton.mpr (hstamp rfl i false)⟩⟩

theorem Scene.All.imp {Q R : Mark → Prop} (h : S.All Q) (hQR : ∀ m, Q m → R m) : S.All R :=
  ⟨fun i z hz => hQR z (h.1 i z hz), fun m hm => hQR m (h.2 m hm)⟩

/-! ### Frames -/

/-- The counters are past the mark. -/
def Scene.Past (S : Scene) (m : Mark) : Prop := m.id < S.nextID ∧ m.frame ≤ S.frame

/-- INVARIANT: what was stamped before the counters stood at `n` and `f + 1` is in a frame up to `f`,
    what was stamped since is in a later one. -/
structure Scene.Split (n f : ℕ) (S : Scene) : Prop where
  nextID : n ≤ S.nextID
  frame : f < S.frame
  past : S.All S.Past
  split : S.All fun m => m.id < n ∧ m.frame ≤ f ∨ n ≤ m.id ∧ f < m.frame

theorem Scene.Past.moves (h : S.All S.Past) (hm : S.Moves S') : S'.All S'.Past := by
  obtain ⟨hid, hframe⟩ := hm.counters
  refine (h.imp fun m hpast => ⟨lt_of_lt_of_le hpast.1 hid, hpast.2.trans hframe⟩).moves hm ?_
  intro hnext i isZone
  exact ⟨by rw [hnext]; exact Nat.lt_succ_self _, hframe⟩

theorem Scene.Split.moves {n f : ℕ} (h : S.Split n f) (hm : S.Moves S') : S'.Split n f := by
  obtain ⟨hid, hframe⟩ := hm.counters
  exact ⟨h.nextID.trans hid, lt_of_lt_of_le h.frame hframe, Scene.Past.moves h.past hm,
    h.split.moves hm fun _ i isZone => Or.inr ⟨h.nextID, h.frame⟩⟩

/-- EXACT: where a frame ends, the session divides: of all events that it ever offers, those stamped
    before have a frame number up to the number of frames that had ended, and those stamped after a
    greater one, however long a zone stays open. -/
theorem frames_run {P₀ P₁ : Process T K} {junk : Junk K} {main : T} {as bs : List (Action T K)}
    {now : Int64} {C₁ C' : ProfileContext K} (hinit : P₀.espInit junk main = some P)
    (has : run (step sh) P as = some P₁) (hC₁ : P₁.context = some C₁)
    (hbs : run (step sh) P₁ (.frameEnd now :: bs) = some P') (hC' : P'.context = some C')
    (hids : C'.nextMessageID ≤ 4294967296) (hframes : C'.frameNumber < 4294967296) :
    ∀ ev ∈ P'.offers, ev.header.id.toNat < C₁.nextMessageID ↔
      ev.data.frameNumber.toNat ≤ as.countP Action.isFrameEnd := by
  obtain ⟨C, hstart⟩ := shows_espInit hinit
  have hnone : Scene.start.All Scene.start.Past := ⟨nofun, nofun⟩
  obtain ⟨D₁, S₁, h₁, hpast, hcount⟩ :=
    shows_run (I := fun S => S.All S.Past) (fun _ _ h hm => Scene.Past.moves h hm) hstart hnone has
  obtain rfl := Option.some.inj (hC₁.symm.trans h₁.context)
  -- the end of the frame parts what was stamped from what will be
  obtain ⟨P₂, hend, hbs⟩ := run_cons_some.mp hbs
  obtain rfl := Option.some.inj ((mapContext_some h₁.context _).symm.trans hend)
  have h₂ : Shows { P₁ with context := some (C₁.frameEnd now) } (C₁.frameEnd now)
      { S₁ with frame := S₁.frame + 1 } :=
    ⟨rfl, h₁.nextID, congrArg (· + 1) h₁.frame, h₁.index, h₁.zones, h₁.offered⟩
  have hsplit : Scene.Split S₁.nextID S₁.frame { S₁ with frame := S₁.frame + 1 } :=
    ⟨le_refl _, Nat.lt_succ_self _, hpast.imp fun m hm => ⟨hm.1, Nat.le_succ_of_le hm.2⟩,
      hpast.imp fun m hm => Or.inl hm⟩
  obtain ⟨D, S', h', hsplit', -⟩ := shows_run (fun _ _ h hm => h.moves hm) h₂ hsplit hbs
  obtain rfl := Option.some.inj (hC'.symm.trans h'.context)
  have hzero : Scene.start.frame = 0 := rfl
  rw [hzero, Nat.zero_add] at hcount
  intro ev hev
  obtain ⟨m, hm, hcarries⟩ := exists_beside h'.offered.flip hev
  obtain ⟨hid, hframe⟩ := hsplit'.past.2 m hm
  rw [h'.nextID] at hids
  rw [h'.frame] at hframes
  rw [hcarries.id, hcarries.frame, UInt32.toNat_ofNat_of_lt' (show m.id < 4294967296 by omega),
    UInt32.toNat_ofNat_of_lt' (show m.frame < 4294967296 by omega), h₁.nextID, ← hcount]
  have hside : m.id < S₁.nextID ∧ m.frame ≤ S₁.frame ∨ S₁.nextID ≤ m.id ∧ S₁.frame < m.frame :=
    hsplit'.split.2 m hm
  omega

/-- A zone that is open when a frame ends, and another thread's sample before it. -/
def frameOne : List (Action Bool Addr) :=
  [.record true 10 (.zone (some zoneName)), .record false 11 (.sample (some probeName) (.int 7))]

/-- The next frame: a sample in the zone, an `esp_end` that is not heard, and one that is. -/
def frameTwo : List (Action Bool Addr) :=
  [.record true 13 (.sample (some probeName) (.int 8)), .setPaused true, .record true 14 .endZone,
    .setPaused false, .drainEvents 1024, .record true 15 .endZone]

theorem frames_run_frameTwo : ∃ P P₁ P' C₁ C',
    Process.start.espInit (Junk.zero zoneName) true = some P ∧
      run (step espStrings) P frameOne = some P₁ ∧ P₁.context = some C₁ ∧
      run (step espStrings) P₁ (.frameEnd 12 :: frameTwo) = some P' ∧ P'.context = some C' ∧
      ∀ ev ∈ P'.offers, ev.header.id.toNat < C₁.nextMessageID ↔ ev.data.frameNumber.toNat ≤ 0 := by
  refine ⟨_, _, _, _, _, rfl, rfl, rfl, rfl, rfl, ?_⟩
  exact @frames_run Bool Addr _ espStrings _ _ _ Process.start _ (Junk.zero zoneName) true frameOne
    frameTwo 12 _ _ rfl rfl rfl rfl rfl (by decide) (by decide)

/-! ### Parents -/

/-- Each zone of a stack names the one below it. -/
def Around : List Mark → Prop
  | [] => True
  | z :: zs => z.parent = zs.head?.elim 0 Mark.id ∧ Around zs

/-- The zone around `m` is still open, or is offered later. -/
def Scene.Known (S : Scene) (later : List Mark) (m : Mark) : Prop :=
  m.parent = 0 ∨ (∃ z ∈ S.zones m.context, z.id = m.parent) ∨
    ∃ z ∈ later, z.id = m.parent ∧ z.isZone = true ∧ z.context = m.context

/-- INVARIANT: the parent of every mark is known. -/
structure Scene.Parents (S : Scene) : Prop where
  around : ∀ i, Around (S.zones i)
  places : ∀ i, ∀ z ∈ S.zones i, z.context = i ∧ z.isZone = true
  known : ∀ l₁ m l₂, S.offered = l₁ ++ m :: l₂ → S.Known l₂ m

/-- INVARIANT: no two marks have the same id. -/
structure Scene.Ids (S : Scene) : Prop where
  fresh : S.All fun m => m.id < S.nextID
  offered : (S.offered.map Mark.id).Nodup
  apart : ∀ i, ∀ z ∈ S.zones i, z.id ∉ S.offered.map Mark.id
  zones : ∀ i, ((S.zones i).map Mark.id).Nodup
  contexts : ∀ i j, i ≠ j → ∀ z ∈ S.zones i, ∀ w ∈ S.zones j, z.id ≠ w.id

theorem append_cons_eq_concat {α : Type} {l l₁ l₂ : List α} {m z : α}
    (h : l ++ [z] = l₁ ++ m :: l₂) :
    l₂ = [] ∧ m = z ∧ l = l₁ ∨ ∃ l₃, l₂ = l₃ ++ [z] ∧ l = l₁ ++ m :: l₃ := by
  rcases List.eq_nil_or_concat l₂ with rfl | ⟨l₃, y, rfl⟩
  · obtain ⟨rfl, hz⟩ := List.append_inj' h rfl
    exact Or.inl ⟨rfl, (List.cons.inj hz).1.symm, rfl⟩
  · rw [List.concat_eq_append, ← List.cons_append, ← List.append_assoc] at h
    obtain ⟨hl, hz⟩ := List.append_inj' h rfl
    obtain rfl := (List.cons.inj hz).1
    exact Or.inr ⟨l₃, List.concat_eq_append, hl⟩

/-- The parent of a new mark is the zone it is stamped in. -/
theorem Scene.known_stamp (S : Scene) (i : ℕ) (isZone : Bool) : S.Known [] (S.stamp i isZone) := by
  rcases hz : S.zones i with _ | ⟨z, zs⟩
  · exact Or.inl (by rw [Scene.stamp, hz]; rfl)
  · refine Or.inr (Or.inl ⟨z, ?_, ?_⟩)
    · show z ∈ S.zones i
      rw [hz]
      exact List.mem_cons_self
    · rw [Scene.stamp, hz]
      rfl

/-- What is known stays known where no zone is closed. -/
theorem Scene.Known.mono {later : List Mark} {m : Mark} (h : S.Known later m) {later' : List Mark}
    (hzones : ∀ z ∈ S.zones m.context, z ∈ S'.zones m.context) (hlater : later ⊆ later') :
    S'.Known later' m := by
  rcases h with h | ⟨z, hz, hid⟩ | ⟨z, hz, hrest⟩
  · exact Or.inl h
  · exact Or.inr (Or.inl ⟨z, hzones z hz, hid⟩)
  · exact Or.inr (Or.inr ⟨z, hlater hz, hrest⟩)

theorem Scene.Parents.moves (h : S.Parents) (hm : S.Moves S') : S'.Parents := by
  cases hm with
  | idle => exact h
  | frameEnd => exact ⟨h.around, h.places, h.known⟩
  | opens i =>
    refine ⟨?_, ?_, ?_⟩
    · intro j
      by_cases hj : j = i
      · subst hj
        simp only [Function.update_self]
        exact ⟨rfl, h.around j⟩
      · simp only [Function.update_of_ne hj]
        exact h.around j
    · exact forall_update h.places (List.forall_mem_cons.mpr ⟨⟨rfl, rfl⟩, h.places i⟩)
    · intro l₁ m l₂ hl
      refine (h.known l₁ m l₂ hl).mono ?_ (List.Subset.refl _)
      intro z hz
      by_cases hj : m.context = i
      · rw [hj] at hz ⊢
        simp only [Function.update_self]
        exact List.mem_cons_of_mem _ hz
      · simpa only [Function.update_of_ne hj] using hz
  | @closes i z zs hzs =>
    have haround := h.around i
    have hplaces := h.places i
    rw [hzs] at haround hplaces
    refine ⟨?_, ?_, ?_⟩
    · intro j
      by_cases hj : j = i
      · subst hj
        simp only [Function.update_self]
        exact haround.2
      · simp only [Function.update_of_ne hj]
        exact h.around j
    · exact forall_update h.places fun w hw => hplaces w (List.mem_cons_of_mem z hw)
    · intro l₁ m l₂ hl
      rcases append_cons_eq_concat hl with ⟨rfl, rfl, rfl⟩ | ⟨l₃, rfl, hfront⟩
      · -- the zone that is closed: its parent is the next one on the stack
        obtain ⟨hcontext, -⟩ := hplaces m List.mem_cons_self
        rcases zs with _ | ⟨w, ws⟩
        · exact Or.inl haround.1
        · refine Or.inr (Or.inl ⟨w, ?_, haround.1.symm⟩)
          simp only [hcontext, Function.update_self]
          exact List.mem_cons_self
      · rcases h.known l₁ m l₃ hfront with h0 | ⟨w, hw, hid⟩ | ⟨w, hw, hrest⟩
        · exact Or.inl h0
        · by_cases hj : m.context = i
          · rw [hj, hzs] at hw
            rcases List.mem_cons.mp hw with rfl | hw
            · obtain ⟨hcontext, hzone⟩ := hplaces w List.mem_cons_self
              exact Or.inr (Or.inr ⟨w, List.mem_append_right _ (List.mem_singleton_self w), hid,
                hzone, hcontext.trans hj.symm⟩)
            · refine Or.inr (Or.inl ⟨w, ?_, hid⟩)
              simp only [hj, Function.update_self]
              exact hw
          · refine Or.inr (Or.inl ⟨w, ?_, hid⟩)
            simpa only [Function.update_of_ne hj] using hw
        · exact Or.inr (Or.inr ⟨w, List.mem_append_left _ hw, hrest⟩)
  | samples i =>
    refine ⟨h.around, h.places, ?_⟩
    intro l₁ m l₂ hl
    rcases append_cons_eq_concat hl with ⟨rfl, rfl, rfl⟩ | ⟨l₃, rfl, hfront⟩
    · exact (S.known_stamp i false).mono (fun z hz => hz) (List.Subset.refl _)
    · exact (h.known l₁ m l₃ hfront).mono (fun z hz => hz) (List.subset_append_left _ _)

/-- STEP: a stamp takes an id that no mark has, and a zone that closes moves to what was offered. -/
theorem Scene.Ids.moves (h : S.Ids) (hm : S.Moves S') : S'.Ids := by
  have hfresh : S'.All fun m => m.id < S'.nextID := by
    refine (h.fresh.imp fun m hlt => lt_of_lt_of_le hlt hm.counters.1).moves hm ?_
    intro hnext i isZone
    rw [hnext]
    exact Nat.lt_succ_self _
  have hnew : S.nextID ∉ S.offered.map Mark.id := by
    intro hmem
    obtain ⟨m, hm, hid⟩ := List.mem_map.mp hmem
    exact absurd (h.fresh.2 m hm) (by omega)
  cases hm with
  | idle => exact h
  | frameEnd => exact ⟨hfresh, h.offered, h.apart, h.zones, h.contexts⟩
  | opens i =>
    refine ⟨hfresh, h.offered, ?_, ?_, ?_⟩
    · exact forall_update h.apart (List.forall_mem_cons.mpr ⟨hnew, h.apart i⟩)
    · intro j
      by_cases hj : j = i
      · subst hj
        simp only [Function.update_self, List.map_cons, List.nodup_cons]
        refine ⟨?_, h.zones j⟩
        intro hmem
        obtain ⟨z, hz, hid⟩ := List.mem_map.mp hmem
        have hlt : z.id < S.nextID := h.fresh.1 j z hz
        exact absurd hid hlt.ne
      · simp only [Function.update_of_ne hj]
        exact h.zones j
    · have hstamp : ∀ j, j ≠ i → ∀ w ∈ S.zones j, (S.stamp i true).id ≠ w.id := by
        intro j _ w hw hid
        have hlt : w.id < S.nextID := h.fresh.1 j w hw
        exact hlt.ne hid.symm
      intro j k hjk
      by_cases hj : j = i <;> by_cases hk : k = i
      · exact absurd (hj.trans hk.symm) hjk
      · subst hj
        simp only [Function.update_self, Function.update_of_ne hk]
        exact List.forall_mem_cons.mpr ⟨hstamp k hk, h.contexts j k hjk⟩
      · subst hk
        simp only [Function.update_self, Function.update_of_ne hj]
        intro z hz
        exact List.forall_mem_cons.mpr ⟨(hstamp j hj z hz).symm, h.contexts j k hjk z hz⟩
      · simp only [Function.update_of_ne hj, Function.update_of_ne hk]
        exact h.contexts j k hjk
  | @closes i z zs hzs =>
    have hzones := h.zones i
    rw [hzs, List.map_cons, List.nodup_cons] at hzones
    have hz : z ∈ S.zones i := by
      rw [hzs]
      exact List.mem_cons_self
    have hsub : ∀ j, ∀ w ∈ Function.update S.zones i zs j, w ∈ S.zones j :=
      forall_update (fun _ _ hw => hw) fun w hw => by
        rw [hzs]
        exact List.mem_cons_of_mem z hw
    refine ⟨hfresh, ?_, ?_, ?_, fun j k hjk w hw v hv => h.contexts j k hjk w (hsub j w hw) v
      (hsub k v hv)⟩
    · rw [List.map_append, List.map_singleton, List.nodup_append]
      refine ⟨h.offered, List.nodup_singleton _, ?_⟩
      rintro a ha b hb rfl
      rw [List.mem_singleton.mp hb] at ha
      exact h.apart i z hz ha
    · intro j w hw
      rw [List.map_append, List.map_singleton, List.mem_append, List.mem_singleton, not_or]
      refine ⟨h.apart j w (hsub j w hw), ?_⟩
      intro hid
      by_cases hj : j = i
      · subst hj
        simp only [Function.update_self] at hw
        exact hzones.1 (hid ▸ List.mem_map_of_mem hw)
      · exact h.contexts j i hj w (hsub j w hw) z hz hid
    · intro j
      by_cases hj : j = i
      · subst hj
        simp only [Function.update_self]
        exact hzones.2
      · simp only [Function.update_of_ne hj]
        exact h.zones j
  | samples i =>
    refine ⟨hfresh, ?_, ?_, h.zones, h.contexts⟩
    · rw [List.map_append, List.map_singleton, List.nodup_append]
      refine ⟨h.offered, List.nodup_singleton _, ?_⟩
      rintro a ha b hb rfl
      rw [List.mem_singleton.mp hb] at ha
      exact hnew ha
    · intro j w hw
      have hlt : w.id < S.nextID := h.fresh.1 j w hw
      rw [List.map_append, List.map_singleton, List.mem_append, List.mem_singleton, not_or]
      exact ⟨h.apart j w hw, hlt.ne⟩

theorem Scene.parents_start : Scene.start.Parents :=
  ⟨fun _ => trivial, nofun, fun _ _ _ h => absurd h (List.append_ne_nil_of_right_ne_nil _
    (List.cons_ne_nil _ _)).symm⟩

theorem Scene.ids_start : Scene.start.Ids :=
  ⟨⟨nofun, nofun⟩, List.nodup_nil, nofun, fun _ => List.nodup_nil, nofun⟩

/-- The marks of distinct ids below 2^32 stand for events of distinct ids. -/
theorem nodup_ids {n : ℕ} (hn : n ≤ 4294967296) {ms : List Mark} {evs : List ProfileEvent}
    (h : List.Forall₂ Carries ms evs) (hlt : ∀ m ∈ ms, m.id < n) (hnd : (ms.map Mark.id).Nodup) :
    (evs.map fun ev => ev.header.id).Nodup := by
  induction h with
  | nil => exact List.nodup_nil
  | @cons m ev ms evs hm hrest ih =>
    obtain ⟨hlt₁, hlt⟩ := List.forall_mem_cons.mp hlt
    obtain ⟨hnot, hnd⟩ := List.nodup_cons.mp hnd
    refine List.nodup_cons.mpr ⟨?_, ih hlt hnd⟩
    intro hmem
    obtain ⟨ev', hev', hid⟩ := List.mem_map.mp hmem
    obtain ⟨m', hm', hcarries⟩ := exists_beside hrest.flip hev'
    have hlt' := hlt m' hm'
    have hsame : (UInt32.ofNat m'.id).toNat = (UInt32.ofNat m.id).toNat := by
      rw [← hcarries.id, ← hm.id, hid]
    rw [UInt32.toNat_ofNat_of_lt' (show m'.id < 4294967296 by omega),
      UInt32.toNat_ofNat_of_lt' (show m.id < 4294967296 by omega)] at hsame
    exact hnot (hsame ▸ List.mem_map_of_mem hm')

/-- CORRECT: at every moment of every session, the parent of an event that was offered is none, or a
    zone of its thread that is offered later or is still open there; and no two events that were
    offered have the same id, while fewer than 2^32 have been given out. -/
theorem parents_run {P₀ : Process T K} {junk : Junk K} {main : T} {as : List (Action T K)}
    {C' : ProfileContext K} (hinit : P₀.espInit junk main = some P)
    (hr : run (step sh) P as = some P') (hC' : P'.context = some C') :
    (∀ l₁ ev l₂, P'.offers = l₁ ++ ev :: l₂ → ev.data.parentEventRef = 0 ∨
      (∃ z ∈ l₂, z.header.id = ev.data.parentEventRef ∧ isZoneEvent z = true ∧
        z.data.threadID = ev.data.threadID) ∨
      ∃ i, ev.data.threadID = UInt32.ofNat i ∧
        ∃ z ∈ (C'.threadContexts i).profileIntervalStack.contents,
          z.header.id = ev.data.parentEventRef) ∧
    (C'.nextMessageID ≤ 4294967296 → (P'.offers.map fun ev => ev.header.id).Nodup) := by
  obtain ⟨C, hstart⟩ := shows_espInit hinit
  obtain ⟨D, S', h', ⟨hparents, hids⟩, -⟩ := shows_run (I := fun S => S.Parents ∧ S.Ids)
    (fun _ _ h hm => ⟨h.1.moves hm, h.2.moves hm⟩) hstart
    ⟨Scene.parents_start, Scene.ids_start⟩ hr
  obtain rfl := Option.some.inj (hC'.symm.trans h'.context)
  refine ⟨?_, fun hn => nodup_ids (h'.nextID ▸ hn) h'.offered hids.fresh.2 hids.offered⟩
  intro l₁ ev l₂ hl
  have hoffered := h'.offered
  rw [hl] at hoffered
  -- the marks of the events before, of this one, and of the later ones
  have hlater := List.forall₂_drop_append _ _ _ hoffered
  obtain ⟨m, ms, hm, hms, hdrop⟩ := List.forall₂_cons_right_iff.mp hlater
  have hsplit : S'.offered = S'.offered.take l₁.length ++ m :: ms := by
    rw [← hdrop, List.take_append_drop]
  rcases hparents.known _ m ms hsplit with h0 | ⟨z, hz, hid⟩ | ⟨z, hz, hid, hzone, hcontext⟩
  · exact Or.inl (by rw [hm.parent, h0]; rfl)
  · obtain ⟨slot, hslot, hcarries⟩ := exists_beside (h'.zones m.context) hz
    exact Or.inr (Or.inr ⟨m.context, hm.context, slot, hslot, by rw [hcarries.id, hid, hm.parent]⟩)
  · obtain ⟨e, he, hcarries⟩ := exists_beside hms hz
    exact Or.inr (Or.inl ⟨e, he, by rw [hcarries.id, hid, hm.parent], hcarries.isZone.trans hzone,
      by rw [hcarries.context, hcontext, hm.context]⟩)

/-- The second sample names the zone around it, which is offered after it. -/
theorem parents_run_frameTwo : ∃ P P' C',
    Process.start.espInit (Junk.zero zoneName) true = some P ∧
      run (step espStrings) P (frameOne ++ frameTwo) = some P' ∧ P'.context = some C' ∧
      (P'.offers.map fun ev => (ev.header.id, ev.data.parentEventRef)) = [(2, 0), (3, 1), (1, 0)] ∧
      (∀ l₁ ev l₂, P'.offers = l₁ ++ ev :: l₂ → ev.data.parentEventRef = 0 ∨
        (∃ z ∈ l₂, z.header.id = ev.data.parentEventRef ∧ isZoneEvent z = true ∧
          z.data.threadID = ev.data.threadID) ∨
        ∃ i, ev.data.threadID = UInt32.ofNat i ∧
          ∃ z ∈ (C'.threadContexts i).profileIntervalStack.contents,
            z.header.id = ev.data.parentEventRef) ∧
      (P'.offers.map fun ev => ev.header.id).Nodup := by
  refine ⟨_, _, _, rfl, rfl, rfl, rfl, ?_⟩
  have hrun := @parents_run Bool Addr _ espStrings _ _ _ Process.start (Junk.zero zoneName) true
    (frameOne ++ frameTwo) _ rfl rfl rfl
  exact ⟨hrun.1, hrun.2 (by decide)⟩

/-! ### What a zone holds -/

/-- INVARIANT: the ids are counted from 1. -/
def Scene.Given (S : Scene) : Prop := S.All (fun m => 0 < m.id) ∧ 0 < S.nextID

theorem Scene.given_start : Scene.start.Given := ⟨⟨nofun, nofun⟩, Nat.one_pos⟩

theorem Scene.Given.moves (h : S.Given) (hm : S.Moves S') : S'.Given :=
  ⟨h.1.moves hm fun _ _ _ => h.2, lt_of_lt_of_le h.2 hm.counters.1⟩

/-- A mark comes before the mark it names as its parent. -/
theorem Scene.Parents.later (h : S.Parents) (hids : S.Ids) (hgiven : S.Given) {l₁ l₂ : List Mark}
    {m z : Mark} (hl : S.offered = l₁ ++ m :: l₂) (hz : z ∈ S.offered) (hparent : m.parent = z.id) :
    z ∈ l₂ := by
  rcases h.known l₁ m l₂ hl with h0 | ⟨w, hw, hid⟩ | ⟨w, hw, hid, -⟩
  · have hpos := hgiven.1.2 z hz
    omega
  · -- an open zone has not been offered
    exact absurd (List.mem_map.mpr ⟨z, hz, (hid.trans hparent).symm⟩) (hids.apart m.context w hw)
  · have hmem : w ∈ S.offered := by
      rw [hl]
      exact List.mem_append_right l₁ (List.mem_cons_of_mem m hw)
    rwa [List.inj_on_of_nodup_map hids.offered hz hmem (hparent.symm.trans hid.symm)]

/-- The parent of a mark is 0, or an id that was given out. -/
theorem Scene.Parents.parent_lt (h : S.Parents) (hids : S.Ids) (hgiven : S.Given) {m : Mark}
    (hm : m ∈ S.offered) : m.parent < S.nextID := by
  obtain ⟨l₁, l₂, hl⟩ := List.append_of_mem hm
  rcases h.known l₁ m l₂ hl with h0 | ⟨w, hw, hid⟩ | ⟨w, hw, hid, -⟩
  · rw [h0]
    exact hgiven.2
  · rw [← hid]
    exact hids.fresh.1 m.context w hw
  · rw [← hid]
    refine hids.fresh.2 w ?_
    rw [hl]
    exact List.mem_append_right l₁ (List.mem_cons_of_mem m hw)

omit [DecidableEq T] [DecidableEq K] in
/-- An event comes before the event it names as its parent, while fewer than 2^32 ids have been given
    out. -/
theorem Shows.before_parent (h : Shows P C S) (hparents : S.Parents) (hids : S.Ids)
    (hgiven : S.Given) (hn : C.nextMessageID ≤ 4294967296) {l₁ l₂ : List ProfileEvent}
    {ev z : ProfileEvent} (hl : P.offers = l₁ ++ ev :: l₂) (hz : z ∈ P.offers)
    (hparent : ev.data.parentEventRef = z.header.id) : z ∈ l₂ := by
  rw [h.nextID] at hn
  have hoffered := h.offered
  obtain ⟨mz, hmz, hzcarries⟩ := exists_beside hoffered.flip hz
  rw [hl] at hoffered
  obtain ⟨m, ms, hm, hms, hdrop⟩ :=
    List.forall₂_cons_right_iff.mp (List.forall₂_drop_append _ _ _ hoffered)
  have hsplit : S.offered = S.offered.take l₁.length ++ m :: ms := by
    rw [← hdrop, List.take_append_drop]
  have hmem : m ∈ S.offered := by
    rw [hsplit]
    exact List.mem_append_right _ List.mem_cons_self
  have hlt := hparents.parent_lt hids hgiven hmem
  have hltz := hids.fresh.2 mz hmz
  -- both ids are below 2^32
  have hsame : m.parent = mz.id := by
    have heq : (UInt32.ofNat m.parent).toNat = (UInt32.ofNat mz.id).toNat := by
      rw [← hm.parent, ← hzcarries.id, hparent]
    rwa [UInt32.toNat_ofNat_of_lt' (show m.parent < 4294967296 by omega),
      UInt32.toNat_ofNat_of_lt' (show mz.id < 4294967296 by omega)] at heq
  obtain ⟨e, he, hcarries⟩ := exists_beside hms (hparents.later hids hgiven hsplit hmz hsame)
  have hnodup := nodup_ids hn h.offered hids.fresh.2 hids.offered
  have hin : e ∈ P.offers := by
    rw [hl]
    exact List.mem_append_right l₁ (List.mem_cons_of_mem ev he)
  rwa [List.inj_on_of_nodup_map hnodup hz hin (hzcarries.id.trans hcarries.id.symm)]

end Esp.Context
