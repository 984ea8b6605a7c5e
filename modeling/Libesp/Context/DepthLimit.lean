import Libesp.Context.CallForest

/-! @esp context | name:ThreadContext | scheme:bracket-structure |
    source:src/Context.cpp (Zone, End), src/stack/slabstack.h (Push, Pop), src/profile.h (esp_end)

    Zones past the depth limit. A `Push` on a full stack fails without a trace, but the `esp_end` of
    that zone still pops: it takes the zone around it, and from there on every `esp_end` up to the
    top closes a zone too far out.

        calls      zone 1 … zone 1024   zone 1025   end 1025   end 1024  …  end 2   end 1
        stack      1 …      1024        1024        1023       1022      …  0       0
        closes                                      1024       1023      …  1       none

    So the zones within the limit are closed by their own `esp_end` exactly when nothing is nested
    past it. -/

namespace Esp.Context
open Event PointerHash LocklessRing Slab Machine Brackets

variable {T K : Type}

/-- A zone as it is called, with the log entries of its `esp_zone` and its own `esp_end`. -/
structure ZoneEntries (K : Type) where
  call : ZoneCall K
  opening : Entry K
  closing : Entry K

structure SampleEntry (K : Type) where
  call : SampleCall K
  entry : Entry K

/-- The log entry of the zone's own `esp_end` says that it closed this zone. -/
def ZoneEntries.Own (z : ZoneEntries K) : Prop := z.closing.closed = some z.opening.number

/-- The log `es` is laid out along the calls `f`, and each zone within the limit is closed by its own
    `esp_end`. -/
structure OwnEnds (cap : ℕ) (f : Forest (ZoneCall K) (SampleCall K)) (es : List (Entry K))
    (a : Forest (ZoneEntries K) (SampleEntry K)) : Prop where
  calls : a.map ZoneEntries.call SampleEntry.call = f
  entries : a.tokens ZoneEntries.opening ZoneEntries.closing SampleEntry.entry = es
  own : a.AllWithin ZoneEntries.Own cap

/-- A zone that could not be pushed emits nothing. -/
def UnpushedSilent (es : List (Entry K)) : Prop :=
  ∀ e ∈ es, ∀ name, e.call = .zone name → e.stamp = none →
    e.offered = none ∧ ∀ e' ∈ es, e'.closed ≠ some e.number

/-- The calls of a forest without those of the zones nested deeper than `espMaxZoneRecursion`. -/
def prunedCalls (f : Forest (ZoneCall K) (SampleCall K)) : List (Int64 × Call K) :=
  f.tokensWithin (fun z => (z.start, .zone z.name)) (fun z => (z.stop, .endZone))
    (fun x => (x.now, .sample x.name x.probe)) espMaxZoneRecursion

/-! ### A run past the limit -/

section Steps

variable {cap i : ℕ} {st st' : List OpenZone} {e : Entry K}

/-- INVERSION: an `esp_zone` pushes, or finds the stack full and changes nothing. -/
theorem LocalStep.of_zone {name : Option K} (h : LocalStep cap i st e st')
    (hc : e.call = .zone name) :
    (st.length < cap ∧ ∃ z, st' = z :: st ∧ z.number = e.number) ∨ (st.length = cap ∧ st' = st) := by
  cases h with
  | zone frame hlt => exact Or.inl ⟨hlt, _, rfl, rfl⟩
  | overflow hfull => exact Or.inr ⟨hfull, rfl⟩
  | _ => cases hc

/-- INVERSION: an `esp_end` closes the top of the stack, whatever zone that is. -/
theorem LocalStep.of_end {z : OpenZone} (h : LocalStep cap i (z :: st) e st')
    (hc : e.call = .endZone) : st' = st ∧ e.closed = some z.number := by
  cases h with
  | close => exact ⟨rfl, rfl⟩
  | _ => cases hc

theorem LocalStep.of_sample {name : Option K} {probe : Probe} (h : LocalStep cap i st e st')
    (hc : e.call = .sample name probe) : st' = st := by
  cases h with
  | sample frame => rfl
  | _ => cases hc

end Steps

/-- The log entries of a node are entries of the calls it stands for. -/
def CallsAs (a : Forest (ZoneEntries K) (SampleEntry K)) : Prop :=
  a.All (fun z => (∃ name, z.opening.call = .zone name) ∧ z.closing.call = .endZone)
    fun x => ∃ name probe, x.entry.call = .sample name probe

theorem OwnEnds.callsAs {cap : ℕ} {f : Forest (ZoneCall K) (SampleCall K)} {es : List (Entry K)}
    {a : Forest (ZoneEntries K) (SampleEntry K)} (h : OwnEnds cap f es a)
    (hes : es.map Entry.timed = forestCalls f) : CallsAs a := by
  have hword : a.tokens (fun z => z.opening.timed) (fun z => z.closing.timed)
      (fun x => x.entry.timed) = a.tokens (fun z => (z.call.start, .zone z.call.name))
        (fun z => (z.call.stop, .endZone)) fun x => (x.call.now, .sample x.call.name x.call.probe) := by
    rw [← h.entries, ← h.calls, forestCalls, Forest.tokens_map, Forest.map_tokens] at hes
    exact hes
  refine (Forest.all_of_tokens_eq hword).imp ?_ ?_
  · intro z hz
    exact ⟨⟨_, congrArg Prod.snd hz.1⟩, congrArg Prod.snd hz.2⟩
  · intro x hx
    exact ⟨_, _, congrArg Prod.snd hx⟩

variable {cap i : ℕ} {st st' : List OpenZone} {a : Forest (ZoneEntries K) (SampleEntry K)}

/-- On a full stack a forest without zones changes nothing, and one with a zone closes the top. -/
theorem localRun_full {z : OpenZone} (hfull : (z :: st).length = cap) (ha : CallsAs a)
    (hr : LocalRun cap i (z :: st)
      (a.tokens ZoneEntries.opening ZoneEntries.closing SampleEntry.entry) st') :
    (a.depth = 0 ∧ st' = z :: st) ∨
      ∃ e ∈ a.tokens ZoneEntries.opening ZoneEntries.closing SampleEntry.entry,
        e.closed = some z.number := by
  induction a generalizing st' with
  | nil =>
    cases hr
    exact Or.inl ⟨rfl, rfl⟩
  | zone p kids rest ihk _ =>
    refine Or.inr ?_
    obtain ⟨⟨⟨name, hopen⟩, hclose⟩, hkids, -⟩ := ha
    cases hr with
    | cons hs hr =>
      rcases hs.of_zone hopen with ⟨hlt, -⟩ | ⟨-, rfl⟩
      · exact absurd hfull (Nat.ne_of_lt hlt)
      · obtain ⟨st₁, hrk, hr⟩ := hr.split
        rcases ihk hkids hrk with ⟨-, rfl⟩ | ⟨e, he, hz⟩
        · cases hr with
          | cons hs hr =>
            refine ⟨p.closing, ?_, (hs.of_end hclose).2⟩
            exact List.mem_cons_of_mem _ (List.mem_append_right _ List.mem_cons_self)
        · exact ⟨e, List.mem_cons_of_mem _ (List.mem_append_left _ he), hz⟩
  | leaf x rest ih =>
    obtain ⟨⟨name, probe, hsample⟩, hrest⟩ := ha
    cases hr with
    | cons hs hr =>
      obtain rfl := hs.of_sample hsample
      rcases ih hrest hr with hnone | ⟨e, he, hz⟩
      · exact Or.inl hnone
      · exact Or.inr ⟨e, List.mem_cons_of_mem _ he, hz⟩

/-- Where no entry closes twice and the zones with room on the stack are closed by their own
    `esp_end`, nothing is nested deeper than there is room. -/
theorem depth_le_of_own {n : ℕ} (hn : st.length + (n + 1) = cap) (ha : CallsAs a)
    (hr : LocalRun cap i st
      (a.tokens ZoneEntries.opening ZoneEntries.closing SampleEntry.entry) st')
    (hown : a.AllWithin ZoneEntries.Own (n + 1))
    (hnd : ((a.tokens ZoneEntries.opening ZoneEntries.closing SampleEntry.entry).filterMap
      Entry.closed).Nodup) :
    a.depth ≤ n + 1 ∧ st' = st := by
  induction a generalizing n st st' with
  | nil =>
    cases hr
    exact ⟨Nat.zero_le _, rfl⟩
  | zone p kids rest ihk ihr =>
    obtain ⟨⟨⟨name, hopen⟩, hclose⟩, hak, har⟩ := ha
    obtain ⟨hp, hok, hor⟩ := hown
    rw [Forest.tokens, ← List.cons_append, List.filterMap_append] at hnd
    obtain ⟨hndk, hndr, hdisj⟩ := List.nodup_append.mp hnd
    cases hr with
    | cons hs hr =>
      rcases hs.of_zone hopen with ⟨-, z, rfl, hz⟩ | ⟨hfull, -⟩
      · obtain ⟨st₁, hrk, hr⟩ := hr.split
        have hkids : kids.depth ≤ n ∧ st₁ = z :: st := by
          cases n with
          | zero =>
            rcases localRun_full (by simpa using hn) hak hrk with ⟨hd, rfl⟩ | ⟨e, he, hez⟩
            · exact ⟨hd.le, rfl⟩
            · -- the zone that found no room has closed `z`, which its own `esp_end` closes later
              have hearly := List.mem_filterMap.mpr
                ⟨e, List.mem_cons_of_mem p.opening he, hez.trans (congrArg some hz)⟩
              exact absurd rfl (hdisj _ hearly _
                (List.mem_filterMap.mpr ⟨p.closing, List.mem_cons_self, hp⟩))
          | succ n =>
            exact ihk (by simp only [List.length_cons]; omega) hak hrk hok
              (hndk.sublist ((List.sublist_cons_self _ _).filterMap _))
        obtain ⟨hdk, rfl⟩ := hkids
        cases hr with
        | cons hsc hrr =>
          obtain ⟨rfl, -⟩ := hsc.of_end hclose
          obtain ⟨hdr, rfl⟩ := ihr hn har hrr hor
            (hndr.sublist ((List.sublist_cons_self _ _).filterMap _))
          exact ⟨by rw [Forest.depth]; omega, rfl⟩
      · omega
  | leaf x rest ih =>
    obtain ⟨⟨name, probe, hsample⟩, hrest⟩ := ha
    cases hr with
    | cons hs hr =>
      obtain rfl := hs.of_sample hsample
      exact ih hn hrest hr hown (hnd.sublist ((List.sublist_cons_self _ _).filterMap _))

/-! ### What is closed and when -/

/-- The call put a zone on the stack. -/
def Entry.pushed (e : Entry K) : Bool :=
  match e.call with
  | .zone _ => e.stamp.isSome
  | _ => false

/-- RUN: every zone pushed in a run is closed in it or still open at its end, once. -/
theorem localRun_closed {es : List (Entry K)} (hr : LocalRun cap i st es st') :
    (es.filterMap Entry.closed ++ st'.map OpenZone.number).Perm
      (st.map OpenZone.number ++ (es.filter Entry.pushed).map Entry.number) := by
  induction hr with
  | nil st => simp
  | @cons st st₁ st₂ e es hs hr ih =>
    cases hs with
    | zone frame hlt => exact ih.trans List.perm_middle.symm
    | overflow hfull => exact ih
    | close => exact ih.cons _
    | stray => exact ih
    | sample frame => exact ih

/-- No zone is closed twice. -/
theorem localRun_closed_nodup {es : List (Entry K)} (hr : LocalRun cap i [] es st')
    (hnum : (es.map Entry.number).Nodup) : (es.filterMap Entry.closed).Nodup := by
  have hpushed : ((es.filter Entry.pushed).map Entry.number).Nodup :=
    hnum.sublist (List.filter_sublist.map _)
  exact (List.nodup_append.mp ((localRun_closed hr).nodup_iff.mpr hpushed)).1

theorem localRun_zone_offered {es : List (Entry K)} (hr : LocalRun cap i st es st') :
    ∀ e ∈ es, ∀ name, e.call = .zone name → e.offered = none := by
  induction hr with
  | nil st => exact fun e he => nomatch he
  | cons hs hr ih =>
    intro e he name hc
    rcases List.mem_cons.mp he with rfl | he
    · cases hs with
      | zone frame hlt => rfl
      | overflow hfull => rfl
      | _ => cases hc
    · exact ih e he name hc

theorem localRun_unpushedSilent {es : List (Entry K)} (hr : LocalRun cap i [] es st')
    (hnum : (es.map Entry.number).Nodup) : UnpushedSilent es := by
  intro e he name hc hstamp
  refine ⟨localRun_zone_offered hr e he name hc, ?_⟩
  intro e' he' hclosed
  have hmem : e.number ∈ (es.filter Entry.pushed).map Entry.number :=
    (localRun_closed hr).subset (List.mem_append_left _ (List.mem_filterMap.mpr ⟨e', he', hclosed⟩))
  obtain ⟨e₁, he₁, heq⟩ := List.mem_map.mp hmem
  obtain ⟨he₁, hpushed⟩ := List.mem_filter.mp he₁
  obtain rfl := List.inj_on_of_nodup_map hnum he₁ he heq
  rw [Entry.pushed, hc, hstamp] at hpushed
  cases hpushed

/-! ### The session of one thread -/

variable [DecidableEq K] [DecidableEq T]

/-- A session in which one thread makes these calls. -/
def recordAll (sh : Shape K) (junk : Junk K) (t : T) (calls : List (Int64 × Call K)) :
    Option (Process T K) :=
  (Process.start.espInit junk t).bind fun P =>
    run (step sh) P (calls.map fun c => .record t c.1 c.2)

/-- Zones past the depth limit do not disturb the others: the thread that calls `f` emits what it
    emits without the zones nested too deep, each zone within the limit is closed by its own
    `esp_end`, and a zone that could not be pushed emits nothing. -/
def Undisturbed (sh : Shape K) (junk : Junk K) (t : T) (f : Forest (ZoneCall K) (SampleCall K)) :
    Prop :=
  ∃ P Q, recordAll sh junk t (forestCalls f) = some P ∧
    recordAll sh junk t (prunedCalls f) = some Q ∧ P.offeredBy t = Q.offeredBy t ∧
    (∃ a, OwnEnds espMaxZoneRecursion f (P.logOf t) a) ∧ UnpushedSilent (P.logOf t)

omit [DecidableEq K] in
theorem callsOf_record (t : T) (calls : List (Int64 × Call K)) :
    callsOf t (calls.map fun c => .record t c.1 c.2) = calls := by
  induction calls with
  | nil => rfl
  | cons c calls ih =>
    simp only [callsOf, List.map_cons, List.filterMap_cons, if_true]
    exact congrArg _ ih

omit [DecidableEq K] in
theorem OpenInv.numbers_nodup {ts : Finset T} {P : Process T K} {C : ProfileContext K}
    (h : OpenInv ts P C) (t : T) : ((P.logOf t).map Entry.number).Nodup := by
  have hsub := P.filterMap_logOf_sublist t fun e => some e.number
  rw [List.filterMap_eq_map', List.filterMap_eq_map', h.numbers] at hsub
  exact List.nodup_range.sublist hsub

/-- RUN: one thread's calls, whatever they are, are recorded as a run of the stack machine. -/
theorem recordAll_run (sh : Shape K) (junk : Junk K) (t : T) (calls : List (Int64 × Call K)) :
    ∃ P i st, recordAll sh junk t calls = some P ∧
      LocalRun espMaxZoneRecursion i [] (P.logOf t) st ∧
      (P.logOf t).map Entry.timed = calls ∧ ((P.logOf t).map Entry.number).Nodup := by
  obtain ⟨P₀, C₀, hinit, h₀, hlog⟩ := openInv_espInit (P := Process.start)
    (Finset.mem_singleton_self t) rfl (fun _ _ => rfl) junk
  have hwithin : ∀ a ∈ calls.map fun c => Action.record t c.1 c.2, Within {t} a := by
    intro a ha
    obtain ⟨c, -, rfl⟩ := List.mem_map.mp ha
    exact Finset.mem_singleton_self t
  obtain ⟨P, C, hr, h, hl⟩ := openInv_run sh (by rw [Finset.card_singleton]; decide) hwithin h₀
  obtain ⟨i, st, hrun⟩ := h.localRun (Finset.mem_singleton_self t)
  refine ⟨P, i, st, ?_, hrun, ?_, h.numbers_nodup t⟩
  · rw [recordAll, hinit, Option.bind_some, hr]
  · rw [hl t, Process.logOf, hlog, callsOf_record]
    rfl

variable {sh : Shape K} {junk : Junk K} {t : T} {f : Forest (ZoneCall K) (SampleCall K)}

theorem undisturbed_of_depth (hd : f.depth ≤ espMaxZoneRecursion) : Undisturbed sh junk t f := by
  obtain ⟨P, i, st, hP, hr, hcalls, hnum⟩ := recordAll_run sh junk t (forestCalls f)
  have hpruned : prunedCalls f = forestCalls f := Forest.tokensWithin_eq _ _ _ hd
  obtain ⟨-, a, ha⟩ := localRun_forest f (by simpa using hd) hcalls hr
  refine ⟨P, P, hP, by rw [hpruned, hP], rfl, ⟨a.map (fun z => ⟨z.call, z.openEntry, z.closeEntry⟩)
    fun x => ⟨x.call, x.entry⟩, ?_, ?_, ?_⟩, localRun_unpushedSilent hr hnum⟩
  · rw [Forest.map_map]
    exact ha.calls
  · rw [Forest.tokens_map]
    exact ha.entries
  · exact Forest.allWithin_map _
      (fun z => show z.closeEntry.closed = some z.openEntry.number from rfl) _ a

theorem depth_of_undisturbed (h : Undisturbed sh junk t f) : f.depth ≤ espMaxZoneRecursion := by
  obtain ⟨P, -, hP, -, -, ⟨a, ha⟩, -⟩ := h
  obtain ⟨P', i, st, hP', hr, hcalls, hnum⟩ := recordAll_run sh junk t (forestCalls f)
  obtain rfl := Option.some.inj (hP.symm.trans hP')
  have hdepth : f.depth = a.depth := by rw [← ha.calls, Forest.depth_map]
  rw [hdepth]
  have hnd := localRun_closed_nodup hr hnum
  rw [← ha.entries] at hr hnd
  have hroom : ([] : List OpenZone).length + (1023 + 1) = espMaxZoneRecursion := rfl
  exact (depth_le_of_own hroom (ha.callsAs hcalls) hr ha.own hnd).1

/-- EXACT: zones past the limit leave the others alone exactly when there are none. -/
theorem undisturbed_iff (sh : Shape K) (junk : Junk K) (t : T)
    (f : Forest (ZoneCall K) (SampleCall K)) :
    Undisturbed sh junk t f ↔ f.depth ≤ espMaxZoneRecursion :=
  ⟨depth_of_undisturbed, undisturbed_of_depth⟩

/-- `n` zones, each in the one before. -/
def nested : ℕ → Forest (ZoneCall Addr) (SampleCall Addr)
  | 0 => .nil
  | n + 1 => .zone ⟨some zoneName, 0, 0⟩ (nested n) .nil

theorem depth_nested (n : ℕ) : (nested n).depth = n := by
  induction n with
  | zero => rfl
  | succ n ih => rw [nested, Forest.depth, ih, Forest.depth, Nat.max_zero]

/-- REFUTED: one zone more than the stack holds, and the zone around it is closed too early. -/
theorem nested_disturbs :
    ¬ Undisturbed espStrings (Junk.zero zoneName) () (nested (espMaxZoneRecursion + 1)) := by
  intro h
  have hd := depth_of_undisturbed h
  rw [depth_nested] at hd
  exact absurd hd (Nat.not_succ_le_self _)

end Esp.Context
