import Libesp.Schemes.Nesting
import Libesp.Context.CallForest

/-! @esp context | name:ThreadContext | scheme:bracket-structure |
    source:src/Context.cpp (StampEvent, Zone, End), src/Event.h, README.md (duration)

    The intervals that the events of a thread record. A zone keeps its start in 64 bits and its
    duration in 32, so a zone that lasts 2³² µs or more records a shorter interval than it had, and
    what ran late in it lies outside.

        zone   start ├──────────────────────────────────┤ stop
        event        ├────────────┤ ◀──── lost ────────▶    timestamp + value.ui
        kids           ├────┤   •     ├─────┤
                                      outside -/

namespace Esp.Context
open Event PointerHash Slab Machine Brackets

variable {T K : Type}

/-- Where the interval of an event starts. -/
def startOf (ev : ProfileEvent) : ℤ := ev.data.timestamp.toInt

/-- Where the interval of a zone's event ends: `timestamp + value.ui`. -/
def endOf (ev : ProfileEvent) : ℤ := ev.data.timestamp.toInt + ev.data.value.toNat

/-- What a zone's duration loses when 32 bits of it are kept. -/
def lost (z : ZoneCall K) : ℤ := (z.stop.toInt - z.start.toInt) / 4294967296 * 4294967296

/-- Every zone runs on behind the last call directly inside it for as long as its duration loses; a
    zone inside ends, for this, by what its own duration loses earlier. -/
def Outlasts (f : Forest (ZoneCall K) (SampleCall K)) : Prop :=
  f.AllZones fun z kids =>
    ∀ e ∈ (kids.tops (fun c => c.stop.toInt - lost c) fun x => x.now.toInt).getLast?,
      lost z ≤ z.stop.toInt - e

/-- A clock reading as a number is the number of its 64 bits, modulo 2⁶⁴. -/
theorem toInt_cases (x : Int64) :
    x.toInt = x.toBitVec.toNat ∨ x.toInt = (x.toBitVec.toNat : ℤ) - 18446744073709551616 := by
  have h := BitVec.toInt_eq_toNat_cond x.toBitVec
  rw [Int64.toInt, h]
  split
  · exact Or.inl rfl
  · exact Or.inr rfl

/-- The value of a zone is its duration modulo 2³². -/
theorem elapsed_toNat (now timestamp : Int64) :
    ((elapsed now timestamp).toNat : ℤ) = (now.toInt - timestamp.toInt) % 4294967296 := by
  have hsub : (elapsed now timestamp).toNat =
      (18446744073709551616 - timestamp.toBitVec.toNat + now.toBitVec.toNat) %
        18446744073709551616 % 4294967296 := by
    rw [elapsed, UInt64.toNat_toUInt32]
    exact congrArg (· % 2 ^ 32) (BitVec.toNat_sub now.toBitVec timestamp.toBitVec)
  have hlt := timestamp.toBitVec.isLt
  rw [hsub]
  rcases toInt_cases now with hn | hn <;> rcases toInt_cases timestamp with ht | ht <;>
    rw [hn, ht] <;> omega

/-! ### The recorded intervals -/

/-- Where the interval of a zone's event ends, from the calls of the zone. -/
def recordedStop (z : ZoneCall K) : ℤ := z.stop.toInt - lost z

/-- The intervals that a forest of calls records. -/
def recorded (f : Forest (ZoneCall K) (SampleCall K)) : Forest (ℤ × ℤ) ℤ :=
  f.map (fun z => (z.start.toInt, recordedStop z)) fun x => x.now.toInt

theorem ZoneNode.Stamped.interval {i : ℕ} {z : ZoneNode K} (h : z.Stamped i) :
    (startOf z.event, endOf z.event) = (z.call.start.toInt, recordedStop z.call) := by
  have hsum := Int.emod_add_mul_ediv (z.call.stop.toInt - z.call.start.toInt) 4294967296
  rw [startOf, endOf, h.timestamp, h.value, elapsed_toNat, recordedStop, lost]
  exact Prod.ext rfl (by simp only; omega)

/-- The events of a thread record the intervals of its calls. -/
theorem CallForest.intervals_eq {i : ℕ} {p : UInt32} {f : Forest (ZoneCall K) (SampleCall K)}
    {es : List (Entry K)} {a : Forest (ZoneNode K) (SampleNode K)} (h : CallForest i p f es a) :
    intervals startOf endOf (forestEvents a) = recorded f := by
  rw [intervals, forestEvents, Forest.map_map, recorded, ← h.calls, Forest.map_map]
  refine Forest.map_congr (h.stamped.imp (fun z hz => hz.interval) fun x hx => ?_)
  rw [startOf, hx.timestamp]

/-- Where the clock of a thread never runs backwards, the intervals are orderly. -/
theorem recorded_orderly {f : Forest (ZoneCall K) (SampleCall K)}
    (hclock : ((forestCalls f).map Prod.fst).Pairwise (· ≤ ·)) : Orderly (recorded f) := by
  refine @orderly_of_sorted ℤ _ _ _ _ (fun z : ZoneCall K => z.stop.toInt) _ _ f ?_ ?_
  · intro z hz
    rw [recordedStop, lost]
    omega
  · have hword : f.tokens (fun z => z.start.toInt) (fun z => z.stop.toInt) (fun x => x.now.toInt) =
        ((forestCalls f).map Prod.fst).map Int64.toInt := by
      rw [List.map_map, forestCalls, Forest.map_tokens]
      rfl
    rw [hword, List.pairwise_map]
    exact hclock.imp fun h => Int64.le_iff_toInt_le.mp h

/-- The last call inside each zone is recorded in time exactly when the zones outlast it. -/
theorem lastInTime_recorded (f : Forest (ZoneCall K) (SampleCall K)) :
    LastInTime (recorded f) ↔ Outlasts f := by
  rw [LastInTime, recorded, Forest.allZones_map, Outlasts]
  have hends : ∀ kids : Forest (ZoneCall K) (SampleCall K),
      (spans (recorded kids)).map Prod.snd =
        kids.tops (fun c => c.stop.toInt - lost c) fun x => x.now.toInt := by
    intro kids
    rw [spans, recorded, Forest.tops_map, Forest.map_tops]
    rfl
  have hzone : ∀ (z : ZoneCall K) (kids : Forest (ZoneCall K) (SampleCall K)),
      (∀ a ∈ (spans (recorded kids)).getLast?, a.2 ≤ recordedStop z) ↔
        ∀ e ∈ (kids.tops (fun c => c.stop.toInt - lost c) fun x => x.now.toInt).getLast?,
          lost z ≤ z.stop.toInt - e := by
    intro z kids
    rw [← hends, List.getLast?_map]
    simp only [Option.mem_map, forall_exists_index, and_imp, forall_apply_eq_imp_iff₂,
      recordedStop, le_sub_comm]
  exact ⟨fun h => h.imp fun z kids => (hzone z kids).mp,
    fun h => h.imp fun z kids => (hzone z kids).mpr⟩

/-! ### The session -/

section Session

variable [DecidableEq T] {ts : Finset T} {P : Process T K} {C : ProfileContext K} {t : T}

/-- The events of a thread whose calls are the forest `f`, with the nesting of their intervals: on the
    forest `a` of the calls, and on the list of the events alone. -/
structure NestingOf (P : Process T K) (t : T) (f : Forest (ZoneCall K) (SampleCall K))
    (a : Forest (ZoneNode K) (SampleNode K)) : Prop where
  forest : ∃ i, CallForest i 0 f (P.logOf t) a
  offered : P.offeredBy t = (forestEvents a).post
  nested : Nested (intervals startOf endOf (forestEvents a)) ↔ Outlasts f
  /-- As long as no id is given out twice, `parentEventRef` says as much. -/
  named : P.stamps.length < 4294967295 →
    (NestedNodes eventKey eventParent isZoneEvent startOf endOf (P.offeredBy t) ↔ Outlasts f)

theorem nestingOf_session {f : Forest (ZoneCall K) (SampleCall K)} (h : OpenInv ts P C)
    (ht : t ∈ ts) (hf : (P.logOf t).map Entry.timed = forestCalls f)
    (hd : f.depth ≤ espMaxZoneRecursion)
    (hclock : ((forestCalls f).map Prod.fst).Pairwise (· ≤ ·)) : ∃ a, NestingOf P t f a := by
  obtain ⟨i, st, hrun⟩ := h.localRun ht
  obtain ⟨-, a, ha⟩ := localRun_forest f (by simpa using hd) hf hrun
  have hoff : P.offeredBy t = (forestEvents a).post := by
    rw [Process.offeredBy, ← ha.entries, offered_tokens]
  have horder := recorded_orderly hclock
  refine ⟨a, ⟨i, ha⟩, hoff, ?_, ?_⟩
  · rw [ha.intervals_eq, nested_iff horder]
    exact lastInTime_recorded f
  · intro hn
    obtain ⟨hinc, hpos⟩ := ha.increasing h hn
    have hperm := (forestEvents a).pre_perm_post.map eventKey
    have hnd : ((forestEvents a).post.map eventKey).Nodup :=
      hperm.nodup_iff.mp (hinc.imp fun hlt => ne_of_lt hlt)
    have hroot : (0 : UInt32).toNat ∉ (forestEvents a).post.map eventKey := by
      intro hmem
      obtain ⟨ev, hev, hzero⟩ := List.mem_map.mp (hperm.mem_iff.mpr hmem)
      exact absurd hzero (hpos ev hev).ne'
    rw [hoff, nestedNodes_iff ha.parents hnd hroot (by rwa [ha.intervals_eq]), ha.intervals_eq]
    exact lastInTime_recorded f

/-- RUN: however the threads' calls interleave, where the clock of a thread never runs backwards the
    intervals its events record are nested exactly when its zones outlast what is inside them. -/
theorem nestedZones_run [DecidableEq K] (sh : Shape K) (junk : Junk K) {main : T}
    {f : T → Forest (ZoneCall K) (SampleCall K)} {as : List (Action T K)}
    (hts : ts.card ≤ espMaxThreadCount) (hmain : main ∈ ts) (hpaused : P.paused = false)
    (hfresh : ∀ t ∈ ts, P.threadContext t = none) (has : ∀ a ∈ as, Within ts a)
    (hf : ∀ t ∈ ts, callsOf t as = forestCalls (f t))
    (hd : ∀ t ∈ ts, (f t).depth ≤ espMaxZoneRecursion)
    (hclock : ∀ t ∈ ts, ((forestCalls (f t)).map Prod.fst).Pairwise (· ≤ ·)) :
    ∃ P₀ P', P.espInit junk main = some P₀ ∧ run (step sh) P₀ as = some P' ∧
      ∀ t ∈ ts, ∃ a, NestingOf P' t (f t) a := by
  obtain ⟨P₀, C₀, hinit, h₀, hlog⟩ := openInv_espInit hmain hpaused hfresh junk
  obtain ⟨P', C', hr, h', hl⟩ := openInv_run sh hts has h₀
  refine ⟨P₀, P', hinit, hr, ?_⟩
  intro t ht
  refine nestingOf_session h' ht ?_ (hd t ht) (hclock t ht)
  rw [hl t, Process.logOf, hlog]
  exact hf t ht

end Session

theorem outlasts_twoForests (t : Bool) : Outlasts (twoForests t) := by
  cases t with
  | false => exact ⟨fun _ he => absurd he (Option.not_mem_none _), trivial, trivial⟩
  | true =>
    refine ⟨?_, trivial, trivial⟩
    rintro e he
    obtain rfl : (12 : Int64).toInt = e := Option.some.inj he
    decide

/-- The two threads of `twoCalls` record nested intervals. -/
theorem nestedZones_run_twoCalls : ∃ P₀ P',
    Process.start.espInit (Junk.zero zoneName) true = some P₀ ∧
      run (step espStrings) P₀ twoCalls = some P' ∧
      ∀ t, ∃ a, NestingOf P' t (twoForests t) a ∧
        Nested (intervals startOf endOf (forestEvents a)) := by
  obtain ⟨P₀, P', hinit, hr, hall⟩ := nestedZones_run (P := Process.start) (f := twoForests)
    espStrings (Junk.zero zoneName) (show (Finset.univ : Finset Bool).card ≤ 64 by decide)
    (Finset.mem_univ true) rfl (fun _ _ => rfl)
    (show ∀ a ∈ twoCalls, Within Finset.univ a by simp [twoCalls, Within]) (by decide) (by decide)
    (by decide)
  refine ⟨P₀, P', hinit, hr, ?_⟩
  intro t
  obtain ⟨a, ha⟩ := hall t (Finset.mem_univ t)
  exact ⟨a, ha, ha.nested.mpr (outlasts_twoForests t)⟩

/-- A zone of 2³² + 5 µs with a sample 100 µs into it. -/
def longCalls : List (Action Bool Addr) :=
  [.record true 0 (.zone (some zoneName)), .record true 100 (.sample (some probeName) (.int 7)),
    .record true 4294967301 .endZone]

/-- REFUTED: the interval of a zone of 2³² + 5 µs is 5 µs, and the sample lies outside it. -/
theorem longCalls_outside : ∃ P₀ P',
    Process.start.espInit (Junk.zero zoneName) true = some P₀ ∧
      run (step espStrings) P₀ longCalls = some P' ∧
      ¬ NestedNodes eventKey eventParent isZoneEvent startOf endOf (P'.offeredBy true) := by
  have hevents : ((Process.start.espInit (Junk.zero zoneName) true).bind fun P =>
      (run (step espStrings) P longCalls).map fun P => P.offeredBy true) =
      some [⟨⟨EV_PROBE_INT, 2⟩, ⟨0, 1, 0, 100, 1, 7⟩⟩,
        ⟨⟨EV_ZONE_INTERVAL, 1⟩, ⟨0, 0, 0, 0, 0, 5⟩⟩] := by
    decide
  obtain ⟨P₀, hinit, hrun⟩ := Option.bind_eq_some_iff.mp hevents
  obtain ⟨P', hr, hoff⟩ := Option.map_eq_some_iff.mp hrun
  refine ⟨P₀, P', hinit, hr, ?_⟩
  rw [hoff]
  intro h
  have hin := h.contains _ (List.mem_cons_of_mem _ List.mem_cons_self) rfl _ List.mem_cons_self rfl
  exact absurd hin.2 (by decide)

end Esp.Context
