import Libesp.Schemes.Bracket
import Libesp.Context.Recording
import Libesp.Context.Names
import Libesp.Context.Rings

/-! @esp context | name:ThreadContext | scheme:bracket-structure |
    source:src/Context.cpp (Zone, End, Sample), README.md (nested zones)

    From the calls of a thread to the forest they describe. `ZoneNode` and `SampleNode` are the calls
    of a forest with what they were given and what they emitted; the log of the thread is the bracket
    word of such a forest and the emitted events are its postorder.

        calls      zone a   zone b   end   sample x   end
        log        ─        ─        b     x          a         events, in the order offered
        forest     a ─┬─ b                                      parents: b ↦ a, x ↦ a, a ↦ 0
                      └─ x                                      ids: a < b < x -/

namespace Esp.Context
open Event PointerHash LocklessRing Slab Machine Brackets

variable {T K : Type}

/-- A zone as it is called: its name, and the clock at its `esp_zone` and at its `esp_end`. -/
structure ZoneCall (K : Type) where
  name : Option K
  start : Int64
  stop : Int64
  deriving DecidableEq, Repr

/-- A sample as it is called. -/
structure SampleCall (K : Type) where
  name : Option K
  probe : Probe
  now : Int64
  deriving DecidableEq, Repr

/-- The calls of a forest, each with its clock reading. -/
def forestCalls (f : Forest (ZoneCall K) (SampleCall K)) : List (Int64 × Call K) :=
  f.tokens (fun z => (z.start, .zone z.name)) (fun z => (z.stop, .endZone))
    fun x => (x.now, .sample x.name x.probe)

/-- A zone with its event and the numbers of its two calls. -/
structure ZoneNode (K : Type) where
  call : ZoneCall K
  event : ProfileEvent
  opened : ℕ
  closed : ℕ

/-- A sample with its event and the number of its call. -/
structure SampleNode (K : Type) where
  call : SampleCall K
  event : ProfileEvent
  number : ℕ

/-- The stamp an event carries. -/
def stampOf (ev : ProfileEvent) : Stamp := ⟨ev.header.id, ev.data.eventNameRef⟩

/-- The log entry of an `esp_zone` that is given the zone's stamp. -/
def ZoneNode.openEntry (z : ZoneNode K) : Entry K :=
  ⟨z.opened, z.call.start, .zone z.call.name, some (stampOf z.event), none, none⟩

/-- The log entry of the `esp_end` that closes this zone and offers its event. -/
def ZoneNode.closeEntry (z : ZoneNode K) : Entry K :=
  ⟨z.closed, z.call.stop, .endZone, none, some z.event, some z.opened⟩

def SampleNode.entry (x : SampleNode K) : Entry K :=
  ⟨x.number, x.call.now, .sample x.call.name x.call.probe, some (stampOf x.event), some x.event,
    none⟩

/-- The event of a zone carries its thread and its own two clock readings. -/
structure ZoneNode.Stamped (i : ℕ) (z : ZoneNode K) : Prop where
  eventType : z.event.header.eventType = EV_ZONE_INTERVAL
  threadID : z.event.data.threadID = UInt32.ofNat i
  timestamp : z.event.data.timestamp = z.call.start
  value : z.event.data.value = elapsed z.call.stop z.call.start

/-- The event of a sample carries its thread, clock reading, type and value. -/
structure SampleNode.Stamped (i : ℕ) (x : SampleNode K) : Prop where
  eventType : x.event.header.eventType = x.call.probe.eventType
  threadID : x.event.data.threadID = UInt32.ofNat i
  timestamp : x.event.data.timestamp = x.call.now
  value : x.event.data.value = x.call.probe.value

/-- The events of a forest of calls. -/
def forestEvents (a : Forest (ZoneNode K) (SampleNode K)) : Forest ProfileEvent ProfileEvent :=
  a.map ZoneNode.event SampleNode.event

def eventKey (ev : ProfileEvent) : ℕ := ev.header.id.toNat

def eventParent (ev : ProfileEvent) : ℕ := ev.data.parentEventRef.toNat

def isZoneEvent (ev : ProfileEvent) : Bool := ev.header.eventType == EV_ZONE_INTERVAL

/-- The log `es` of the thread with context `i` is the forest of calls `f`: `a` is `f` with what its
    calls were given, every event names the zone around it (`parent` at the top), and every call is
    where it stands in `f`. -/
structure CallForest (i : ℕ) (parent : UInt32) (f : Forest (ZoneCall K) (SampleCall K))
    (es : List (Entry K)) (a : Forest (ZoneNode K) (SampleNode K)) : Prop where
  calls : a.map ZoneNode.call SampleNode.call = f
  entries : a.tokens ZoneNode.openEntry ZoneNode.closeEntry SampleNode.entry = es
  stamped : a.All (ZoneNode.Stamped i) (SampleNode.Stamped i)
  parents : Forest.Linked eventKey eventParent isZoneEvent parent.toNat (forestEvents a)

theorem Probe.eventType_ne_zone (p : Probe) : (p.eventType == EV_ZONE_INTERVAL) = false := by
  cases p <;> rfl

/-- The calls of a forest leave the stack as it was, and their entries are that forest. -/
theorem localRun_forest {cap i : ℕ} (f : Forest (ZoneCall K) (SampleCall K)) {st st' : List OpenZone}
    {es : List (Entry K)} (hd : f.depth + st.length ≤ cap)
    (hes : es.map Entry.timed = forestCalls f) (hr : LocalRun cap i st es st') :
    st' = st ∧ ∃ a, CallForest i (parentOf st) f es a := by
  induction f generalizing st st' es with
  | nil =>
    obtain rfl := List.map_eq_nil_iff.mp hes
    cases hr
    exact ⟨rfl, .nil, rfl, rfl, trivial, trivial⟩
  | zone z kids rest ihk ihr =>
    rw [Forest.depth] at hd
    obtain ⟨e, es₁, rfl, he, hes₁⟩ := List.map_eq_cons_iff.mp hes
    obtain ⟨ek, es₂, rfl, hek, hes₂⟩ := List.map_eq_append_iff.mp hes₁
    obtain ⟨e', er, rfl, he', her⟩ := List.map_eq_cons_iff.mp hes₂
    cases hr with
    | cons hopen hr =>
      obtain ⟨st₂, hrk, hr₂⟩ := hr.split
      cases hr₂ with
      | cons hclose hrr =>
        cases hopen with
        | @zone _ n now name σ frame hlt =>
          obtain ⟨rfl, ak, hak⟩ := ihk (by simp only [List.length_cons]; omega) hek hrk
          cases hclose with
          | @close _ _ n' now' =>
            obtain ⟨rfl, ar, har⟩ := ihr (by omega) her hrr
            cases he
            cases he'
            refine ⟨rfl, .zone ⟨z, closeAt z.stop (zoneEvent i (parentOf st') frame σ z.start), n, n'⟩
              ak ar, ?_, ?_, ?_, ?_⟩
            · simp only [Forest.map, hak.calls, har.calls]
            · simp only [Forest.tokens, hak.entries, har.entries]
              rfl
            · exact ⟨⟨rfl, rfl, rfl, rfl⟩, hak.stamped, har.stamped⟩
            · exact ⟨rfl, rfl, hak.parents, har.parents⟩
          | _ => cases he'
        | overflow hfull => omega
        | _ => cases he
  | leaf x rest ih =>
    rw [Forest.depth] at hd
    obtain ⟨e, es₁, rfl, he, hes₁⟩ := List.map_eq_cons_iff.mp hes
    cases hr with
    | cons hstep hr =>
      cases hstep with
      | @sample _ n now name probe σ frame =>
        obtain ⟨rfl, a, ha⟩ := ih (by omega) hes₁ hr
        cases he
        refine ⟨rfl, .leaf ⟨x, sampleEvent i (parentOf st') frame σ x.now x.probe, n⟩ a,
          ?_, ?_, ?_, ?_⟩
        · simp only [Forest.map, ha.calls]
        · simp only [Forest.tokens, ha.entries]
          rfl
        · exact ⟨⟨rfl, rfl, rfl, rfl⟩, ha.stamped⟩
        · exact ⟨rfl, x.probe.eventType_ne_zone, ha.parents⟩
      | _ => cases he

/-! ### The events of a forest -/

theorem offered_tokens (a : Forest (ZoneNode K) (SampleNode K)) :
    (a.tokens ZoneNode.openEntry ZoneNode.closeEntry SampleNode.entry).filterMap Entry.offered =
      (forestEvents a).post :=
  Forest.filterMap_tokens_post (g := Entry.offered) (fun _ => rfl) (fun _ => rfl) (fun _ => rfl) a

theorem stamps_tokens (a : Forest (ZoneNode K) (SampleNode K)) :
    (a.tokens ZoneNode.openEntry ZoneNode.closeEntry SampleNode.entry).filterMap Entry.stamp =
      (forestEvents a).pre.map stampOf := by
  rw [← Forest.pre_map, forestEvents, Forest.map_map]
  exact Forest.filterMap_tokens_pre (g := Entry.stamp) (fun _ => rfl) (fun _ => rfl)
    (fun _ => rfl) a

/-- What the entries of a forest say of their names, its nodes say of theirs. -/
theorem refOf_nodes [DecidableEq K] {sh : Shape K} {S : Table K}
    {a : Forest (ZoneNode K) (SampleNode K)}
    (h : ∀ e ∈ a.tokens ZoneNode.openEntry ZoneNode.closeEntry SampleNode.entry,
      ∀ σ, e.stamp = some σ → RefOf sh S e.call.name σ.nameRef) :
    a.All (fun z => RefOf sh S z.call.name z.event.data.eventNameRef)
      fun x => RefOf sh S x.call.name x.event.data.eventNameRef :=
  (Forest.all_of_tokens h).imp (fun _ hz => hz.1 _ rfl) fun _ hx => hx _ rfl

/-! ### The ids -/

variable [DecidableEq T] {ts : Finset T} {P : Process T K} {C : ProfileContext K} {t : T}

/-- The ids given out are 1, 2, 3, … -/
theorem OpenInv.ids_toNat (h : OpenInv ts P C) (hn : P.stamps.length < 4294967295) :
    P.stamps.map (fun σ => σ.id.toNat) = List.range' 1 P.stamps.length := by
  have hids := congrArg (List.map UInt32.toNat) h.ids
  rw [List.map_map, List.map_map] at hids
  refine hids.trans ((List.map_congr_left ?_).trans (List.map_id _))
  intro n hmem
  have := List.mem_range'_1.mp hmem
  exact UInt32.toNat_ofNat_of_lt' (by rw [UInt32.size]; omega)

theorem OpenInv.ids_nodup (h : OpenInv ts P C) (hn : P.stamps.length < 4294967295) :
    (P.stamps.map Stamp.id).Nodup := by
  have hnd : (P.stamps.map fun σ => σ.id.toNat).Nodup := by
    rw [h.ids_toNat hn]
    exact List.nodup_range'
  have hmap : P.stamps.map (fun σ => σ.id.toNat) = (P.stamps.map Stamp.id).map UInt32.toNat := by
    rw [List.map_map]
    rfl
  rw [hmap] at hnd
  exact hnd.of_map _

/-- The ids of a thread's calls grow. -/
theorem CallForest.increasing {i : ℕ} {p : UInt32} {f : Forest (ZoneCall K) (SampleCall K)}
    {a : Forest (ZoneNode K) (SampleNode K)} (ha : CallForest i p f (P.logOf t) a)
    (h : OpenInv ts P C) (hn : P.stamps.length < 4294967295) :
    ((forestEvents a).pre.map eventKey).Pairwise (· < ·) ∧
      ∀ ev ∈ (forestEvents a).pre, 0 < eventKey ev := by
  have hsub := (P.filterMap_logOf_sublist t Entry.stamp).map fun σ => σ.id.toNat
  have hkeys : ((P.logOf t).filterMap Entry.stamp).map (fun σ => σ.id.toNat) =
      (forestEvents a).pre.map eventKey := by
    rw [← ha.entries, stamps_tokens, List.map_map]
    rfl
  rw [← Process.stamps, h.ids_toNat hn, hkeys] at hsub
  refine ⟨(List.pairwise_lt_range' ..).sublist hsub, ?_⟩
  intro ev hev
  have := List.mem_range'_1.mp (hsub.subset (List.mem_map_of_mem hev))
  exact this.1

/-! ### The session -/

variable [DecidableEq K]

/-- What the session holds of a thread `t` whose calls are the forest `f`: `a` is `f` with the events,
    recorded in the context `i`. -/
structure Reconstruction (sh : Shape K) (P : Process T K) (t : T)
    (f : Forest (ZoneCall K) (SampleCall K)) (i : ℕ) (a : Forest (ZoneNode K) (SampleNode K)) :
    Prop where
  forest : CallForest i 0 f (P.logOf t) a
  /-- A zone is offered at its `esp_end`, a sample at its call. -/
  offered : P.offeredBy t = (forestEvents a).post
  named : ∀ S, P.strings = some S →
    a.All (fun z => RefOf sh S z.call.name z.event.data.eventNameRef)
      fun x => RefOf sh S x.call.name x.event.data.eventNameRef
  increasing : ((forestEvents a).pre.map eventKey).Pairwise (· < ·)
  /-- The events, in any order, give the forest back. -/
  recovered : ∀ l, l.Perm (P.offeredBy t) →
    Forest.recover eventKey eventParent isZoneEvent 0 l = forestEvents a

theorem reconstruction {sh : Shape K} {f : Forest (ZoneCall K) (SampleCall K)}
    (h : OpenInv ts P C) (hnames : NamesOk sh P) (hn : P.stamps.length < 4294967295) (ht : t ∈ ts)
    (hf : (P.logOf t).map Entry.timed = forestCalls f) (hd : f.depth ≤ espMaxZoneRecursion) :
    ∃ i a, Reconstruction sh P t f i a := by
  obtain ⟨i, st, hrun⟩ := h.localRun ht
  obtain ⟨-, a, ha⟩ := localRun_forest f (by simpa using hd) hf hrun
  obtain ⟨hinc, hpos⟩ := ha.increasing h hn
  have hoff : P.offeredBy t = (forestEvents a).post := by
    rw [Process.offeredBy, ← ha.entries, offered_tokens]
  refine ⟨i, a, ha, hoff, fun S hS => refOf_nodes ?_, hinc, ?_⟩
  · intro e he σ hσ
    rw [ha.entries] at he
    obtain ⟨x, hx, hxe⟩ := List.mem_filterMap.mp he
    split_ifs at hxe
    obtain rfl := Option.some.inj hxe
    exact hnames S hS x hx σ hσ
  · intro l hl
    exact Forest.recover_perm ha.parents hpos hinc (hoff ▸ hl)

/-- CORRECT: in a session of at most `espMaxThreadCount` threads, however their calls interleave, the
    events of each thread are its call forest, and no other run of the same calls logs different
    events, whatever its rings refuse. -/
theorem callForest_run (sh : Shape K) (junk : Junk K) {main : T}
    {f : T → Forest (ZoneCall K) (SampleCall K)} {as : List (Action T K)}
    (hts : ts.card ≤ espMaxThreadCount) (hmain : main ∈ ts) (hpaused : P.paused = false)
    (hfresh : ∀ t ∈ ts, P.threadContext t = none) (has : ∀ a ∈ as, Within ts a)
    (hf : ∀ t ∈ ts, callsOf t as = forestCalls (f t))
    (hd : ∀ t ∈ ts, (f t).depth ≤ espMaxZoneRecursion) :
    ∃ P₀ P', P.espInit junk main = some P₀ ∧ run (step sh) P₀ as = some P' ∧
      (P'.stamps.length < 4294967295 →
        (∀ t ∈ ts, ∃ i a, Reconstruction sh P' t (f t) i a) ∧ (P'.stamps.map Stamp.id).Nodup) ∧
      ∀ bs Q, (bs.filter fun b => !b.isDrain) = (as.filter fun a => !a.isDrain) →
        run (step sh) P₀ bs = some Q → Q.log = P'.log := by
  obtain ⟨P₀, C₀, hinit, h₀, hlog⟩ := openInv_espInit hmain hpaused hfresh junk
  obtain ⟨P', C', hr, h', hl⟩ := openInv_run sh hts has h₀
  refine ⟨P₀, P', hinit, hr, fun hn => ⟨?_, h'.ids_nodup hn⟩, ?_⟩
  · intro t ht
    refine reconstruction h' (namesOk_run (namesOk_nil hlog) hr) hn ht ?_ (hd t ht)
    rw [hl t, Process.logOf, hlog]
    exact hf t ht
  · intro bs Q hbs hQ
    exact log_eq_of_drains sh hbs.symm hr hQ

def zoneName : Addr := ⟨1, by decide⟩

def probeName : Addr := ⟨2, by decide⟩

/-- Two threads: one zone with a sample in it, and one zone opened and closed meanwhile. -/
def twoForests : Bool → Forest (ZoneCall Addr) (SampleCall Addr)
  | true => .zone ⟨some zoneName, 10, 14⟩ (.leaf ⟨some probeName, .int 7, 12⟩ .nil) .nil
  | false => .zone ⟨some zoneName, 11, 13⟩ .nil .nil

def twoCalls : List (Action Bool Addr) :=
  [.record true 10 (.zone (some zoneName)), .record false 11 (.zone (some zoneName)),
    .record true 12 (.sample (some probeName) (.int 7)), .drainEvents 1024,
    .record false 13 .endZone, .record true 14 .endZone]

theorem callForest_run_twoCalls : ∃ P₀ P',
    Process.start.espInit (Junk.zero zoneName) true = some P₀ ∧
      run (step espStrings) P₀ twoCalls = some P' ∧
      (∀ t, ∃ i a, Reconstruction espStrings P' t (twoForests t) i a) ∧
      (P'.stamps.map Stamp.id).Nodup := by
  obtain ⟨P₀, P', hinit, hr, hrec, -⟩ := callForest_run (P := Process.start) (f := twoForests)
    espStrings (Junk.zero zoneName) (show (Finset.univ : Finset Bool).card ≤ 64 by decide)
    (Finset.mem_univ true) rfl (fun _ _ => rfl)
    (show ∀ a ∈ twoCalls, Within Finset.univ a by simp [twoCalls, Within]) (by decide) (by decide)
  have hcount : (run (step espStrings) P₀ twoCalls).map (fun P => P.stamps.length) = some 3 := by
    have : (((Process.start : Process Bool Addr).espInit (Junk.zero zoneName) true).bind
        fun P => (run (step espStrings) P twoCalls).map fun P => P.stamps.length) = some 3 := by
      decide
    rw [hinit] at this
    exact this
  rw [hr] at hcount
  have hlen : P'.stamps.length = 3 := Option.some.inj hcount
  obtain ⟨hforests, hnodup⟩ := hrec (by omega)
  exact ⟨P₀, P', hinit, hr, fun t => hforests t (Finset.mem_univ t), hnodup⟩

end Esp.Context
