import Libesp.Context.Resolvable
import Libesp.Uplift.CutFile
import Libesp.Uplift.FileStore

/-! @esp uplift | name:Sample, WriteEvent | scheme:pipeline |
    source:src/Context.cpp (Sample), src/Event.h (ProfileEventValue), src/uplift/FileStore.cpp
    (WriteEvent), src/uplift/uplift.cpp (ReadRecord)

    An integer probe from its call to its row. A call writes the member of the union that its type has;
    the file keeps the 32 bits and the type; `WriteEvent` reads the bits by `ui`, whatever the type.

        esp_sample_int   v ─▶ value.i  ─┐
                                        ├─▶ 32 bits ─▶ file ─▶ 32 bits ─▶ value.ui ─▶ row
        esp_sample_uint  v ─▶ value.ui ─┘

    So a row has the value of its call exactly when that is not negative (`probeValues_iff`). -/

namespace Esp.Uplift
open Event PointerHash Machine
open Context (Probe Call Entry Process Junk Action Recorder RecorderAction ThreadContext ProfileContext)

variable {T K : Type}

/-- What happens in a session: the recording calls, the passes of the drain thread, and the calls
    that record nothing. -/
inductive SessionAction (T K : Type) where
  | recorder (a : RecorderAction T K)
  | threadInit (t : T)
  | frameEnd (now : Int64)
  | setPaused (shouldPause : Bool)

/-- The number an integer probe is given. -/
def probeInteger : Probe → Option ℤ
  | .int v => some v.toInt
  | .uint v => some v.toNat
  | .float _ => none

/-- `ev` is the event of an `esp_sample_int` or `esp_sample_uint` of `v` under this name. -/
def Sampled (log : List (T × Entry K)) (name : Option K) (v : ℤ) (ev : ProfileEvent) : Prop :=
  ∃ x ∈ log, ∃ probe, x.2.call = .sample name probe ∧ probeInteger probe = some v ∧
    x.2.offered = some ev

/-- The rows of the sampled integers that reach `WriteEvent` have their values, and those of one probe
    compare as these do. -/
structure ProbesSurvive (log : List (T × Entry K)) (calls : List StoreCall) : Prop where
  values : ∀ name v ev, Sampled log name v ev → .writeEvent ev ∈ calls → (eventRow ev).value = v
  order : ∀ name v ev v' ev', Sampled log name v ev → Sampled log name v' ev' →
    .writeEvent ev ∈ calls → .writeEvent ev' ∈ calls →
    ((eventRow ev).value < (eventRow ev').value ↔ v < v')

variable [DecidableEq K] [DecidableEq T] (sh : Shape K) (mem : K → List UInt8) (disk : ℕ → ℕ)

/-- A call that has nothing to do with the writer. -/
def callOf (s : Recorder T K) (a : Action T K) : Option (Recorder T K) :=
  (Context.step sh s.process a).map fun P => { s with process := P }

def sessionStep (fuel : ℕ) (s : Recorder T K) : SessionAction T K → Option (Recorder T K)
  | .recorder a => s.step sh mem disk fuel a
  | .threadInit t => callOf sh s (.threadInit t)
  | .frameEnd now => callOf sh s (.frameEnd now)
  | .setPaused shouldPause => callOf sh s (.setPaused shouldPause)

variable {sh mem disk}

/-! ### The 32 bits -/

/-- The bits of an integer, read as unsigned, are the integer exactly when it is not negative. -/
theorem value_eq_iff {probe : Probe} {v : ℤ} (hv : probeInteger probe = some v) :
    (probe.value.toNat : ℤ) = v ↔ 0 ≤ v := by
  cases probe with
  | int i =>
    obtain rfl := Option.some.inj hv
    constructor
    · intro h
      rw [← h]
      exact Int.natCast_nonneg _
    · intro h
      have hbits : i.toBitVec.toInt = i.toInt := rfl
      have hlt := i.toBitVec.isLt
      show ((i.toBitVec.toNat : ℕ) : ℤ) = i.toInt
      rw [← hbits] at h ⊢
      rw [BitVec.toInt_eq_toNat_cond] at h ⊢
      split_ifs at h ⊢ with hc
      · rfl
      · omega
  | uint u =>
    obtain rfl := Option.some.inj hv
    exact iff_of_true rfl (Int.natCast_nonneg _)
  | float bits => cases hv

/-! ### What the calls log -/

/-- The samples of the log have the bits they were given. -/
def BitsKept (log : List (T × Entry K)) : Prop :=
  ∀ x ∈ log, ∀ name probe ev, x.2.call = .sample name probe → x.2.offered = some ev →
    ev.data.value = probe.value

variable {P P' P₀ : Process T K} {s s' : Recorder T K}

omit [DecidableEq T] in
/-- A sample stores its bits in the event it offers. -/
theorem record_value (th : ThreadContext) (C : ProfileContext K) (number : ℕ) (now : Int64)
    (c : Call K) {name : Option K} {probe : Probe} {ev : ProfileEvent}
    (hc : (th.record sh C number now c).entry.call = .sample name probe)
    (hev : (th.record sh C number now c).entry.offered = some ev) :
    ev.data.value = probe.value := by
  obtain rfl : c = .sample name probe := (Context.record_entry sh th C number now c).2.2.1.symm.trans hc
  cases hev
  rfl

/-- STEP: a recording call. -/
theorem BitsKept.record (h : BitsKept P.log) {t : T} {now : Int64} {c : Call K}
    (hs : P.espRecord sh t now c = some P') : BitsKept P'.log := by
  rcases Context.espRecord_cases hs with ⟨-, rfl⟩ | ⟨-, hinit, -⟩ | ⟨-, P₁, C, i, hinit, -, -, -, rfl⟩
  · exact h
  · rwa [(Context.strings_threadInit hinit).2]
  · rw [← (Context.strings_threadInit hinit).2] at h
    intro x hx name probe ev hcall hev
    rcases List.mem_append.mp hx with hold | hnew
    · exact h x hold name probe ev hcall hev
    · obtain rfl := List.mem_singleton.mp hnew
      exact record_value (C.threadContexts i) C P₁.log.length now c hcall hev

omit [DecidableEq K] [DecidableEq T] in
/-- The drain thread logs nothing. -/
theorem consume_log {f : Writer.RawEventWriter K → Option (Writer.RawEventWriter K)}
    (hs : s.consume f = some s') : s'.process.log = s.process.log := by
  obtain ⟨C, hC, -⟩ := Option.bind_eq_some_iff.mp hs
  obtain ⟨w', -, rfl⟩ := Context.consume_some hC hs
  rfl

/-- STEP: whatever happens in a session. -/
theorem BitsKept.step (h : BitsKept s.process.log) {fuel : ℕ} {a : SessionAction T K}
    (hs : sessionStep sh mem disk fuel s a = some s') : BitsKept s'.process.log := by
  cases a with
  | recorder a =>
    cases a with
    | record t now c =>
      obtain ⟨P', hP, rfl⟩ := Option.map_eq_some_iff.mp hs
      exact h.record hP
    | drain => rwa [consume_log hs]
  | threadInit t =>
    obtain ⟨P', hP, rfl⟩ := Option.map_eq_some_iff.mp hs
    rwa [(Context.strings_threadInit hP).2]
  | frameEnd now =>
    obtain ⟨P', hP, rfl⟩ := Option.map_eq_some_iff.mp hs
    obtain ⟨C, -, rfl⟩ := Option.map_eq_some_iff.mp hP
    exact h
  | setPaused shouldPause =>
    obtain rfl := Option.some.inj hs
    exact h

/-- RUN: from `esp_init` to the last `Flush`. -/
theorem bitsKept_run {junk : Junk K} {main : T} {buffer : ℤ → ProfileEvent} {fuel : ℕ}
    {as : List (SessionAction T K)} (hinit : P₀.espInit junk main = some P)
    (hr : run (sessionStep sh mem disk fuel) (Recorder.new P junk buffer) as = some s)
    (hs : s.finish mem disk fuel = some s') : BitsKept s'.process.log := by
  have hempty : BitsKept (Recorder.new P junk buffer).process.log := by
    have hlog : P.log = [] := (Context.strings_threadInit hinit).2
    intro x hx
    rw [Recorder.new, hlog] at hx
    cases hx
  rw [consume_log hs]
  exact run_inv (fun _ _ _ hI _ hs => BitsKept.step hI hs) as (meets_true _ as) hempty hr

/-! ### What the reader passes on -/

theorem readLoop_mono {m n : ℕ} (hmn : m ≤ n) {file : List UInt8} {r : Reading}
    (h : readLoop m file = some r) : readLoop n file = some r := by
  induction m generalizing n file r with
  | zero => cases h
  | succ m ih =>
    obtain ⟨n, rfl⟩ : ∃ k, n = k + 1 := ⟨n - 1, by omega⟩
    rw [readLoop] at h ⊢
    split at h
    · exact h
    · exact h
    · obtain ⟨r', hr', rfl⟩ := Option.map_eq_some_iff.mp h
      rw [ih (Nat.le_of_succ_le_succ hmn) hr', Option.map_some]

/-- Of a session file whose records are readable, the store is called with every record. -/
theorem calls_of_readable {file : List (Record × UInt32)} (hfile : ∀ x ∈ file, Readable x.1) {n : ℕ}
    {r : Reading} (hread : readLoop n (emit file) = some r) :
    r.calls = file.map fun x => storeCall x.1 := by
  have hwhole := readLoop_emit hfile (Nat.lt_succ_self file.length)
  have hsame := (readLoop_mono (le_max_left n _) hread).symm.trans
    (readLoop_mono (le_max_right n (file.length + 1)) hwhole)
  obtain rfl := Option.some.inj hsame
  rw [Reading.calls, List.map_map]
  rfl

/-- EXACT: of every session and the uplift of its file, the integer probes have their values in the
    rows, and compare by them, exactly when none that was uplifted is negative. -/
theorem probeValues_iff {junk : Junk K} {main : T} {buffer : ℤ → ProfileEvent} {fuel : ℕ}
    {as : List (SessionAction T K)} (hinit : P₀.espInit junk main = some P)
    (hr : run (sessionStep sh mem disk fuel) (Recorder.new P junk buffer) as = some s)
    (hs : s.finish mem disk fuel = some s') {file : List (Record × UInt32)}
    (hfile : file.map Prod.fst = s'.writer.outputFile) {n : ℕ} {r : Reading}
    (hread : readLoop n (emit file) = some r) :
    ((∀ x ∈ file, Readable x.1) → r.calls = s'.writer.outputFile.map storeCall) ∧
    (ProbesSurvive s'.process.log r.calls ↔
      ∀ name v ev, Sampled s'.process.log name v ev → .writeEvent ev ∈ r.calls → 0 ≤ v) := by
  have hkept := bitsKept_run hinit hr hs
  -- the row of a sample has the sampled bits
  have hrow : ∀ name v ev, Sampled s'.process.log name v ev →
      ((eventRow ev).value = v ↔ 0 ≤ v) := by
    rintro name v ev ⟨x, hx, probe, hcall, hv, hev⟩
    rw [← value_eq_iff hv, eventRow, hkept x hx name probe ev hcall hev]
  refine ⟨?_, ?_, ?_⟩
  · intro hreadable
    rw [calls_of_readable hreadable hread, ← hfile, List.map_map]
    rfl
  · intro h name v ev hsampled hcall
    exact (hrow name v ev hsampled).mp (h.values name v ev hsampled hcall)
  · intro h
    have hvalues : ∀ name v ev, Sampled s'.process.log name v ev → .writeEvent ev ∈ r.calls →
        (eventRow ev).value = v := fun name v ev hsampled hcall =>
      (hrow name v ev hsampled).mpr (h name v ev hsampled hcall)
    refine ⟨hvalues, ?_⟩
    intro name v ev v' ev' hv hv' hcall hcall'
    rw [hvalues name v ev hv hcall, hvalues name v' ev' hv' hcall']

/-! ### One sample -/

open Context (zoneName oneLetter steady)

/-- A session of one `esp_sample_int`. -/
def oneInt (v : Int32) : List (SessionAction Unit Addr) :=
  [.recorder (.record () 10 (.sample (some zoneName) (.int v))), .recorder .drain]

/-- That session, from `esp_init` to the end of its file. -/
def oneIntEnd (v : Int32) : Option (Recorder Unit Addr) :=
  (Process.start.espInit (Junk.zero zoneName) ()).bind fun P =>
    (run (sessionStep espStrings oneLetter steady 3)
      (Recorder.new P (Junk.zero zoneName) fun _ => Writer.tick 0) (oneInt v)).bind fun s =>
        s.finish oneLetter steady 3

def oneIntEvent (v : Int32) : ProfileEvent :=
  ⟨⟨EV_PROBE_INT, 1⟩, ⟨0, 0, 0, 10, 0, v.toUInt32⟩⟩

def oneIntLog (v : Int32) : List (Unit × Entry Addr) :=
  [((), ⟨0, 10, .sample (some zoneName) (.int v), some ⟨1, 0⟩, some (oneIntEvent v), none⟩)]

def oneIntFile (v : Int32) : List (Record × UInt32) :=
  [(.string 0 [120], 0), (.event (oneIntEvent v), 0)]

/-- The session as the theorem above asks for it, from what it computes to. -/
theorem oneInt_session {v : Int32}
    (h : (oneIntEnd v).map (fun s => (s.process.log, s.writer.outputFile)) =
      some (oneIntLog v, (oneIntFile v).map Prod.fst)) :
    ∃ P s s', Process.start.espInit (Junk.zero zoneName) () = some P ∧
      run (sessionStep espStrings oneLetter steady 3)
        (Recorder.new P (Junk.zero zoneName) fun _ => Writer.tick 0) (oneInt v) = some s ∧
      s.finish oneLetter steady 3 = some s' ∧ s'.process.log = oneIntLog v ∧
      (oneIntFile v).map Prod.fst = s'.writer.outputFile := by
  obtain ⟨s', hs', hout⟩ := Option.map_eq_some_iff.mp h
  obtain ⟨P, hinit, hrest⟩ := Option.bind_eq_some_iff.mp hs'
  obtain ⟨s, hr, hs⟩ := Option.bind_eq_some_iff.mp hrest
  obtain ⟨hlog, hfile⟩ := Prod.mk.inj hout
  exact ⟨P, s, s', hinit, hr, hs, hlog, hfile.symm⟩

theorem readable_oneIntFile (v : Int32) : ∀ x ∈ oneIntFile v, Readable x.1 := by
  simp [oneIntFile, oneIntEvent, Readable, stringBufferSize, EV_NEW_STRING, EV_PROBE_INT]

theorem readLoop_oneIntFile (v : Int32) : ∃ r, readLoop 3 (emit (oneIntFile v)) = some r :=
  ⟨_, readLoop_emit (readable_oneIntFile v) (show 2 < 3 by decide)⟩

/-- A sample of 7. -/
theorem probeValues_iff_seven : ∃ P s s' r,
    Process.start.espInit (Junk.zero zoneName) () = some P ∧
      run (sessionStep espStrings oneLetter steady 3)
        (Recorder.new P (Junk.zero zoneName) fun _ => Writer.tick 0) (oneInt 7) = some s ∧
      s.finish oneLetter steady 3 = some s' ∧ s'.process.log = oneIntLog 7 ∧
      readLoop 3 (emit (oneIntFile 7)) = some r ∧
      r.calls = [.writeString 0 [120], .writeEvent (oneIntEvent 7)] ∧
      ProbesSurvive s'.process.log r.calls := by
  obtain ⟨P, s, s', hinit, hr, hs, hlog, hfile⟩ := oneInt_session (v := 7) (by decide +kernel)
  obtain ⟨r, hread⟩ := readLoop_oneIntFile 7
  obtain ⟨hcalls, hiff⟩ := probeValues_iff hinit hr hs hfile hread
  refine ⟨P, s, s', r, hinit, hr, hs, hlog, hread, ?_, hiff.mpr ?_⟩
  · rw [hcalls (readable_oneIntFile 7), ← hfile]
    rfl
  · rintro name v ev ⟨x, hx, probe, hcall, hv, -⟩ -
    rw [hlog] at hx
    obtain rfl := List.mem_singleton.mp hx
    cases hcall
    obtain rfl := Option.some.inj hv
    decide

/-- REFUTED: a sample of -1 has the row 4294967295. -/
theorem minusOne_wraps : ∃ P s s' r,
    Process.start.espInit (Junk.zero zoneName) () = some P ∧
      run (sessionStep espStrings oneLetter steady 3)
        (Recorder.new P (Junk.zero zoneName) fun _ => Writer.tick 0) (oneInt (-1)) = some s ∧
      s.finish oneLetter steady 3 = some s' ∧
      (oneIntFile (-1)).map Prod.fst = s'.writer.outputFile ∧
      readLoop 3 (emit (oneIntFile (-1))) = some r ∧
      (eventRow (oneIntEvent (-1))).value = 4294967295 ∧
      ¬ ProbesSurvive s'.process.log r.calls := by
  obtain ⟨P, s, s', hinit, hr, hs, hlog, hfile⟩ := oneInt_session (v := -1) (by decide +kernel)
  obtain ⟨r, hread⟩ := readLoop_oneIntFile (-1)
  refine ⟨P, s, s', r, hinit, hr, hs, hfile, hread, by decide, ?_⟩
  intro hsurvive
  have hsampled : Sampled s'.process.log (some zoneName) (-1) (oneIntEvent (-1)) := by
    rw [hlog]
    exact ⟨_, List.mem_singleton_self _, .int (-1), rfl, by decide, rfl⟩
  have hcall : StoreCall.writeEvent (oneIntEvent (-1)) ∈ r.calls := by
    rw [calls_of_readable (readable_oneIntFile (-1)) hread]
    decide
  exact absurd (hsurvive.values _ _ _ hsampled hcall) (by decide)

end Esp.Uplift
