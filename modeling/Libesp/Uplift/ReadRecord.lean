import Mathlib.Data.List.TakeWhile
import Libesp.Event
import Libesp.Schemes.Bytes

/-! @esp uplift | name:ReadRecord | scheme:round-trip |
    source:src/uplift/uplift.cpp (ReadRecord, main), src/EventStreamIO.cpp, src/Event.h

    The bytes of a session file, and the loop that reads them. The writer puts an event down as one
    struct and a string as a header and its text; the reader takes them apart in pieces.

        event     eventType id │ thread parent frame ···· timestamp name value     8 + 32 bytes
        string    eventType id │ length │ text                                    8 + 4 + length
                  ─────────────┘        └ read into stringBuffer[4096]
                  read first; `eventType` says which of the two follows

    The four bytes marked with dots align the timestamp; what they hold is whatever was in memory. -/

namespace Esp.Uplift
open Event Bytes

/-- The bytes of `ProfileEventHeader`. -/
def encodeHeader (h : ProfileEventHeader) : List UInt8 := putU32 h.eventType ++ putU32 h.id

/-- The bytes of `ProfileEventData`, with the padding before the timestamp. -/
def encodeData (pad : UInt32) (d : ProfileEventData) : List UInt8 :=
  putU32 d.threadID ++ (putU32 d.parentEventRef ++ (putU32 d.frameNumber ++ (putU32 pad ++
    (putI64 d.timestamp ++ (putU32 d.eventNameRef ++ putU32 d.value)))))

/-- The bytes the writer emits for a record; an event has padding. -/
def encode (pad : UInt32) : Record → List UInt8
  | .event e => encodeHeader e.header ++ encodeData pad e.data
  | .string id text =>
    encodeHeader ⟨EV_NEW_STRING, id⟩ ++ (putU32 (UInt32.ofNat text.length) ++ text)

/-- The bytes of a session file; each record comes with the padding it was written with. -/
def emit (file : List (Record × UInt32)) : List UInt8 := file.flatMap fun x => encode x.2 x.1

/-! ### The reader -/

/-- A call of the session store. -/
inductive StoreCall where
  | writeEvent (e : ProfileEvent)
  | writeString (id : UInt32) (text : List UInt8)
  deriving DecidableEq, Repr

/-- What one `ReadRecord` does: it stores a record and consumes some bytes, returns `false`, or
    stores past the end of `stringBuffer`. -/
inductive Outcome where
  | stored (call : StoreCall) (consumed : ℕ)
  | refused
  | overrun
  deriving DecidableEq, Repr

def stringBufferSize : ℕ := 4096

/-- `fread` of one object of `size` bytes. -/
def freadOne (size : ℕ) (file : List UInt8) : Option (List UInt8) :=
  if size ≤ file.length then some (file.take size) else none

def decodeHeader (bs : List UInt8) : ProfileEventHeader :=
  ⟨getU32 (bs.take 4), getU32 ((bs.drop 4).take 4)⟩

def decodeData (bs : List UInt8) : ProfileEventData where
  threadID := getU32 (bs.take 4)
  parentEventRef := getU32 ((bs.drop 4).take 4)
  frameNumber := getU32 ((bs.drop 8).take 4)
  timestamp := getI64 ((bs.drop 16).take 8)
  eventNameRef := getU32 ((bs.drop 24).take 4)
  value := getU32 ((bs.drop 28).take 4)

/-- The string a `char` pointer stands for. -/
def cString (bs : List UInt8) : List UInt8 := bs.takeWhile fun b => b ≠ 0

def readRecord (file : List UInt8) : Outcome :=
  match freadOne 8 file with
  | none => .refused
  | some h =>
    let header := decodeHeader h
    let rest := file.drop 8
    if header.eventType = EV_NEW_STRING then
      match freadOne 4 rest with
      | none => .refused
      | some l =>
        let text := (rest.drop 4).take (getU32 l).toNat
        if text.length < stringBufferSize then
          .stored (.writeString header.id (cString text)) (12 + text.length)
        else .overrun
    else
      match freadOne 32 rest with
      | none => .refused
      | some d => .stored (.writeEvent ⟨header, decodeData d⟩) 40

/-- A run of the loop over `ReadRecord`: each call of the store with the bytes its record took, the
    bytes not read, and whether the loop ended by an overrun. -/
structure Reading where
  log : List (StoreCall × ℕ)
  rest : List UInt8
  overrun : Bool
  deriving DecidableEq, Repr

/-- `while (ReadRecord(inFile, &sfs));`, for at most so many rounds. -/
def readLoop : ℕ → List UInt8 → Option Reading
  | 0, _ => none
  | n + 1, file =>
    match readRecord file with
    | .refused => some ⟨[], file, false⟩
    | .overrun => some ⟨[], file, true⟩
    | .stored call k => (readLoop n (file.drop k)).map fun r => { r with log := (call, k) :: r.log }

/-! ### Reading what was written -/

@[simp] theorem length_encodeHeader (h : ProfileEventHeader) : (encodeHeader h).length = 8 := by
  simp [encodeHeader]

@[simp] theorem length_encodeData (pad : UInt32) (d : ProfileEventData) :
    (encodeData pad d).length = 32 := by
  simp [encodeData]

theorem decodeHeader_encodeHeader (h : ProfileEventHeader) : decodeHeader (encodeHeader h) = h := by
  simp [decodeHeader, encodeHeader, List.take_of_length_le]

theorem decodeData_encodeData (pad : UInt32) (d : ProfileEventData) :
    decodeData (encodeData pad d) = d := by
  simp [decodeData, encodeData, List.drop_append, List.drop_of_length_le, List.take_of_length_le]

theorem freadOne_field {f rest : List UInt8} {n : ℕ} (h : f.length = n) :
    freadOne n (f ++ rest) = some f := by
  rw [freadOne, if_pos (by rw [List.length_append]; omega), take_field h]

/-- A NUL-free text is the whole string. -/
theorem cString_eq {text : List UInt8} (h : ∀ b ∈ text, b ≠ 0) : cString text = text := by
  rw [cString, List.takeWhile_eq_self_iff]
  exact fun b hb => decide_eq_true (h b hb)

/-- The records a reader takes whole, whatever their text is made of: an event of another type than
    `EV_NEW_STRING`, or a text that fits `stringBuffer` with its terminating NUL. -/
def Fits : Record → Prop
  | .event e => e.header.eventType ≠ EV_NEW_STRING
  | .string _ text => text.length < stringBufferSize

/-- The call that reading a record back makes: the store sees a text up to its first NUL. -/
def readBack : Record → StoreCall
  | .event e => .writeEvent e
  | .string id text => .writeString id (cString text)

/-- The length of a text that fits is what its length field says. -/
theorem toNat_length {text : List UInt8} (h : text.length < stringBufferSize) :
    (UInt32.ofNat text.length).toNat = text.length := by
  simp only [stringBufferSize] at h
  exact UInt32.toNat_ofNat_of_lt' (by simp only [UInt32.size]; omega)

/-- STEP: `ReadRecord` reads back the record at the front of the file and consumes its bytes. -/
theorem readRecord_front {r : Record} (hr : Fits r) (pad : UInt32) (rest : List UInt8) :
    readRecord (encode pad r ++ rest) = .stored (readBack r) (encode pad r).length := by
  cases r with
  | event e =>
    have hlen : (encode pad (.event e)).length = 40 := by simp [encode]
    rw [hlen, encode, List.append_assoc, readRecord, freadOne_field (length_encodeHeader _)]
    simp only [decodeHeader_encodeHeader, drop_field (length_encodeHeader _)]
    rw [if_neg hr, freadOne_field (length_encodeData _ _)]
    simp only [decodeData_encodeData]
    rfl
  | string id text =>
    have hfit : text.length < stringBufferSize := hr
    have hlen : (encode pad (.string id text)).length = 12 + text.length := by
      simp only [encode, List.length_append, length_encodeHeader, length_putU32]
      omega
    rw [hlen, encode, List.append_assoc, List.append_assoc, readRecord,
      freadOne_field (length_encodeHeader _)]
    simp only [decodeHeader_encodeHeader, drop_field (length_encodeHeader _), if_true,
      freadOne_field (length_putU32 _), getU32_putU32, drop_field (length_putU32 _), toNat_length hfit,
      take_field rfl]
    rw [if_pos hfit]
    rfl

/-- The records the session format is made for: an event of another type than `EV_NEW_STRING`, or a
    NUL-free text that fits `stringBuffer` with its terminating NUL. -/
def Readable : Record → Prop
  | .event e => e.header.eventType ≠ EV_NEW_STRING
  | .string _ text => (∀ b ∈ text, b ≠ 0) ∧ text.length < stringBufferSize

instance : DecidablePred Readable
  | .event e => inferInstanceAs (Decidable (e.header.eventType ≠ EV_NEW_STRING))
  | .string _ text =>
    inferInstanceAs (Decidable ((∀ b ∈ text, b ≠ 0) ∧ text.length < stringBufferSize))

/-- The call of the store that a record asks for. -/
def storeCall : Record → StoreCall
  | .event e => .writeEvent e
  | .string id text => .writeString id text

theorem Readable.fits {r : Record} (hr : Readable r) : Fits r := by
  cases r with
  | event e => exact hr
  | string id text => exact hr.2

theorem Readable.readBack_eq {r : Record} (hr : Readable r) : readBack r = storeCall r := by
  cases r with
  | event e => rfl
  | string id text => rw [readBack, storeCall, cString_eq hr.1]

/-- STEP: `ReadRecord` stores the record at the front of the file and consumes its bytes. -/
theorem readRecord_encode {r : Record} (hr : Readable r) (pad : UInt32) (rest : List UInt8) :
    readRecord (encode pad r ++ rest) = .stored (storeCall r) (encode pad r).length := by
  rw [readRecord_front hr.fits, hr.readBack_eq]

/-- CORRECT: reading a session file makes the call of each record, in order, from exactly its bytes,
    and stops at the end of the file. -/
theorem readLoop_emit {file : List (Record × UInt32)} (hfile : ∀ x ∈ file, Readable x.1)
    {fuel : ℕ} (hfuel : file.length < fuel) :
    readLoop fuel (emit file) =
      some ⟨file.map fun x => (storeCall x.1, (encode x.2 x.1).length), [], false⟩ := by
  induction file generalizing fuel with
  | nil =>
    obtain ⟨n, rfl⟩ := Nat.exists_eq_add_of_lt hfuel
    rfl
  | cons x file ih =>
    obtain ⟨n, rfl⟩ : ∃ n, fuel = n + 1 := ⟨fuel - 1, by omega⟩
    have hrest : readLoop n (emit file) = _ :=
      ih (fun y hy => hfile y (List.mem_cons_of_mem x hy)) (by simpa using hfuel)
    rw [emit, List.flatMap_cons, readLoop,
      readRecord_encode (hfile x List.mem_cons_self), List.map_cons]
    simp only [drop_field]
    rw [← emit, hrest]
    rfl

/-- A session of two events, one with odd padding, and a name between them. -/
def sampleFile : List (Record × UInt32) :=
  [(.event ⟨⟨EV_ZONE_INTERVAL, 2⟩, ⟨0, 1, 7, -1, 0, 30⟩⟩, 0xdeadbeef),
   (.string 0 [102, 111, 111], 0),
   (.event ⟨⟨EV_PROBE_INT, 3⟩, ⟨1, 0, 7, 12345, 0, 0xffffffff⟩⟩, 0)]

theorem readable_sampleFile : ∀ x ∈ sampleFile, Readable x.1 := by
  simp [sampleFile, Readable, stringBufferSize, EV_ZONE_INTERVAL, EV_NEW_STRING, EV_PROBE_INT]

theorem readLoop_emit_sampleFile :
    readLoop 4 (emit sampleFile) =
      some ⟨[(.writeEvent ⟨⟨EV_ZONE_INTERVAL, 2⟩, ⟨0, 1, 7, -1, 0, 30⟩⟩, 40),
        (.writeString 0 [102, 111, 111], 15),
        (.writeEvent ⟨⟨EV_PROBE_INT, 3⟩, ⟨1, 0, 7, 12345, 0, 0xffffffff⟩⟩, 40)], [], false⟩ :=
  readLoop_emit readable_sampleFile (by decide)

/-! ### Any bytes -/

theorem freadOne_some {size : ℕ} {file bs : List UInt8} (h : freadOne size file = some bs) :
    size ≤ file.length := by
  unfold freadOne at h
  split at h
  · assumption
  · cases h

/-- A stored record took a header and more from the file. -/
theorem readRecord_consumes {file : List UInt8} {call : StoreCall} {k : ℕ}
    (h : readRecord file = .stored call k) : 0 < k ∧ k ≤ file.length := by
  unfold readRecord at h
  split at h
  · cases h
  · rename_i hd hhd
    have h8 := freadOne_some hhd
    simp only at h
    split at h
    · split at h
      · cases h
      · rename_i l hl
        have h4 := freadOne_some hl
        split at h
        · cases h
          simp only [List.length_take, List.length_drop] at h4 ⊢
          omega
        · cases h
    · split at h
      · cases h
      · rename_i d hd
        have h32 := freadOne_some hd
        cases h
        simp only [List.length_drop] at h32
        omega

/-- RETURNS: on any bytes the loop ends, since each record shortens what is left. -/
theorem readLoop_returns {fuel : ℕ} {file : List UInt8} (h : file.length < fuel) :
    ∃ r, readLoop fuel file = some r := by
  induction fuel generalizing file with
  | zero => omega
  | succ n ih =>
    rw [readLoop]
    rcases hr : readRecord file with ⟨call, k⟩ | _ | _
    · obtain ⟨hpos, hle⟩ := readRecord_consumes hr
      have hshort : (file.drop k).length < n := by rw [List.length_drop]; omega
      obtain ⟨r, hrest⟩ := ih hshort
      exact ⟨_, by simp only [hrest]; rfl⟩
    · exact ⟨_, rfl⟩
    · exact ⟨_, rfl⟩

end Esp.Uplift
