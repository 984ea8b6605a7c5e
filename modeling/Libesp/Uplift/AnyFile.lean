import Libesp.Uplift.FileStore
import Libesp.Uplift.StringBuffer

/-! @esp uplift | name:esp_uplift | scheme:round-trip |
    source:src/uplift/uplift.cpp (main, ReadRecord), src/uplift/FileStore.cpp,
    src/EventStreamIO.cpp (WriteEvent, WriteString)

    A file that no writer need have written. Its bytes are, in exactly one way, the records of some
    writer and one of three endings, and the reader goes by just these.

        record │ record │ ··· │ record │  short       too few bytes for a record: not looked at
                                       ├─ cut         a string with the end of the file in its text
                                       └  oversized   a string with more text than `stringBuffer`

    So whatever is uplifted, the rows are those of well formed records, and putting the records down
    again gives the bytes they came from. -/

namespace Esp.Uplift
open Event Bytes Keyed

/-- Too few bytes for the record that the header announces. -/
def TooShort (rest : List UInt8) : Prop :=
  rest.length < if (decodeHeader (rest.take 8)).eventType = EV_NEW_STRING then 12 else 40

instance : DecidablePred TooShort := fun _ => inferInstanceAs (Decidable (_ < _))

/-- What is left behind the last whole record. -/
inductive Ending where
  | short (rest : List UInt8)
  | cut (id length : UInt32) (text : List UInt8)
  | oversized (id length : UInt32) (tail : List UInt8)

def Ending.bytes : Ending → List UInt8
  | .short rest => rest
  | .cut id length text => encodeStringHeader id length ++ text
  | .oversized id length tail => encodeStringHeader id length ++ tail

def Ending.WellFormed : Ending → Prop
  | .short rest => TooShort rest
  | .cut _ length text => text.length < length.toNat ∧ text.length < stringBufferSize
  | .oversized _ length tail => stringBufferSize ≤ min length.toNat tail.length

/-- How the loop goes on from there. -/
def Ending.reading : Ending → Reading
  | .short rest => ⟨[], rest, false⟩
  | .cut id _ text => ⟨[(.writeString id (cString text), 12 + text.length)], [], false⟩
  | .oversized id length tail => ⟨[], encodeStringHeader id length ++ tail, true⟩

/-- A record as some writer puts it down: the reader takes it whole, and only an event has padding. -/
def Written : Record × UInt32 → Prop
  | (.event e, _) => Fits (.event e)
  | (.string id text, pad) => Fits (.string id text) ∧ pad = 0

/-- Records and an ending. -/
@[ext] structure Parse where
  front : List (Record × UInt32)
  ending : Ending
  written : ∀ x ∈ front, Written x
  ends : ending.WellFormed

def Parse.bytes (p : Parse) : List UInt8 := emit p.front ++ p.ending.bytes

/-- The loop over a file that is parsed so. -/
def Parse.reading (p : Parse) : Reading where
  log := (p.front.map fun x => (readBack x.1, (encode x.2 x.1).length)) ++ p.ending.reading.log
  rest := p.ending.reading.rest
  overrun := p.ending.reading.overrun

/-- The record that a call of the store is for. -/
def recordOf : StoreCall → Record
  | .writeEvent e => .event e
  | .writeString id text => .string id text

/-- The records that the store is told of. -/
def Parse.records (p : Parse) : List Record := p.reading.log.map fun x => recordOf x.1

theorem Written.fits {x : Record × UInt32} (hx : Written x) : Fits x.1 := by
  rcases x with ⟨_ | _, pad⟩
  · exact hx
  · exact hx.1

/-! ### The loop follows the parse -/

theorem readRecord_tooShort {rest : List UInt8} (h : TooShort rest) : readRecord rest = .refused := by
  unfold TooShort at h
  by_cases h8 : 8 ≤ rest.length
  · by_cases hty : (decodeHeader (rest.take 8)).eventType = EV_NEW_STRING
    · rw [if_pos hty] at h
      have h4 : freadOne 4 (rest.drop 8) = none := if_neg (by rw [List.length_drop]; omega)
      simp only [readRecord, freadOne, if_pos h8, if_pos hty] at h4 ⊢
      simp only [h4]
    · rw [if_neg hty] at h
      have h32 : freadOne 32 (rest.drop 8) = none := if_neg (by rw [List.length_drop]; omega)
      simp only [readRecord, freadOne, if_pos h8, if_neg hty] at h32 ⊢
      simp only [h32]
  · simp only [readRecord, freadOne, if_neg h8]

theorem readRecord_cutString {id length : UInt32} {text : List UInt8}
    (h : (Ending.cut id length text).WellFormed) :
    readRecord (encodeStringHeader id length ++ text) =
      .stored (.writeString id (cString text)) (12 + text.length) := by
  obtain ⟨hcut, hshort⟩ := h
  rw [readRecord_string, min_eq_right hcut.le, if_pos hshort, List.take_of_length_le hcut.le]

theorem readRecord_oversized {id length : UInt32} {tail : List UInt8}
    (h : (Ending.oversized id length tail).WellFormed) :
    readRecord (encodeStringHeader id length ++ tail) = .overrun := by
  rw [readRecord_string, if_neg (not_lt.mpr h)]

/-- STEP: the loop at the ending. -/
theorem readLoop_ending {e : Ending} (he : e.WellFormed) {fuel : ℕ} (h : e.bytes.length < fuel) :
    readLoop fuel e.bytes = some e.reading := by
  obtain ⟨n, rfl⟩ : ∃ n, fuel = n + 1 := ⟨fuel - 1, by omega⟩
  cases e with
  | short rest =>
    rw [Ending.bytes, readLoop, readRecord_tooShort he]
    rfl
  | cut id length text =>
    -- the text is stored as far as it goes, and the next round finds nothing
    rw [Ending.bytes, List.length_append, length_encodeStringHeader] at h
    obtain ⟨m, rfl⟩ : ∃ m, n = m + 1 := ⟨n - 1, by omega⟩
    have hall : (encodeStringHeader id length ++ text).drop (12 + text.length) = [] := by
      rw [List.drop_eq_nil_iff, List.length_append, length_encodeStringHeader]
    have hnil : readRecord [] = .refused := readRecord_tooShort (by decide)
    rw [Ending.bytes, readLoop, readRecord_cutString he]
    simp only [hall, readLoop, hnil]
    rfl
  | oversized id length tail =>
    rw [Ending.bytes, readLoop, readRecord_oversized he]
    rfl

/-- RUN: records in front are taken one a round. -/
theorem readLoop_front {front : List (Record × UInt32)} (hfront : ∀ x ∈ front, Written x)
    {e : Ending} (he : e.WellFormed) {fuel : ℕ} (h : (emit front ++ e.bytes).length < fuel) :
    readLoop fuel (emit front ++ e.bytes) =
      some { e.reading with
        log := (front.map fun x => (readBack x.1, (encode x.2 x.1).length)) ++ e.reading.log } := by
  induction front generalizing fuel with
  | nil => exact readLoop_ending he h
  | cons x front ih =>
    obtain ⟨n, rfl⟩ : ∃ n, fuel = n + 1 := ⟨fuel - 1, by omega⟩
    have hread := readRecord_front (hfront x List.mem_cons_self).fits x.2 (emit front ++ e.bytes)
    obtain ⟨hpos, -⟩ := readRecord_consumes hread
    rw [emit, List.flatMap_cons, ← emit, List.append_assoc] at h ⊢
    rw [List.length_append] at h
    have hrest := ih (fun y hy => hfront y (List.mem_cons_of_mem x hy)) (by omega : _ < n)
    rw [readLoop, hread]
    simp only [drop_field, hrest]
    rfl

/-! ### Every file has a parse -/

/-- Records are put down again as they were read, without regard to a padding they do not have. -/
theorem exists_written {r : Record} (hr : Fits r) (pad : UInt32) :
    ∃ x, Written x ∧ encode x.2 x.1 = encode pad r := by
  cases r with
  | event e => exact ⟨(.event e, pad), hr, rfl⟩
  | string id text => exact ⟨(.string id text, 0), ⟨hr, rfl⟩, rfl⟩

/-- What the reader refuses is too short. -/
theorem tooShort_of_refused {file : List UInt8} (h : readRecord file = .refused) :
    TooShort file := by
  by_contra hlong
  unfold TooShort at hlong
  have h8 : 8 ≤ file.length := by
    split at hlong <;> omega
  by_cases hty : (decodeHeader (file.take 8)).eventType = EV_NEW_STRING
  · rw [if_pos hty] at hlong
    obtain ⟨id, length, tail, rfl⟩ := eq_encodeStringHeader (by omega) hty
    rw [readRecord_string] at h
    split at h <;> cases h
  · rw [if_neg hty] at hlong
    obtain ⟨r, pad, rest, hr, rfl⟩ := eq_encode_event (by omega) hty
    rw [readRecord_front hr] at h
    cases h

theorem exists_parse (file : List UInt8) : ∃ p : Parse, p.bytes = file := by
  induction hn : file.length using Nat.strong_induction_on generalizing file with
  | _ n ih =>
    rcases front_cases file with ⟨href, -⟩ | ⟨r, pad, rest, hr, rfl⟩ |
      ⟨id, length, text, rfl, hcut⟩ | ⟨id, length, tail, rfl, hbig⟩
    · exact ⟨⟨[], .short file, List.forall_mem_nil _, tooShort_of_refused href⟩, rfl⟩
    · obtain ⟨hpos, -⟩ := readRecord_consumes (readRecord_front hr pad rest)
      rw [List.length_append] at hn
      obtain ⟨p, hp⟩ := ih rest.length (by omega) rest rfl
      obtain ⟨x, hx, hbytes⟩ := exists_written hr pad
      refine ⟨⟨x :: p.front, p.ending, List.forall_mem_cons.mpr ⟨hx, p.written⟩, p.ends⟩, ?_⟩
      rw [Parse.bytes] at hp
      rw [Parse.bytes, emit, List.flatMap_cons, ← emit, List.append_assoc, hp, hbytes]
    · exact ⟨⟨[], .cut id length text, List.forall_mem_nil _, hcut⟩, rfl⟩
    · exact ⟨⟨[], .oversized id length tail, List.forall_mem_nil _, hbig⟩, rfl⟩

/-! ### and no other -/

theorem encodeHeader_injective : Function.Injective encodeHeader := fun h h' heq => by
  rw [← decodeHeader_encodeHeader h, heq, decodeHeader_encodeHeader]

theorem putU32_injective : Function.Injective putU32 := fun v v' heq => by
  rw [← getU32_putU32 v, heq, getU32_putU32]

/-- The header of a string is self-delimiting. -/
theorem encodeStringHeader_append_inj {id length id' length' : UInt32} {s t : List UInt8}
    (h : encodeStringHeader id length ++ s = encodeStringHeader id' length' ++ t) :
    id = id' ∧ length = length' ∧ s = t := by
  obtain ⟨hheader, hst⟩ := List.append_inj h (by simp only [length_encodeStringHeader])
  rw [encodeStringHeader, encodeStringHeader] at hheader
  obtain ⟨hid, hlength⟩ := List.append_inj hheader (by simp only [length_encodeHeader])
  have hids := encodeHeader_injective hid
  rw [ProfileEventHeader.mk.injEq] at hids
  exact ⟨hids.2, putU32_injective hlength, hst⟩

/-- Records are self-delimiting. -/
theorem encode_append_inj {x y : Record × UInt32} (hx : Written x) (hy : Written y)
    {s t : List UInt8} (h : encode x.2 x.1 ++ s = encode y.2 y.1 ++ t) : x = y ∧ s = t := by
  have hread := (readRecord_front hx.fits x.2 s).symm.trans
    ((congrArg readRecord h).trans (readRecord_front hy.fits y.2 t))
  rw [Outcome.stored.injEq] at hread
  obtain ⟨hcall, hlen⟩ := hread
  obtain ⟨hbytes, hst⟩ := List.append_inj h hlen
  refine ⟨?_, hst⟩
  rcases x with ⟨e | ⟨id, text⟩, pad⟩ <;> rcases y with ⟨e' | ⟨id', text'⟩, pad'⟩
  · rw [readBack, readBack, StoreCall.writeEvent.injEq] at hcall
    subst hcall
    simp only [encode, encodeData, List.append_cancel_left_eq, List.append_cancel_right_eq] at hbytes
    rw [putU32_injective hbytes]
  · cases hcall
  · cases hcall
  · obtain ⟨-, rfl⟩ := hx
    obtain ⟨-, rfl⟩ := hy
    rw [encode_string, encode_string] at hbytes
    obtain ⟨rfl, -, rfl⟩ := encodeStringHeader_append_inj hbytes
    rfl

/-- An ending does not begin with a record. -/
theorem ending_ne_record {e : Ending} (he : e.WellFormed) {r : Record} (hr : Fits r) (pad : UInt32)
    (rest : List UInt8) : e.bytes ≠ encode pad r ++ rest := by
  intro h
  have hread := (congrArg readRecord h).trans (readRecord_front hr pad rest)
  cases e with
  | short bs =>
    rw [Ending.bytes, readRecord_tooShort he] at hread
    cases hread
  | oversized id length tail =>
    rw [Ending.bytes, readRecord_oversized he] at hread
    cases hread
  | cut id length text =>
    rw [Ending.bytes, readRecord_cutString he, Outcome.stored.injEq] at hread
    obtain ⟨hcall, hlen⟩ := hread
    cases r with
    | event e => cases hcall
    | string id' text' =>
      -- the length field says more than the text has, and of a record no more
      have hfit : text'.length < stringBufferSize := hr
      rw [Ending.bytes, encode_string, List.append_assoc] at h
      obtain ⟨-, rfl, -⟩ := encodeStringHeader_append_inj h
      rw [encode_string, List.length_append, length_encodeStringHeader] at hlen
      have hcut := he.1
      rw [toNat_length hfit] at hcut
      omega

theorem ending_inj {e e' : Ending} (he : e.WellFormed) (he' : e'.WellFormed)
    (h : e.bytes = e'.bytes) : e = e' := by
  have hread := congrArg readRecord h
  cases e with
  | short bs =>
    rw [Ending.bytes, readRecord_tooShort he] at hread
    cases e' with
    | short bs' => exact congrArg Ending.short h
    | cut id length text =>
      rw [Ending.bytes, readRecord_cutString he'] at hread
      cases hread
    | oversized id length tail =>
      rw [Ending.bytes, readRecord_oversized he'] at hread
      cases hread
  | cut id length text =>
    rw [Ending.bytes, readRecord_cutString he] at hread
    cases e' with
    | short bs =>
      rw [Ending.bytes, readRecord_tooShort he'] at hread
      cases hread
    | cut id' length' text' =>
      obtain ⟨rfl, rfl, rfl⟩ := encodeStringHeader_append_inj h
      rfl
    | oversized id' length' tail =>
      rw [Ending.bytes, readRecord_oversized he'] at hread
      cases hread
  | oversized id length tail =>
    rw [Ending.bytes, readRecord_oversized he] at hread
    cases e' with
    | short bs =>
      rw [Ending.bytes, readRecord_tooShort he'] at hread
      cases hread
    | cut id' length' text =>
      rw [Ending.bytes, readRecord_cutString he'] at hread
      cases hread
    | oversized id' length' tail' =>
      obtain ⟨rfl, rfl, rfl⟩ := encodeStringHeader_append_inj h
      rfl

/-- The front and the ending of a file are what they are. -/
theorem emit_append_inj {front front' : List (Record × UInt32)} (hfront : ∀ x ∈ front, Written x)
    (hfront' : ∀ x ∈ front', Written x) {e e' : Ending} (he : e.WellFormed) (he' : e'.WellFormed)
    (h : emit front ++ e.bytes = emit front' ++ e'.bytes) : front = front' ∧ e = e' := by
  induction front generalizing front' with
  | nil =>
    cases front' with
    | nil => exact ⟨rfl, ending_inj he he' h⟩
    | cons y front' =>
      rw [emit, List.flatMap_nil, List.nil_append, emit, List.flatMap_cons, List.append_assoc] at h
      exact absurd h (ending_ne_record he (hfront' y List.mem_cons_self).fits y.2 _)
  | cons x front ih =>
    cases front' with
    | nil =>
      rw [emit, emit, List.flatMap_nil, List.nil_append, List.flatMap_cons, List.append_assoc] at h
      exact absurd h.symm (ending_ne_record he' (hfront x List.mem_cons_self).fits x.2 _)
    | cons y front' =>
      rw [emit, emit, List.flatMap_cons, List.flatMap_cons, ← emit, ← emit, List.append_assoc,
        List.append_assoc] at h
      obtain ⟨rfl, hrest⟩ :=
        encode_append_inj (hfront x List.mem_cons_self) (hfront' y List.mem_cons_self) h
      obtain ⟨rfl, rfl⟩ := ih (fun z hz => hfront z (List.mem_cons_of_mem x hz))
        (fun z hz => hfront' z (List.mem_cons_of_mem x hz)) hrest
      exact ⟨rfl, rfl⟩

theorem Parse.bytes_injective : Function.Injective Parse.bytes := fun p q h => by
  obtain ⟨hfront, hending⟩ := emit_append_inj p.written q.written p.ends q.ends h
  exact Parse.ext hfront hending

/-! ### The tables -/

variable {Db : Type} {sq : Sqlite Db}

theorem storeCall_recordOf (call : StoreCall) : storeCall (recordOf call) = call := by
  cases call with
  | writeEvent e => rfl
  | writeString id text => rfl

theorem Parse.calls (p : Parse) : p.reading.log.map Prod.fst = p.records.map storeCall := by
  rw [Parse.records, List.map_map]
  exact List.map_congr_left fun x _ => (storeCall_recordOf x.1).symm

/-- The calls of a file that is read to an end fill the tables. -/
theorem Parse.uplift_some (p : Parse) (hsq : Documented sq) (path : Option Db) {fuel : ℕ}
    (h : p.bytes.length < fuel) (hend : p.reading.overrun = false) :
    ∃ db, uplift sq fuel path p.bytes = some db ∧ sq.tables db =
      ⟨some (insertAll EventRow.eventId ((leftAt sq path).events.getD ∅) (eventRows p.records)),
        some (insertAll StringRow.stringId ((leftAt sq path).strings.getD ∅)
          (stringRows p.records))⟩ := by
  have hbegin : sq.tables (sq.run (initializeStore sq path).2 .beginTransaction).2 = _ :=
    (hsq.run_tables _ _).trans (tables_initializeStore hsq path)
  obtain ⟨db, hrun, htables⟩ := storeInto_records hsq (by omega : 0 < fuel) p.records hbegin
  have hread : readLoop fuel p.bytes = some p.reading := readLoop_front p.written p.ends h
  refine ⟨(sq.run db .commitTransaction).2, ?_, (hsq.run_tables _ _).trans htables⟩
  rw [uplift, hread, Option.bind_some, hend, if_neg Bool.false_ne_true, p.calls, hrun,
    Option.map_some]

/-- CORRECT: any bytes are, in one way only, records and an ending; the reader makes the calls of these,
    runs past its buffer exactly where the ending is an oversized string, and leaves the tables that
    are at the path with the rows of these records inserted. -/
theorem uplift_parsed (hsq : Documented sq) (path : Option Db) {file : List UInt8} {fuel : ℕ}
    (h : file.length < fuel) :
    ∃ p : Parse, (p.bytes = file ∧ ∀ q : Parse, q.bytes = file → q = p) ∧
      readLoop fuel file = some p.reading ∧
      (uplift sq fuel path file = none ↔ p.reading.overrun = true) ∧
      ∀ db, uplift sq fuel path file = some db → sq.tables db =
        ⟨some (insertAll EventRow.eventId ((leftAt sq path).events.getD ∅) (eventRows p.records)),
          some (insertAll StringRow.stringId ((leftAt sq path).strings.getD ∅)
            (stringRows p.records))⟩ := by
  obtain ⟨p, rfl⟩ := exists_parse file
  have hread : readLoop fuel p.bytes = some p.reading := readLoop_front p.written p.ends h
  refine ⟨p, ⟨rfl, fun q hq => Parse.bytes_injective hq⟩, hread, ?_⟩
  cases hover : p.reading.overrun with
  | true =>
    have hnone : uplift sq fuel path p.bytes = none := by
      rw [uplift, hread, Option.bind_some, hover, if_pos rfl]
    refine ⟨⟨fun _ => rfl, fun _ => hnone⟩, fun db hdb => ?_⟩
    rw [hnone] at hdb
    cases hdb
  | false =>
    obtain ⟨db, hdb, htables⟩ := p.uplift_some hsq path h hover
    refine ⟨⟨fun hnone => ?_, fun hfalse => by cases hfalse⟩, fun db' hdb' => ?_⟩
    · rw [hnone] at hdb
      cases hdb
    · obtain rfl := Option.some.inj (hdb.symm.trans hdb')
      exact htables

/-- A session with three more bytes behind it. -/
def oneSampleMore : Parse where
  front := oneSample 5
  ending := .short [1, 2, 3]
  written := by
    simp [oneSample, Written, Fits, stringBufferSize, EV_NEW_STRING, EV_PROBE_UINT]
  ends := (by decide : TooShort [1, 2, 3])

theorem uplift_parsed_oneSampleMore : ∃ db,
    uplift plainSqlite 57 none (emit (oneSample 5) ++ [1, 2, 3]) = some db ∧
      HoldsExactly db ((oneSample 5).map Prod.fst) := by
  obtain ⟨p, ⟨-, honly⟩, -, hnone, hdb⟩ := uplift_parsed documented_plainSqlite none
    (by decide : (emit (oneSample 5) ++ [1, 2, 3]).length < 57)
  obtain rfl := honly oneSampleMore rfl
  obtain ⟨db, hsome⟩ := Option.ne_none_iff_exists'.mp fun h => by cases hnone.mp h
  refine ⟨db, hsome, ?_⟩
  obtain rfl : db = _ := hdb db hsome
  exact ⟨by decide, by decide⟩

end Esp.Uplift
