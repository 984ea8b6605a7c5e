import Libesp.Uplift.ReadRecord

/-! @esp uplift | name:ReadRecord | scheme:round-trip |
    source:src/uplift/uplift.cpp (ReadRecord, main), src/EventStreamIO.cpp (WriteString)

    Where in `stringBuffer` the reader stores. `fread` asks for as many bytes as the length field says
    and gets at most what is left of the file; the NUL goes right after them. Nothing bounds either,
    and the writer emits names of any length, so the buffer holds exactly when no record on the way
    has 4096 bytes of text.

        length field ─┐
                      ├─ min ─▶ text at 0 ··· m-1, NUL at m        in bounds iff m < 4096
        bytes left  ──┘ -/

namespace Esp.Uplift
open Event Bytes

variable {file : List UInt8}

/-- The positions of `stringBuffer` that one `ReadRecord` stores to: the text that `fread` puts there
    and the terminating NUL. -/
def storesTo (file : List UInt8) : List ℕ :=
  match freadOne 8 file with
  | none => []
  | some h =>
    if (decodeHeader h).eventType = EV_NEW_STRING then
      match freadOne 4 (file.drop 8) with
      | none => []
      | some l =>
        let read := (((file.drop 8).drop 4).take (getU32 l).toNat).length
        List.range read ++ [read]
    else []

/-- The positions that the loop over `ReadRecord` stores to; it ends with the first call that stores
    past the end. -/
def loopStores : ℕ → List UInt8 → List ℕ
  | 0, _ => []
  | n + 1, file =>
    storesTo file ++
      match readRecord file with
      | .stored _ k => loopStores n (file.drop k)
      | .refused => []
      | .overrun => []

/-- The bytes of `SerializedStringHeader`. -/
def encodeStringHeader (id length : UInt32) : List UInt8 :=
  encodeHeader ⟨EV_NEW_STRING, id⟩ ++ putU32 length

/-- A file of whole records and then a string with 4096 or more bytes of text in the file. -/
def Oversized (file : List UInt8) : Prop :=
  ∃ (front : List (Record × UInt32)) (id length : UInt32) (tail : List UInt8),
    (∀ x ∈ front, Fits x.1) ∧ file = emit front ++ (encodeStringHeader id length ++ tail) ∧
      stringBufferSize ≤ min length.toNat tail.length

/-! ### A string record at the front -/

theorem encode_string (pad id : UInt32) (text : List UInt8) :
    encode pad (.string id text) = encodeStringHeader id (UInt32.ofNat text.length) ++ text := by
  rw [encode, encodeStringHeader, List.append_assoc]

@[simp] theorem length_encodeStringHeader (id length : UInt32) :
    (encodeStringHeader id length).length = 12 := by
  simp [encodeStringHeader]

/-- STEP: the text read is what the length field asks for, or what is left of the file. -/
theorem readRecord_string (id length : UInt32) (tail : List UInt8) :
    readRecord (encodeStringHeader id length ++ tail) =
      if min length.toNat tail.length < stringBufferSize then
        .stored (.writeString id (cString (tail.take length.toNat)))
          (12 + min length.toNat tail.length)
      else .overrun := by
  rw [encodeStringHeader, List.append_assoc, readRecord, freadOne_field (length_encodeHeader _)]
  simp only [decodeHeader_encodeHeader, drop_field (length_encodeHeader _), if_true,
    freadOne_field (length_putU32 _), getU32_putU32, drop_field (length_putU32 _),
    List.length_take]

theorem storesTo_string (id length : UInt32) (tail : List UInt8) :
    storesTo (encodeStringHeader id length ++ tail) =
      List.range (min length.toNat tail.length) ++ [min length.toNat tail.length] := by
  rw [encodeStringHeader, List.append_assoc, storesTo, freadOne_field (length_encodeHeader _)]
  simp only [decodeHeader_encodeHeader, drop_field (length_encodeHeader _), if_true,
    freadOne_field (length_putU32 _), getU32_putU32, drop_field (length_putU32 _),
    List.length_take]

/-- A text with its NUL is stored in bounds exactly when it is shorter than the buffer. -/
theorem storesTo_string_within (id length : UInt32) (tail : List UInt8) :
    (∀ i ∈ storesTo (encodeStringHeader id length ++ tail), i < stringBufferSize) ↔
      min length.toNat tail.length < stringBufferSize := by
  rw [storesTo_string]
  constructor
  · intro h
    exact h _ (List.mem_append_right _ (List.mem_singleton_self _))
  · intro h i hi
    rcases List.mem_append.mp hi with hi | hi
    · exact (List.mem_range.mp hi).trans h
    · rw [List.mem_singleton.mp hi]
      exact h

/-! ### What the reader meets -/

/-- Eight bytes are put back as an event header. -/
theorem eq_encodeHeader (h : 8 ≤ file.length) :
    file = encodeHeader (decodeHeader (file.take 8)) ++ file.drop 8 := by
  have hid : putU32 (getU32 ((file.drop 4).take 4)) ++ file.drop 8 = file.drop 4 :=
    putU32_at rfl (by omega)
  have htype : putU32 (getU32 (file.take 4)) ++ file.drop 4 = file := putU32_front (by omega)
  rw [encodeHeader, List.append_assoc, decodeHeader, List.take_take, List.drop_take, List.take_take]
  exact (by rw [← hid] at htype; exact htype.symm)

/-- Twelve bytes that announce a string are put back as its header. -/
theorem eq_encodeStringHeader (h : 12 ≤ file.length)
    (hty : (decodeHeader (file.take 8)).eventType = EV_NEW_STRING) :
    ∃ id length tail, file = encodeStringHeader id length ++ tail := by
  have hhead := @eq_encodeHeader file (by omega)
  have hlen : putU32 (getU32 ((file.drop 8).take 4)) ++ file.drop 12 = file.drop 8 :=
    putU32_at rfl (by omega)
  refine ⟨(decodeHeader (file.take 8)).id, getU32 ((file.drop 8).take 4), file.drop 12, ?_⟩
  rw [encodeStringHeader, List.append_assoc, hlen, ← hty]
  exact hhead

/-- Forty bytes that announce an event are put back as that event. -/
theorem eq_encode_event (h : 40 ≤ file.length)
    (hty : (decodeHeader (file.take 8)).eventType ≠ EV_NEW_STRING) :
    ∃ r pad rest, Fits r ∧ file = encode pad r ++ rest := by
  have hhead := @eq_encodeHeader file (by omega)
  refine ⟨.event ⟨decodeHeader (file.take 8), ⟨getU32 ((file.drop 8).take 4),
    getU32 ((file.drop 12).take 4), getU32 ((file.drop 16).take 4), getI64 ((file.drop 24).take 8),
    getU32 ((file.drop 32).take 4), getU32 ((file.drop 36).take 4)⟩⟩,
    getU32 ((file.drop 20).take 4), file.drop 40, hty, ?_⟩
  have hvalue := @putU32_at file 36 40 rfl (by omega)
  have hname := @putU32_at file 32 36 rfl (by omega)
  have hstamp := @putI64_at file 24 32 rfl (by omega)
  have hpad := @putU32_at file 20 24 rfl (by omega)
  have hframe := @putU32_at file 16 20 rfl (by omega)
  have hparent := @putU32_at file 12 16 rfl (by omega)
  have hthread := @putU32_at file 8 12 rfl (by omega)
  simp only [encode, encodeData, List.append_assoc, hvalue, hname, hstamp, hpad, hframe, hparent,
    hthread]
  exact hhead

/-- What the reader meets at the front of a file: too few bytes for a record, a whole record, a
    string that the end of the file cuts short, or one whose text is too long for the buffer. -/
theorem front_cases (file : List UInt8) :
    (readRecord file = .refused ∧ storesTo file = []) ∨
    (∃ r pad rest, Fits r ∧ file = encode pad r ++ rest) ∨
    (∃ id length tail, file = encodeStringHeader id length ++ tail ∧
      tail.length < length.toNat ∧ tail.length < stringBufferSize) ∨
    (∃ id length tail, file = encodeStringHeader id length ++ tail ∧
      stringBufferSize ≤ min length.toNat tail.length) := by
  by_cases h8 : 8 ≤ file.length
  · by_cases hty : (decodeHeader (file.take 8)).eventType = EV_NEW_STRING
    · by_cases h12 : 12 ≤ file.length
      · obtain ⟨id, length, tail, rfl⟩ := eq_encodeStringHeader h12 hty
        refine Or.inr ?_
        by_cases hbig : stringBufferSize ≤ min length.toNat tail.length
        · exact Or.inr (Or.inr ⟨id, length, tail, rfl, hbig⟩)
        · rcases Nat.lt_or_ge tail.length length.toNat with hcut | hwhole
          · exact Or.inr (Or.inl ⟨id, length, tail, rfl, hcut, by omega⟩)
          · refine Or.inl ⟨.string id (tail.take length.toNat), 0, tail.drop length.toNat, ?_, ?_⟩
            · show (tail.take length.toNat).length < stringBufferSize
              rw [List.length_take]
              omega
            · rw [encode_string, List.length_take_of_le hwhole, UInt32.ofNat_toNat,
                List.append_assoc, List.take_append_drop]
      · have h4 : freadOne 4 (file.drop 8) = none := if_neg (by rw [List.length_drop]; omega)
        left
        simp only [readRecord, storesTo, freadOne, if_pos h8, if_pos hty] at h4 ⊢
        simp only [h4, and_self]
    · by_cases h40 : 40 ≤ file.length
      · exact Or.inr (Or.inl (eq_encode_event h40 hty))
      · have h32 : freadOne 32 (file.drop 8) = none := if_neg (by rw [List.length_drop]; omega)
        left
        simp only [readRecord, storesTo, freadOne, if_pos h8, if_neg hty] at h32 ⊢
        simp only [h32, and_self]
  · left
    simp only [readRecord, storesTo, freadOne, if_neg h8, and_self]

/-! ### The loop -/

/-- A record that fits is read in bounds. -/
theorem storesTo_front {r : Record} (hr : Fits r) (pad : UInt32) (rest : List UInt8) :
    ∀ i ∈ storesTo (encode pad r ++ rest), i < stringBufferSize := by
  cases r with
  | event e =>
    intro i hi
    rw [encode, List.append_assoc, storesTo, freadOne_field (length_encodeHeader _)] at hi
    simp only [decodeHeader_encodeHeader] at hi
    rw [if_neg hr] at hi
    cases hi
  | string id text =>
    have hfit : text.length < stringBufferSize := hr
    rw [encode_string, List.append_assoc, storesTo_string_within]
    refine lt_of_le_of_lt (min_le_left _ _) ?_
    rwa [toNat_length hfit]

/-- A round over a record that fits leaves the stores of the rest of the file. -/
theorem loopStores_front {r : Record} (hr : Fits r) (pad : UInt32) (rest : List UInt8) (n : ℕ) :
    (∀ i ∈ loopStores (n + 1) (encode pad r ++ rest), i < stringBufferSize) ↔
      ∀ i ∈ loopStores n rest, i < stringBufferSize := by
  rw [loopStores, readRecord_front hr, List.forall_mem_append]
  simp only [drop_field]
  exact and_iff_right (storesTo_front hr pad rest)

theorem loopStores_nil (n : ℕ) : loopStores n [] = [] := by
  cases n with
  | zero => rfl
  | succ n => rfl

/-- An oversized string behind whole records is reached, and its stores leave the buffer. -/
theorem Oversized.overruns {fuel : ℕ} (h : Oversized file) (hfuel : file.length < fuel) :
    ¬ ∀ i ∈ loopStores fuel file, i < stringBufferSize := by
  obtain ⟨front, id, length, tail, hfits, rfl, hbig⟩ := h
  induction front generalizing fuel with
  | nil =>
    obtain ⟨n, rfl⟩ : ∃ n, fuel = n + 1 := ⟨fuel - 1, by omega⟩
    intro hall
    have hwithin := (storesTo_string_within id length tail).mp fun i hi =>
      hall i (List.mem_append_left _ hi)
    omega
  | cons x front ih =>
    obtain ⟨n, rfl⟩ : ∃ n, fuel = n + 1 := ⟨fuel - 1, by omega⟩
    rw [emit, List.flatMap_cons, ← emit, List.append_assoc] at hfuel ⊢
    rw [loopStores_front (hfits x List.mem_cons_self)]
    have hpos : 0 < (encode x.2 x.1).length := by
      have hread := readRecord_front (hfits x List.mem_cons_self) x.2 []
      exact (readRecord_consumes hread).1
    rw [List.length_append] at hfuel
    exact ih (fun y hy => hfits y (List.mem_cons_of_mem x hy)) (by omega)

/-- A file whose reading leaves the buffer has an oversized string behind whole records. -/
theorem oversized_of_overruns {fuel : ℕ}
    (h : ¬ ∀ i ∈ loopStores fuel file, i < stringBufferSize) : Oversized file := by
  induction fuel generalizing file with
  | zero => exact absurd (fun i hi => by cases hi) h
  | succ n ih =>
    rcases front_cases file with ⟨href, hnone⟩ | ⟨r, pad, rest, hr, rfl⟩ |
      ⟨id, length, tail, rfl, hcut, hshort⟩ | ⟨id, length, tail, rfl, hbig⟩
    · rw [loopStores, href, hnone] at h
      exact absurd (fun i hi => by cases hi) h
    · rw [loopStores_front hr] at h
      obtain ⟨front, id, length, tail, hfits, rfl, hbig⟩ := ih h
      refine ⟨(r, pad) :: front, id, length, tail, ?_, ?_, hbig⟩
      · rintro x (_ | ⟨_, hx⟩)
        · exact hr
        · exact hfits x hx
      · rw [emit, emit, List.flatMap_cons, List.append_assoc]
    · -- the text runs to the end of the file, and the next round finds nothing
      have hmin : min length.toNat tail.length = tail.length := min_eq_right hcut.le
      have hall : (encodeStringHeader id length ++ tail).drop (12 + tail.length) = [] := by
        rw [List.drop_eq_nil_iff, List.length_append, length_encodeStringHeader]
      refine absurd ?_ h
      rw [loopStores, readRecord_string, hmin, if_pos hshort]
      simp only [hall, loopStores_nil, List.append_nil]
      rw [storesTo_string_within, hmin]
      exact hshort
    · exact ⟨[], id, length, tail, List.forall_mem_nil _, rfl, hbig⟩

/-- EXACT: on any bytes the loop ends, and its stores stay within `stringBuffer` exactly when the file
    is not whole records and then a string with 4096 or more bytes of text. -/
theorem withinBuffer_iff {fuel : ℕ} (h : file.length < fuel) :
    (∃ r, readLoop fuel file = some r) ∧
      ((∀ i ∈ loopStores fuel file, i < stringBufferSize) ↔ ¬ Oversized file) := by
  refine ⟨readLoop_returns h, ?_⟩
  constructor
  · intro hwithin hbig
    exact hbig.overruns h hwithin
  · intro hsmall
    by_contra hout
    exact hsmall (oversized_of_overruns hout)

theorem withinBuffer_iff_sampleFile :
    (∃ r, readLoop 96 (emit sampleFile) = some r) ∧
      ((∀ i ∈ loopStores 96 (emit sampleFile), i < stringBufferSize) ↔
        ¬ Oversized (emit sampleFile)) :=
  withinBuffer_iff (by decide)

/-- A name of 4096 bytes, as the writer puts it down. -/
def longName : List (Record × UInt32) := [(.string 0 (List.replicate 4096 97), 0)]

/-- REFUTED: the NUL after a text of 4096 bytes goes one past the end of the buffer. -/
theorem longName_overruns :
    ¬ ∀ i ∈ loopStores 4109 (emit longName), i < stringBufferSize := by
  intro hwithin
  have hfile : emit longName =
      encodeStringHeader 0 (UInt32.ofNat 4096) ++ List.replicate 4096 97 := by
    rw [emit, longName, List.flatMap_singleton, encode_string, List.length_replicate]
  have hmin : min (UInt32.ofNat 4096).toNat (List.replicate 4096 (97 : UInt8)).length = 4096 := by
    rw [List.length_replicate]
    rfl
  rw [hfile] at hwithin
  have hfit := (storesTo_string_within 0 (UInt32.ofNat 4096) (List.replicate 4096 97)).mp
    fun i hi => hwithin i (List.mem_append_left _ hi)
  rw [hmin, stringBufferSize] at hfit
  exact absurd hfit (lt_irrefl 4096)

end Esp.Uplift
