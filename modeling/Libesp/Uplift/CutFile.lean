import Libesp.Uplift.StringBuffer

/-! @esp uplift | name:ReadRecord | scheme:round-trip |
    source:src/uplift/uplift.cpp (ReadRecord), src/EventStreamIO.cpp, src/Event.h

    A session file that ends anywhere. The reader fetches a record in pieces, and a piece that is not
    all there ends the loop; only the text of a name is taken as it comes, however little is left.

        header │ length │ text ······        eventType id │ thread parent ··· value
        ─────── cut ───▶ refused             ───────── cut ──────────────▶ refused
                         └─ cut ─▶ stored short -/

namespace Esp.Uplift
open Event Bytes

/-- The calls of the store that a reading makes. -/
def Reading.calls (r : Reading) : List StoreCall := r.log.map Prod.fst

/-- The records fully inside the first `n` bytes. -/
def inside : ℕ → List (Record × UInt32) → List (Record × UInt32)
  | _, [] => []
  | n, x :: file =>
    if (encode x.2 x.1).length ≤ n then x :: inside (n - (encode x.2 x.1).length) file else []

/-- The first `n` bytes end inside the text of a name: behind its length field, and before the end of
    its text. -/
def CutsText (n : ℕ) (file : List (Record × UInt32)) : Prop :=
  ∃ front id text pad back, file = front ++ (.string id text, pad) :: back ∧
    (emit front).length + 12 ≤ n ∧ n < (emit front).length + 12 + text.length

/-- What the reader stores of a record when the file ends `n` bytes into it. -/
def shortRead (n : ℕ) : Record → List StoreCall
  | .event _ => []
  | .string id text => if 12 ≤ n then [.writeString id (text.take (n - 12))] else []

/-- What the reader stores of the record that the first `n` bytes cut. -/
def cutCalls : ℕ → List (Record × UInt32) → List StoreCall
  | _, [] => []
  | n, x :: file =>
    if (encode x.2 x.1).length ≤ n then cutCalls (n - (encode x.2 x.1).length) file
    else shortRead n x.1

/-! ### A record that is cut -/

theorem length_encode_event (pad : UInt32) (e : ProfileEvent) :
    (encode pad (.event e)).length = 40 := by
  rw [encode, List.length_append, length_encodeHeader, length_encodeData]

theorem length_encode_string (pad id : UInt32) (text : List UInt8) :
    (encode pad (.string id text)).length = 12 + text.length := by
  rw [encode_string, List.length_append, length_encodeStringHeader]

theorem readRecord_short {file : List UInt8} (h : file.length < 8) : readRecord file = .refused := by
  rw [readRecord, freadOne, if_neg (by omega)]

theorem readRecord_nil : readRecord [] = .refused := readRecord_short (by decide)

/-- An event whose data is not all there is refused. -/
theorem readRecord_cut_event {e : ProfileEvent} (he : Readable (.event e)) {pad : UInt32} {n : ℕ}
    (hn : n < 40) : readRecord ((encode pad (.event e)).take n) = .refused := by
  have hlen : ((encode pad (.event e)).take n).length = n :=
    List.length_take_of_le (by rw [length_encode_event]; omega)
  rcases Nat.lt_or_ge n 8 with h8 | h8
  · exact readRecord_short (by omega)
  · have hdata : freadOne 32 ((encodeData pad e.data).take (n - 8)) = none :=
      if_neg (by rw [List.length_take]; omega)
    rw [encode, List.take_append, length_encodeHeader,
      List.take_of_length_le (by rw [length_encodeHeader]; omega), readRecord,
      freadOne_field (length_encodeHeader _)]
    simp only [decodeHeader_encodeHeader, drop_field (length_encodeHeader _)]
    rw [if_neg he, hdata]

/-- A name cut before the end of its length field is refused. -/
theorem readRecord_cut_length {pad id : UInt32} {text : List UInt8} {n : ℕ} (hn : n < 12) :
    readRecord ((encode pad (.string id text)).take n) = .refused := by
  have hlen : ((encode pad (.string id text)).take n).length = n :=
    List.length_take_of_le (by rw [length_encode_string]; omega)
  rcases Nat.lt_or_ge n 8 with h8 | h8
  · exact readRecord_short (by omega)
  · have hfield : ∀ bs : List UInt8, freadOne 4 (bs.take (n - 8)) = none := fun bs =>
      if_neg (by rw [List.length_take]; omega)
    rw [encode, List.take_append, length_encodeHeader,
      List.take_of_length_le (by rw [length_encodeHeader]; omega), readRecord,
      freadOne_field (length_encodeHeader _)]
    simp only [decodeHeader_encodeHeader, drop_field (length_encodeHeader _), if_true, hfield]

/-- A name cut inside its text is stored with the part that is there. -/
theorem readRecord_cut_text {pad id : UInt32} {text : List UInt8} (hr : Readable (.string id text))
    {n : ℕ} (h12 : 12 ≤ n) (hn : n < 12 + text.length) :
    readRecord ((encode pad (.string id text)).take n) =
      .stored (.writeString id (text.take (n - 12))) n := by
  obtain ⟨hnul, hfit⟩ := hr
  have hpart : (text.take (n - 12)).length = n - 12 := List.length_take_of_le (by omega)
  have hwhole : (text.take (n - 12)).take text.length = text.take (n - 12) :=
    List.take_of_length_le (by omega)
  have hc : cString (text.take (n - 12)) = text.take (n - 12) :=
    cString_eq fun b hb => hnul b (List.mem_of_mem_take hb)
  have hmin : min text.length (n - 12) = n - 12 := min_eq_right (by omega)
  have hsum : 12 + (n - 12) = n := by omega
  rw [encode_string, List.take_append, length_encodeStringHeader,
    List.take_of_length_le (by rw [length_encodeStringHeader]; omega), readRecord_string,
    toNat_length hfit, hpart, hmin, if_pos (by omega), hwhole, hc, hsum]

/-- STEP: what the reader does with a record that the file ends inside of. -/
theorem readRecord_cut {r : Record} (hr : Readable r) {pad : UInt32} {n : ℕ}
    (hn : n < (encode pad r).length) :
    (readRecord ((encode pad r).take n) = .refused ∧ shortRead n r = []) ∨
      ∃ call, readRecord ((encode pad r).take n) = .stored call n ∧ shortRead n r = [call] := by
  cases r with
  | event e =>
    rw [length_encode_event] at hn
    exact Or.inl ⟨readRecord_cut_event hr hn, rfl⟩
  | string id text =>
    rw [length_encode_string] at hn
    rcases Nat.lt_or_ge n 12 with h12 | h12
    · exact Or.inl ⟨readRecord_cut_length h12, if_neg (by omega)⟩
    · exact Or.inr ⟨_, readRecord_cut_text hr h12 hn, if_pos h12⟩

/-! ### A file that is cut -/

/-- CORRECT: reading the first `n` bytes makes the calls of the records inside them, and after these
    what is stored of the record that is cut. -/
theorem readLoop_take {file : List (Record × UInt32)} (hfile : ∀ x ∈ file, Readable x.1) (n : ℕ)
    {fuel : ℕ} (hfuel : file.length < fuel) :
    ∃ r, readLoop fuel ((emit file).take n) = some r ∧
      r.calls = (inside n file).map (fun x => storeCall x.1) ++ cutCalls n file := by
  induction file generalizing n fuel with
  | nil =>
    obtain ⟨m, rfl⟩ := Nat.exists_eq_add_of_lt hfuel
    exact ⟨⟨[], [], false⟩, by rw [emit, List.flatMap_nil, List.take_nil]; rfl, rfl⟩
  | cons x file ih =>
    obtain ⟨m, rfl⟩ : ∃ m, fuel = m + 1 := ⟨fuel - 1, by omega⟩
    have hx := hfile x List.mem_cons_self
    have hm : file.length < m := by simpa using hfuel
    rw [emit, List.flatMap_cons, ← emit, inside, cutCalls]
    by_cases hin : (encode x.2 x.1).length ≤ n
    · obtain ⟨r, hr, hcalls⟩ :=
        ih (fun y hy => hfile y (List.mem_cons_of_mem x hy)) (n - (encode x.2 x.1).length) hm
      refine ⟨{ r with log := (storeCall x.1, (encode x.2 x.1).length) :: r.log }, ?_, ?_⟩
      · rw [List.take_append, List.take_of_length_le hin, readLoop, readRecord_encode hx]
        simp only [drop_field, hr, Option.map_some]
      · rw [if_pos hin, if_pos hin, List.map_cons, List.cons_append, ← hcalls]
        rfl
    · have hcut : n < (encode x.2 x.1).length := by omega
      have hbytes : (encode x.2 x.1 ++ emit file).take n = (encode x.2 x.1).take n :=
        List.take_append_of_le_length hcut.le
      rw [hbytes, if_neg hin, if_neg hin, readLoop]
      rcases readRecord_cut hx hcut with ⟨href, hnone⟩ | ⟨call, hstored, hone⟩
      · rw [href, hnone]
        exact ⟨_, rfl, rfl⟩
      · obtain ⟨m', rfl⟩ : ∃ m', m = m' + 1 := ⟨m - 1, by omega⟩
        have hend : ((encode x.2 x.1).take n).drop n = [] := by
          rw [List.drop_eq_nil_iff, List.length_take]
          omega
        rw [hstored, hone]
        simp only [hend, readLoop, readRecord_nil]
        exact ⟨_, rfl, rfl⟩

/-! ### Where the cut falls -/

theorem length_emit_cons (x : Record × UInt32) (file : List (Record × UInt32)) :
    (emit (x :: file)).length = (encode x.2 x.1).length + (emit file).length := by
  rw [emit, List.flatMap_cons, List.length_append, emit]

variable {n : ℕ} {x : Record × UInt32} {file : List (Record × UInt32)}

/-- Behind a whole record the cut falls in the rest of the file. -/
theorem cutsText_cons_inside (hin : (encode x.2 x.1).length ≤ n) :
    CutsText n (x :: file) ↔ CutsText (n - (encode x.2 x.1).length) file := by
  constructor
  · rintro ⟨_ | ⟨y, front⟩, id, text, pad, back, hfile, hlo, hhi⟩
    · obtain ⟨rfl, rfl⟩ := List.cons.inj hfile
      rw [length_encode_string] at hin
      exact absurd (hin.trans_lt hhi) (by rw [emit, List.flatMap_nil, List.length_nil]; omega)
    · obtain ⟨rfl, rfl⟩ := List.cons.inj hfile
      rw [length_emit_cons] at hlo hhi
      exact ⟨front, id, text, pad, back, rfl, by omega, by omega⟩
  · rintro ⟨front, id, text, pad, back, rfl, hlo, hhi⟩
    refine ⟨x :: front, id, text, pad, back, rfl, ?_, ?_⟩
    · rw [length_emit_cons]
      omega
    · rw [length_emit_cons]
      omega

/-- A cut inside the first record is inside its text, or nothing of the record is stored. -/
theorem cutsText_cons_cut (hcut : n < (encode x.2 x.1).length) :
    CutsText n (x :: file) ↔ shortRead n x.1 ≠ [] := by
  constructor
  · rintro ⟨_ | ⟨y, front⟩, id, text, pad, back, hfile, hlo, hhi⟩
    · obtain ⟨rfl, rfl⟩ := List.cons.inj hfile
      rw [emit, List.flatMap_nil, List.length_nil] at hlo
      rw [shortRead, if_pos (by omega)]
      exact List.cons_ne_nil _ _
    · obtain ⟨rfl, rfl⟩ := List.cons.inj hfile
      rw [length_emit_cons] at hlo
      omega
  · intro hshort
    obtain ⟨r, pad⟩ := x
    cases r with
    | event e => exact absurd rfl hshort
    | string id text =>
      have h12 : 12 ≤ n := by
        by_contra hlt
        exact hshort (if_neg hlt)
      rw [length_encode_string] at hcut
      refine ⟨[], id, text, pad, file, rfl, ?_, ?_⟩
      · rw [emit, List.flatMap_nil, List.length_nil]
        omega
      · rw [emit, List.flatMap_nil, List.length_nil]
        omega

/-- Something of the cut record is stored exactly when the cut is inside a text. -/
theorem cutCalls_eq_nil (n : ℕ) (file : List (Record × UInt32)) :
    cutCalls n file = [] ↔ ¬ CutsText n file := by
  induction file generalizing n with
  | nil =>
    refine iff_of_true rfl ?_
    rintro ⟨front, id, text, pad, back, hfile, -⟩
    exact List.append_ne_nil_of_right_ne_nil front (List.cons_ne_nil _ back) hfile.symm
  | cons x file ih =>
    rw [cutCalls]
    by_cases hin : (encode x.2 x.1).length ≤ n
    · rw [if_pos hin, cutsText_cons_inside hin]
      exact ih _
    · rw [if_neg hin, cutsText_cons_cut (by omega), not_ne_iff]

theorem inside_initial (n : ℕ) (file : List (Record × UInt32)) : inside n file <+: file := by
  induction file generalizing n with
  | nil => exact List.prefix_refl []
  | cons x file ih =>
    rw [inside]
    by_cases hin : (encode x.2 x.1).length ≤ n
    · rw [if_pos hin]
      exact (List.prefix_cons_inj x).mpr (ih _)
    · rw [if_neg hin]
      exact List.nil_prefix

/-- EXACT: the first `n` bytes of a session read as a prefix of it, each record inside them stored
    and a cut record not at all, exactly when they do not end inside the text of a name. -/
theorem cutFile_iff (hfile : ∀ x ∈ file, Readable x.1) (n : ℕ) {fuel : ℕ}
    (hfuel : file.length < fuel) :
    ∃ w r, readLoop fuel (emit file) = some w ∧ readLoop fuel ((emit file).take n) = some r ∧
      ((r.calls <+: w.calls ∧ r.calls = (inside n file).map fun x => storeCall x.1) ↔
        ¬ CutsText n file) := by
  have hwhole := readLoop_emit hfile hfuel
  obtain ⟨r, hr, hcalls⟩ := readLoop_take hfile n hfuel
  refine ⟨_, r, hwhole, hr, ?_⟩
  rw [← cutCalls_eq_nil, hcalls]
  constructor
  · rintro ⟨-, hsame⟩
    exact List.append_right_eq_self.mp hsame
  · intro hnil
    rw [hnil, List.append_nil]
    refine ⟨?_, rfl⟩
    have hprefix := (inside_initial n file).map fun x => storeCall x.1
    rwa [Reading.calls, List.map_map]

/-- `sampleFile` cut in the length field of its name. -/
theorem cutFile_iff_sampleFile :
    ∃ w r, readLoop 4 (emit sampleFile) = some w ∧
      readLoop 4 ((emit sampleFile).take 50) = some r ∧
      ((r.calls <+: w.calls ∧ r.calls = (inside 50 sampleFile).map fun x => storeCall x.1) ↔
        ¬ CutsText 50 sampleFile) :=
  cutFile_iff readable_sampleFile 50 (by decide)

/-- REFUTED: `sampleFile` cut one byte into its name `foo` stores the name `f`. -/
theorem sampleFile_cutText : ∃ w r : Reading, readLoop 4 (emit sampleFile) = some w ∧
    readLoop 4 ((emit sampleFile).take 53) = some r ∧ ¬ r.calls <+: w.calls := by
  refine ⟨_, _, rfl, rfl, ?_⟩
  decide

end Esp.Uplift
