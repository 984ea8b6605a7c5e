import Libesp.Schemes.Machine
import Libesp.Uplift.CutFile
import Libesp.Uplift.FileStore

/-! @esp uplift | name:esp_uplift | scheme:fold |
    source:src/uplift/uplift.cpp (main, ReadRecord), src/uplift/FileStore.cpp

    A session looked at while it is recorded. The file is uplifted again and again, each time with the
    bytes it has by then, always into the database beside it, and once more when it is complete.

        bytes     ├──────┤          ├───────────┤       ├──────────────┤ all
        uplift       1                    2                    3          4
        tables    ∅ ─▶ rows of 1 ─▶ rows of 2 ─▶ rows of 3 ─▶ the session?

    A row that is there already is refused, which does no harm, unless it was the row of a name whose
    text was cut: then the name stays cut. -/

namespace Esp.Uplift
open Event Keyed Machine

variable {Db : Type} (sq : Sqlite Db)

/-- An uplift of the first `n` bytes of the file into what is at the path. -/
def upliftFirst (fuel : ℕ) (inFile : List UInt8) (path : Option Db) (n : ℕ) : Option (Option Db) :=
  (uplift sq fuel path (inFile.take n)).map some

variable {sq} {file : List (Record × UInt32)} {n m : ℕ}

/-! ### The records of a cut file -/

/-- A reader of the first bytes of a session stays in its buffer. -/
theorem readLoop_take_within (hfile : ∀ x ∈ file, Readable x.1) (n : ℕ) {fuel : ℕ} {r : Reading}
    (hr : readLoop fuel ((emit file).take n) = some r) : r.overrun = false := by
  induction file generalizing n fuel r with
  | nil =>
    rw [emit, List.flatMap_nil, List.take_nil] at hr
    cases fuel with
    | zero => cases hr
    | succ fuel =>
      obtain rfl := Option.some.inj hr
      rfl
  | cons x file ih =>
    cases fuel with
    | zero => cases hr
    | succ fuel =>
      have hx := hfile x List.mem_cons_self
      rw [emit, List.flatMap_cons, ← emit] at hr
      by_cases hin : (encode x.2 x.1).length ≤ n
      · rw [List.take_append, List.take_of_length_le hin, readLoop, readRecord_encode hx] at hr
        simp only [Bytes.drop_field] at hr
        obtain ⟨r', hr', rfl⟩ := Option.map_eq_some_iff.mp hr
        have hrest := ih (fun y hy => hfile y (List.mem_cons_of_mem x hy)) _ hr'
        exact hrest
      · have hcut : n < (encode x.2 x.1).length := by omega
        rw [List.take_append_of_le_length hcut.le, readLoop] at hr
        rcases readRecord_cut hx hcut with ⟨href, -⟩ | ⟨call, hstored, -⟩
        · rw [href] at hr
          obtain rfl := Option.some.inj hr
          rfl
        · have hend : ((encode x.2 x.1).take n).drop n = [] := by
            rw [List.drop_eq_nil_iff, List.length_take]
            omega
          rw [hstored] at hr
          simp only [hend] at hr
          obtain ⟨r', hr', rfl⟩ := Option.map_eq_some_iff.mp hr
          cases fuel with
          | zero => cases hr'
          | succ fuel =>
            rw [readLoop, readRecord_nil] at hr'
            obtain rfl := Option.some.inj hr'
            rfl

/-- The first `n` bytes end inside the text of the name with this id. -/
def CutsName (n : ℕ) (file : List (Record × UInt32)) (id : UInt32) (text : List UInt8) : Prop :=
  ∃ front pad back, file = front ++ (.string id text, pad) :: back ∧
    (emit front).length + 12 ≤ n ∧ n < (emit front).length + 12 + text.length

theorem CutsName.cuts {id : UInt32} {text : List UInt8} (h : CutsName n file id text) :
    CutsText n file := by
  obtain ⟨front, pad, back, hfile, hbounds⟩ := h
  exact ⟨front, id, text, pad, back, hfile, hbounds⟩

/-- After the uplift of the first bytes of a session, the tables are those at the path with the records
    inserted that the reader found. -/
theorem uplift_take (hsq : Documented sq) (path : Option Db) (hfile : ∀ x ∈ file, Readable x.1)
    (n : ℕ) {fuel : ℕ} (hfuel : file.length < fuel) (records : List Record)
    (hrecords : (inside n file).map (fun x => storeCall x.1) ++ cutCalls n file =
      records.map storeCall) :
    ∃ db, uplift sq fuel path ((emit file).take n) = some db ∧ sq.tables db =
      ⟨some (insertAll EventRow.eventId ((leftAt sq path).events.getD ∅) (eventRows records)),
        some (insertAll StringRow.stringId ((leftAt sq path).strings.getD ∅)
          (stringRows records))⟩ := by
  have hbegin : sq.tables (sq.run (initializeStore sq path).2 .beginTransaction).2 = _ :=
    (hsq.run_tables _ _).trans (tables_initializeStore hsq path)
  obtain ⟨db, hrun, htables⟩ := storeInto_records hsq (by omega : 0 < fuel) records hbegin
  obtain ⟨r, hread, hcalls⟩ := readLoop_take hfile n hfuel
  refine ⟨(sq.run db .commitTransaction).2, ?_, (hsq.run_tables _ _).trans htables⟩
  rw [uplift, hread, Option.bind_some, if_neg (by
    rw [readLoop_take_within hfile n hread]
    exact Bool.false_ne_true)]
  rw [← hrecords, ← hcalls, Reading.calls] at hrun
  rw [hrun, Option.map_some]

/-- The longer a file has grown, the more records are inside. -/
theorem inside_grows (hnm : n ≤ m) (file : List (Record × UInt32)) :
    inside n file <+: inside m file := by
  induction file generalizing n m with
  | nil => exact List.prefix_refl []
  | cons x file ih =>
    rw [inside, inside]
    by_cases hin : (encode x.2 x.1).length ≤ n
    · rw [if_pos hin, if_pos (hin.trans hnm)]
      exact (List.prefix_cons_inj x).mpr (ih (Nat.sub_le_sub_right hnm _))
    · rw [if_neg hin]
      exact List.nil_prefix

/-- A cut inside the text of a name: the name is the first record that is not inside, and is stored
    short. -/
theorem CutsName.next {id : UInt32} {text : List UInt8} (h : CutsName n file id text) :
    ∃ pad back j, j < text.length ∧ file = inside n file ++ (.string id text, pad) :: back ∧
      cutCalls n file = [.writeString id (text.take j)] := by
  obtain ⟨front, pad, back, rfl, hlo, hhi⟩ := h
  induction front generalizing n with
  | nil =>
    rw [emit, List.flatMap_nil, List.length_nil] at hlo hhi
    have hcut : ¬ (encode pad (.string id text)).length ≤ n := by
      rw [length_encode_string]
      omega
    refine ⟨pad, back, n - 12, by omega, ?_, ?_⟩
    · rw [List.nil_append, inside, if_neg hcut, List.nil_append]
    · rw [List.nil_append, cutCalls, if_neg hcut]
      exact if_pos (by omega)
  | cons y front ih =>
    rw [length_emit_cons] at hlo hhi
    have hin : (encode y.2 y.1).length ≤ n := by omega
    obtain ⟨pad', back', j, hj, hsplit, hcalls⟩ := ih (n := n - (encode y.2 y.1).length)
      (by omega) (by omega)
    refine ⟨pad', back', j, hj, ?_, ?_⟩
    · rw [List.cons_append, inside, if_pos hin]
      exact congrArg (List.cons y) hsplit
    · rw [List.cons_append, cutCalls, if_pos hin]
      exact hcalls

theorem CutsName.mem {id : UInt32} {text : List UInt8} (h : CutsName n file id text) :
    Record.string id text ∈ file.map Prod.fst := by
  obtain ⟨front, pad, back, rfl, -⟩ := h
  rw [List.map_append, List.map_cons]
  exact List.mem_append_right _ List.mem_cons_self

/-- The row of a name that one of the cuts fell into, with a part of its text. -/
def ShortRow (cuts : List ℕ) (file : List (Record × UInt32)) (row : StringRow) : Prop :=
  ∃ n ∈ cuts, ∃ id text j, CutsName n file id text ∧ j < text.length ∧
    row = stringRow id (text.take j)

/-- The records that a reader of the first bytes finds, a short name included. -/
theorem cut_records (n : ℕ) (file : List (Record × UInt32)) : ∃ records : List Record,
    (inside n file).map (fun x => storeCall x.1) ++ cutCalls n file = records.map storeCall ∧
      eventsOf records = eventsOf ((inside n file).map Prod.fst) ∧
      (∀ row ∈ stringRows records,
        row ∈ stringRows ((inside n file).map Prod.fst) ∨ ShortRow [n] file row) ∧
      ∀ id text, CutsName n file id text →
        ∃ j < text.length, stringRow id (text.take j) ∈ stringRows records := by
  by_cases hcut : CutsText n file
  · obtain ⟨front, id, text, pad, back, hfile, hbounds⟩ := hcut
    have hname : CutsName n file id text := ⟨front, pad, back, hfile, hbounds⟩
    obtain ⟨-, -, j, hj, -, hcalls⟩ := hname.next
    have hrows : stringRows ((inside n file).map Prod.fst ++ [.string id (text.take j)]) =
        stringRows ((inside n file).map Prod.fst) ++ [stringRow id (text.take j)] :=
      List.filterMap_append
    refine ⟨(inside n file).map Prod.fst ++ [.string id (text.take j)], ?_, ?_, ?_, ?_⟩
    · rw [hcalls, List.map_append, List.map_map]
      rfl
    · rw [eventsOf_append]
      exact List.append_nil _
    · intro row hrow
      rw [hrows, List.mem_append, List.mem_singleton] at hrow
      exact hrow.imp_right fun hrow =>
        ⟨n, List.mem_singleton_self n, id, text, j, hname, hj, hrow⟩
    · intro id' text' hname'
      obtain ⟨-, -, j', hj', -, hcalls'⟩ := hname'.next
      obtain ⟨hid, htext⟩ := StoreCall.writeString.inj
        (List.singleton_injective (hcalls.symm.trans hcalls'))
      rw [hrows, hid, htext]
      exact ⟨j', hj', List.mem_append_right _ (List.mem_singleton_self _)⟩
  · refine ⟨(inside n file).map Prod.fst, ?_, rfl, fun row hrow => Or.inl hrow, ?_⟩
    · rw [(cutCalls_eq_nil n file).mpr hcut, List.append_nil, List.map_map]
      rfl
    · exact fun id text hname => absurd hname.cuts hcut

/-! ### The tables as the file grows -/

/-- INVARIANT: the tables hold rows of the first `n` bytes, and short rows of names that were cut. -/
structure RowsOf (cuts : List ℕ) (n : ℕ) (file : List (Record × UInt32)) (t : Tables) : Prop where
  events : t.events.getD ∅ ⊆ (eventRows ((inside n file).map Prod.fst)).toFinset
  strings : ∀ row ∈ t.strings.getD ∅,
    row ∈ stringRows ((inside n file).map Prod.fst) ∨ ShortRow cuts file row
  keys : Set.InjOn StringRow.stringId (t.strings.getD ∅ : Set StringRow)

/-- What the table of names has for `id` is this text. -/
def StoredAs (t : Tables) (id : UInt32) (text : List UInt8) : Prop :=
  ∀ row, row ∈ t.strings.getD ∅ ∧ row.stringId = id.toNat ↔ row = stringRow id text

theorem storedAs {t : Tables} {id : UInt32} {text : List UInt8}
    (hkeys : Set.InjOn StringRow.stringId (t.strings.getD ∅ : Set StringRow))
    (hrow : stringRow id text ∈ t.strings.getD ∅) : StoredAs t id text := by
  intro row
  constructor
  · rintro ⟨hmem, hid⟩
    exact hkeys hmem hrow hid
  · rintro rfl
    exact ⟨hrow, rfl⟩

theorem stringRows_append (rs rs' : List Record) :
    stringRows (rs ++ rs') = stringRows rs ++ stringRows rs' := List.filterMap_append

theorem eventRows_mono {rs rs' : List Record} (h : rs <+: rs') : eventRows rs ⊆ eventRows rs' := by
  obtain ⟨back, rfl⟩ := h
  rw [eventRows, eventRows, eventsOf_append, List.map_append]
  exact List.subset_append_left _ _

theorem stringRows_mono {rs rs' : List Record} (h : rs <+: rs') :
    stringRows rs ⊆ stringRows rs' := by
  obtain ⟨back, rfl⟩ := h
  rw [stringRows_append]
  exact List.subset_append_left _ _

theorem mem_stringRows {rs : List Record} {id : UInt32} {text : List UInt8}
    (h : Record.string id text ∈ rs) : stringRow id text ∈ stringRows rs :=
  List.mem_filterMap.mpr ⟨_, h, rfl⟩

/-- A short row is not one of the file's, whose names have ids of their own. -/
theorem short_notMem (hids : DistinctIds (file.map Prod.fst)) {id : UInt32} {text : List UInt8}
    {j : ℕ} (hmem : Record.string id text ∈ file.map Prod.fst) (hj : j < text.length) :
    stringRow id (text.take j) ∉ stringRows (file.map Prod.fst) := by
  intro hrow
  have hsame : stringRow id (text.take j) = stringRow id text :=
    List.inj_on_of_nodup_map hids.2 hrow (mem_stringRows hmem) rfl
  have hlen := congrArg (fun row => row.value.length) hsame
  simp only [stringRow, List.length_take] at hlen
  omega

section
variable (hsq : Documented sq) (hfile : ∀ x ∈ file, Readable x.1) {fuel : ℕ}
  (hfuel : file.length < fuel) {path : Option Db}
include hsq hfile hfuel

/-- What an uplift of the first bytes leaves. -/
theorem uplift_cut (path : Option Db) (n : ℕ) : ∃ db records,
    uplift sq fuel path ((emit file).take n) = some db ∧
      sq.tables db =
        ⟨some (insertAll EventRow.eventId ((leftAt sq path).events.getD ∅) (eventRows records)),
          some (insertAll StringRow.stringId ((leftAt sq path).strings.getD ∅)
            (stringRows records))⟩ ∧
      eventsOf records = eventsOf ((inside n file).map Prod.fst) ∧
      (∀ row ∈ stringRows records,
        row ∈ stringRows ((inside n file).map Prod.fst) ∨ ShortRow [n] file row) ∧
      ∀ id text, CutsName n file id text →
        ∃ j < text.length, stringRow id (text.take j) ∈ stringRows records := by
  obtain ⟨records, hrecords, hevents, hstrings, hname⟩ := cut_records n file
  obtain ⟨db, hdb, htables⟩ := uplift_take hsq path hfile n hfuel records hrecords
  exact ⟨db, records, hdb, htables, hevents, hstrings, hname⟩

/-- RUN: whatever is in the table of names stays there, one row for each id. -/
theorem names_stay (cuts : List ℕ)
    (hkeys : Set.InjOn StringRow.stringId ((leftAt sq path).strings.getD ∅ : Set StringRow)) :
    ∃ path', Machine.run (upliftFirst sq fuel (emit file)) path cuts = some path' ∧
      Set.InjOn StringRow.stringId ((leftAt sq path').strings.getD ∅ : Set StringRow) ∧
      (leftAt sq path).strings.getD ∅ ⊆ (leftAt sq path').strings.getD ∅ := by
  induction cuts generalizing path with
  | nil => exact ⟨path, rfl, hkeys, Finset.Subset.refl _⟩
  | cons n cuts ih =>
    obtain ⟨db, records, hdb, htables, -⟩ := uplift_cut hsq hfile hfuel path n
    have hleft : (leftAt sq (some db)).strings.getD ∅ = insertAll StringRow.stringId
        ((leftAt sq path).strings.getD ∅) (stringRows records) := congrArg (·.strings.getD ∅) htables
    obtain ⟨path', hrun, hkeys', hsub⟩ := ih
      (by rw [hleft]; exact injOn_insertAll hkeys _)
    refine ⟨path', run_cons_some.mpr ⟨some db, ?_, hrun⟩, hkeys', ?_⟩
    · rw [upliftFirst, hdb, Option.map_some]
    · rw [hleft] at hsub
      exact (subset_insertAll _ _).trans hsub

/-- STEP: an uplift, wherever it meets the file; a name that it cuts is there with a part of its text. -/
theorem RowsOf.uplift (hids : DistinctIds (file.map Prod.fst)) {cuts : List ℕ}
    (h : RowsOf cuts m file (leftAt sq path)) (hmn : m ≤ n) :
    ∃ db, Uplift.uplift sq fuel path ((emit file).take n) = some db ∧
      RowsOf (cuts ++ [n]) n file (sq.tables db) ∧
      ∀ id text, CutsName n file id text →
        ∃ j < text.length, stringRow id (text.take j) ∈ (sq.tables db).strings.getD ∅ := by
  obtain ⟨db, records, hdb, htables, hevents, hstrings, hname⟩ := uplift_cut hsq hfile hfuel path n
  have hgrown := (inside_grows hmn file).map Prod.fst
  have hrows : RowsOf (cuts ++ [n]) n file (sq.tables db) := by
    rw [htables]
    refine ⟨insertAll_subset (fun row hrow => ?_) fun row hrow => ?_, ?_, injOn_insertAll h.keys _⟩
    · exact List.mem_toFinset.mpr (eventRows_mono hgrown (List.mem_toFinset.mp (h.events hrow)))
    · rw [List.mem_toFinset, eventRows, ← hevents]
      exact hrow
    · intro row hrow
      rcases mem_of_insertAll hrow with hrow | hrow
      · refine (h.strings row hrow).imp (fun hrow => stringRows_mono hgrown hrow) ?_
        rintro ⟨k, hk, hshort⟩
        exact ⟨k, List.mem_append_left _ hk, hshort⟩
      · refine (hstrings row hrow).imp_right ?_
        rintro ⟨k, hk, hshort⟩
        exact ⟨k, List.mem_append_right _ hk, hshort⟩
  refine ⟨db, hdb, hrows, ?_⟩
  intro id text hcut
  obtain ⟨j, hj, hmem⟩ := hname id text hcut
  -- the row is inserted, or an earlier cut in the same name has taken the key
  obtain ⟨row, hrow, hkey⟩ : Taken StringRow.stringId ((sq.tables db).strings.getD ∅)
      (stringRow id (text.take j)) := by
    rw [htables]
    exact taken_insertAll hmem
  rcases hrows.strings row hrow with hin | ⟨k, -, id', text', j', hcut', hj', rfl⟩
  · obtain ⟨pad, back, -, -, hsplit, -⟩ := hcut.next
    have hkeys := hids.2
    rw [hsplit, List.map_append, List.map_cons, stringRows_append, List.map_append] at hkeys
    have hthis : stringRow id text ∈ stringRows (.string id text :: back.map Prod.fst) :=
      mem_stringRows List.mem_cons_self
    have hsame : row.stringId = (stringRow id text).stringId := hkey
    exact absurd hsame ((List.nodup_append.mp hkeys).2.2 _ (List.mem_map_of_mem hin) _
      (List.mem_map_of_mem hthis))
  · have hsame : stringRow id' text' = stringRow id text :=
      List.inj_on_of_nodup_map hids.2 (mem_stringRows hcut'.mem) (mem_stringRows hcut.mem) hkey
    obtain ⟨hid, htext⟩ := StringRow.mk.inj hsame
    obtain rfl : text' = text := htext
    refine ⟨j', hj', ?_⟩
    rw [stringRow, ← hid]
    exact hrow

/-- RUN: a file that grows, uplift by uplift. -/
theorem RowsOf.run (hids : DistinctIds (file.map Prod.fst)) {past cuts : List ℕ}
    (h : RowsOf past m file (leftAt sq path)) (hm : ∀ n ∈ cuts, m ≤ n)
    (hgrows : cuts.Pairwise (· ≤ ·)) :
    ∃ path' k, Machine.run (upliftFirst sq fuel (emit file)) path cuts = some path' ∧
      RowsOf (past ++ cuts) k file (leftAt sq path') ∧
      ∀ n ∈ cuts, ∀ id text, CutsName n file id text →
        ∃ j < text.length, stringRow id (text.take j) ∈ (leftAt sq path').strings.getD ∅ := by
  induction cuts generalizing past m path with
  | nil => exact ⟨path, m, rfl, by rwa [List.append_nil], List.forall_mem_nil _⟩
  | cons n cuts ih =>
    obtain ⟨hlater, hrest⟩ := List.pairwise_cons.mp hgrows
    obtain ⟨db, hdb, hrows, hname⟩ := h.uplift hsq hfile hfuel hids (hm n List.mem_cons_self)
    have hnext : RowsOf (past ++ [n]) n file (leftAt sq (some db)) := hrows
    obtain ⟨path', k, hrun, h', hnames⟩ := ih hnext hlater hrest
    obtain ⟨path'', hrun', -, hsub⟩ := names_stay hsq hfile hfuel cuts hnext.keys
    obtain rfl := Option.some.inj (hrun.symm.trans hrun')
    refine ⟨path', k, run_cons_some.mpr ⟨some db, ?_, hrun⟩, ?_, List.forall_mem_cons.mpr ⟨?_, hnames⟩⟩
    · rw [upliftFirst, hdb, Option.map_some]
    · rwa [List.append_assoc] at h'
    · intro id text hcut
      obtain ⟨j, hj, hmem⟩ := hname id text hcut
      exact ⟨j, hj, hsub hmem⟩

/-- EXACT: uplift a session file as it grows, into one database, and once more when it is complete. The
    tables then hold exactly the session when, and only when, no uplift met the file inside the text of
    a name. A name that was met so keeps a part of its text, however often the file is uplifted again. -/
theorem growingFile_iff (hids : DistinctIds (file.map Prod.fst)) {cuts : List ℕ}
    (hgrows : cuts.Pairwise (· ≤ ·)) :
    ∃ path' db, Machine.run (upliftFirst sq fuel (emit file)) none cuts = some path' ∧
      Uplift.uplift sq fuel path' (emit file) = some db ∧
      (HoldsExactly (sq.tables db) (file.map Prod.fst) ↔ ∀ n ∈ cuts, ¬ CutsText n file) ∧
      ∀ n ∈ cuts, ∀ id text, CutsName n file id text → ∃ j < text.length, ∀ again, ∃ path'',
        Machine.run (upliftFirst sq fuel (emit file)) (some db) again = some path'' ∧
        StoredAs (leftAt sq path'') id (text.take j) := by
  have hstart : RowsOf [] 0 file (leftAt sq none) :=
    ⟨Finset.empty_subset _, fun _ hrow => absurd hrow (Finset.notMem_empty _),
      fun _ hrow => absurd hrow (Finset.notMem_empty _)⟩
  obtain ⟨path', k, hrun, hend, hnames⟩ :=
    hstart.run hsq hfile hfuel hids (fun n _ => Nat.zero_le n) hgrows
  obtain ⟨db, hdb, htables⟩ := uplift_tables hsq path' hfile hfuel
  have hleft : (leftAt sq (some db)).strings.getD ∅ = insertAll StringRow.stringId
      ((leftAt sq path').strings.getD ∅) (stringRows (file.map Prod.fst)) :=
    congrArg (·.strings.getD ∅) htables
  refine ⟨path', db, hrun, hdb, ?_, ?_⟩
  · rw [HoldsExactly, htables, Option.some.injEq, Option.some.injEq, insertAll_eq_iff hids.1,
      insertAll_eq_iff hids.2]
    constructor
    · rintro ⟨-, hsub⟩ n hn ⟨front, id, text, pad, back, hsplit, hbounds⟩
      have hcut : CutsName n file id text := ⟨front, pad, back, hsplit, hbounds⟩
      obtain ⟨j, hj, hmem⟩ := hnames n hn id text hcut
      exact short_notMem hids hcut.mem hj (List.mem_toFinset.mp (hsub hmem))
    · intro hnone
      have hin := (inside_initial k file).map Prod.fst
      refine ⟨fun row hrow => ?_, fun row hrow => ?_⟩
      · exact List.mem_toFinset.mpr (eventRows_mono hin (List.mem_toFinset.mp (hend.events hrow)))
      · rcases hend.strings row hrow with hrow | ⟨n, hn, id, text, j, hcut, -⟩
        · exact List.mem_toFinset.mpr (stringRows_mono hin hrow)
        · exact absurd hcut.cuts (hnone n hn)
  · intro n hn id text hcut
    obtain ⟨j, hj, hmem⟩ := hnames n hn id text hcut
    refine ⟨j, hj, fun again => ?_⟩
    obtain ⟨path'', hagain, hkeys, hsub⟩ := names_stay hsq hfile hfuel again
      (by rw [hleft]; exact injOn_insertAll hend.keys _)
    refine ⟨path'', hagain, storedAs hkeys (hsub ?_)⟩
    rw [hleft]
    exact subset_insertAll _ _ hmem

end

/-- A sample uplifted when its name is there, when half of the event is, and at the end; and a session
    uplifted when one byte of its name `foo` is there, which then stays cut. -/
theorem growingFile_iff_twoFiles :
    (∃ path' db,
      Machine.run (upliftFirst plainSqlite 3 (emit (oneSample 5))) none [13, 30] = some path' ∧
        uplift plainSqlite 3 path' (emit (oneSample 5)) = some db ∧
        HoldsExactly (plainSqlite.tables db) ((oneSample 5).map Prod.fst)) ∧
    ∃ path' db, Machine.run (upliftFirst plainSqlite 4 (emit sampleFile)) none [53] = some path' ∧
      uplift plainSqlite 4 path' (emit sampleFile) = some db ∧
      ¬ HoldsExactly (plainSqlite.tables db) (sampleFile.map Prod.fst) ∧
      ∃ j < 3, ∀ again, ∃ path'',
        Machine.run (upliftFirst plainSqlite 4 (emit sampleFile)) (some db) again = some path'' ∧
        StoredAs (leftAt plainSqlite path'') 0 ([102, 111, 111].take j) := by
  constructor
  · obtain ⟨path', db, hrun, hdb, hiff, -⟩ := growingFile_iff documented_plainSqlite
      (readable_oneSample 5) (by decide : (oneSample 5).length < 3) (by decide)
      (by decide : [13, 30].Pairwise (· ≤ ·))
    refine ⟨path', db, hrun, hdb, hiff.mpr ?_⟩
    intro n hn
    rw [← cutCalls_eq_nil]
    simp only [List.mem_cons, List.not_mem_nil, or_false] at hn
    rcases hn with rfl | rfl <;> rfl
  · obtain ⟨path', db, hrun, hdb, hiff, hstays⟩ := growingFile_iff documented_plainSqlite
      readable_sampleFile (by decide : sampleFile.length < 4) (by decide)
      (List.pairwise_singleton (· ≤ ·) 53)
    have hcut : CutsName 53 sampleFile 0 [102, 111, 111] :=
      ⟨sampleFile.take 1, 0, sampleFile.drop 2, rfl, by decide, by decide⟩
    exact ⟨path', db, hrun, hdb, fun h => hiff.mp h 53 (List.mem_singleton_self 53) hcut.cuts,
      hstays 53 (List.mem_singleton_self 53) 0 _ hcut⟩

end Esp.Uplift
