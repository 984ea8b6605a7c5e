import Libesp.Schemes.Keyed
import Libesp.Uplift.ReadRecord

/-! @esp uplift | name:SessionFileStore | scheme:fold |
    source:src/uplift/FileStore.cpp, src/uplift/uplift.cpp (main)

    From the calls of the reader to the tables of the database. The database library is not modelled but
    assumed: a `Sqlite` opens a file and runs statements, and `Documented` says what its tables make of
    them. What the store does is to go on whatever it is told: a table that cannot be created is left as
    it is, and so is a row whose key is taken.

        path ─ open ─▶ CREATE events ─▶ CREATE strings ─▶ BEGIN ─▶ INSERT … INSERT ─▶ COMMIT
                       └ error: printed  └ error: printed          └ key taken: false, not looked at

    So an uplift adds its records to whatever an earlier one left at its path (`uplift_iff`). -/

namespace Esp.Uplift
open Event Keyed

/-- The values bound to the parameters of `INSERT_EVENT_QUERY`. -/
structure EventRow where
  eventId : ℤ
  eventType : ℤ
  threadID : ℤ
  parentEventRef : ℤ
  frameNumber : ℤ
  timestamp : ℤ
  eventNameRef : ℤ
  value : ℤ
  deriving DecidableEq, Repr

/-- The values bound to the parameters of `INSERT_STRING_QUERY`. -/
structure StringRow where
  stringId : ℤ
  value : List UInt8
  deriving DecidableEq, Repr

/-- `sqlite3_bind_int64` of the fields of an event; the value by its `ui` member. -/
def eventRow (event : ProfileEvent) : EventRow where
  eventId := event.header.id.toNat
  eventType := event.header.eventType.toNat
  threadID := event.data.threadID.toNat
  parentEventRef := event.data.parentEventRef.toNat
  frameNumber := event.data.frameNumber.toNat
  timestamp := event.data.timestamp.toInt
  eventNameRef := event.data.eventNameRef.toNat
  value := event.data.value.toNat

def stringRow (stringID : UInt32) (string : List UInt8) : StringRow := ⟨stringID.toNat, string⟩

/-! ### The database library -/

/-- A result code, as far as the store tells them apart. -/
inductive Status where
  | ok
  | done
  | error
  | busy
  | other
  deriving DecidableEq, Repr

/-- The statements that the store runs. -/
inductive Statement where
  | createEvents
  | createStrings
  | beginTransaction
  | commitTransaction
  | insertEvent (row : EventRow)
  | insertString (row : StringRow)

/-- The two tables of a database, each `none` until it is created. -/
structure Tables where
  events : Option (Finset EventRow)
  strings : Option (Finset StringRow)
  deriving DecidableEq

/-- The library: `sqlite3_open` on what is at the path, running a statement, and the tables that a
    query would show. -/
structure Sqlite (Db : Type) where
  sqlite3Open : Option Db → Status × Db
  run : Db → Statement → Status × Db
  tables : Db → Tables

/-- What a statement does to the tables: a table that exists is not created again, and a row is not
    inserted when its primary key is there. -/
def Tables.run (t : Tables) : Statement → Status × Tables
  | .createEvents =>
    match t.events with
    | none => (.ok, { t with events := some ∅ })
    | some _ => (.error, t)
  | .createStrings =>
    match t.strings with
    | none => (.ok, { t with strings := some ∅ })
    | some _ => (.error, t)
  | .beginTransaction => (.ok, t)
  | .commitTransaction => (.ok, t)
  | .insertEvent row =>
    match t.events with
    | none => (.error, t)
    | some rows =>
      if Taken EventRow.eventId rows row then (.other, t)
      else (.done, { t with events := some (insert row rows) })
  | .insertString row =>
    match t.strings with
    | none => (.error, t)
    | some rows =>
      if Taken StringRow.stringId rows row then (.other, t)
      else (.done, { t with strings := some (insert row rows) })

/-- Nothing at the path has no tables. -/
def leftAt {Db : Type} (sq : Sqlite Db) (path : Option Db) : Tables :=
  path.elim ⟨none, none⟩ sq.tables

/-- The documented behaviour of the library: opening keeps the tables, and statements do what
    `Tables.run` says. -/
structure Documented {Db : Type} (sq : Sqlite Db) : Prop where
  open_ok : ∀ path, (sq.sqlite3Open path).1 = .ok
  open_tables : ∀ path, sq.tables (sq.sqlite3Open path).2 = leftAt sq path
  run_status : ∀ db st, (sq.run db st).1 = ((sq.tables db).run st).1
  run_tables : ∀ db st, sq.tables (sq.run db st).2 = ((sq.tables db).run st).2

/-! ### SessionFileStore -/

variable {Db : Type} (sq : Sqlite Db)

/-- `Initialize`: what it returns, and the open database. -/
def initializeStore (path : Option Db) : Bool × Db :=
  let opened := sq.sqlite3Open path
  if opened.1 = .ok then
    let db := (sq.run opened.2 .createEvents).2
    let db := (sq.run db .createStrings).2
    (true, db)
  else (false, opened.2)

/-- The loop at `try_step`; `none` when the database is still busy after `tries` steps. -/
def tryStep (st : Statement) : ℕ → Db → Option (Bool × Db)
  | 0, _ => none
  | tries + 1, db =>
    match sq.run db st with
    | (.done, db) => some (true, db)
    | (.error, db) => some (false, db)
    | (.busy, db) => tryStep st tries db
    | (.ok, db) => some (false, db)
    | (.other, db) => some (false, db)

def writeEvent (tries : ℕ) (db : Db) (event : ProfileEvent) : Option (Bool × Db) :=
  tryStep sq (.insertEvent (eventRow event)) tries db

def writeString (tries : ℕ) (db : Db) (stringID : UInt32) (string : List UInt8) :
    Option (Bool × Db) :=
  tryStep sq (.insertString (stringRow stringID string)) tries db

/-- A call of the store by `ReadRecord`, which does not look at its answer. -/
def storeInto (tries : ℕ) (db : Db) : StoreCall → Option Db
  | .writeEvent event => (writeEvent sq tries db event).map Prod.snd
  | .writeString stringID string => (writeString sq tries db stringID string).map Prod.snd

/-- `main` on a session file, with what is at the path of its database; `none` when the reader runs
    past its buffer, or is not done after `fuel` records. -/
def uplift (fuel : ℕ) (path : Option Db) (inFile : List UInt8) : Option Db :=
  let db := (initializeStore sq path).2
  let db := (sq.run db .beginTransaction).2
  (readLoop fuel inFile).bind fun r =>
    if r.overrun then none
    else ((r.log.map Prod.fst).foldlM (storeInto sq fuel) db).map fun db =>
      (sq.run db .commitTransaction).2

/-! ### What the tables should hold -/

def eventRows (records : List Record) : List EventRow := (eventsOf records).map eventRow

def stringRowOf : Record → Option StringRow
  | .event _ => none
  | .string id text => some (stringRow id text)

def stringRows (records : List Record) : List StringRow := records.filterMap stringRowOf

/-- The tables hold exactly the records. -/
def HoldsExactly (t : Tables) (records : List Record) : Prop :=
  t.events = some (eventRows records).toFinset ∧ t.strings = some (stringRows records).toFinset

/-- Every row of the tables is one of the records'. -/
def HoldsOnly (t : Tables) (records : List Record) : Prop :=
  (∀ rows, t.events = some rows → rows ⊆ (eventRows records).toFinset) ∧
    ∀ rows, t.strings = some rows → rows ⊆ (stringRows records).toFinset

variable {sq} {tries : ℕ} {db : Db} {t : Tables}

/-! ### One call -/

/-- A statement that is not answered busy is stepped once. -/
theorem tryStep_once (hsq : Documented sq) {st : Statement} (htries : 0 < tries)
    (hfree : ((sq.tables db).run st).1 ≠ .busy) : ∃ b db', tryStep sq st tries db = some (b, db') ∧
      sq.tables db' = ((sq.tables db).run st).2 := by
  obtain ⟨n, rfl⟩ : ∃ n, tries = n + 1 := ⟨tries - 1, by omega⟩
  have htables := hsq.run_tables db st
  rw [← hsq.run_status db st] at hfree
  rw [tryStep]
  rcases hr : sq.run db st with ⟨status, db'⟩
  rw [hr] at hfree htables
  cases status with
  | ok => exact ⟨false, db', rfl, htables⟩
  | done => exact ⟨true, db', rfl, htables⟩
  | error => exact ⟨false, db', rfl, htables⟩
  | busy => exact absurd rfl hfree
  | other => exact ⟨false, db', rfl, htables⟩

/-- Inserting a row, in a table that is there. -/
theorem run_insertEvent (es : Finset EventRow) (ss : Finset StringRow) (row : EventRow) :
    ((⟨some es, some ss⟩ : Tables).run (.insertEvent row)).1 ≠ .busy ∧
      ((⟨some es, some ss⟩ : Tables).run (.insertEvent row)).2 =
        ⟨some (insertNew EventRow.eventId es row), some ss⟩ := by
  rw [Tables.run, insertNew]
  simp only
  split
  · exact ⟨show Status.other ≠ .busy by decide, rfl⟩
  · exact ⟨show Status.done ≠ .busy by decide, rfl⟩

theorem run_insertString (es : Finset EventRow) (ss : Finset StringRow) (row : StringRow) :
    ((⟨some es, some ss⟩ : Tables).run (.insertString row)).1 ≠ .busy ∧
      ((⟨some es, some ss⟩ : Tables).run (.insertString row)).2 =
        ⟨some es, some (insertNew StringRow.stringId ss row)⟩ := by
  rw [Tables.run, insertNew]
  simp only
  split
  · exact ⟨show Status.other ≠ .busy by decide, rfl⟩
  · exact ⟨show Status.done ≠ .busy by decide, rfl⟩

/-- STEP: a call of the store inserts the row of its record, if the key is free. -/
theorem storeInto_record (hsq : Documented sq) (htries : 0 < tries) {es : Finset EventRow}
    {ss : Finset StringRow} (hdb : sq.tables db = ⟨some es, some ss⟩) (r : Record) :
    ∃ db', storeInto sq tries db (storeCall r) = some db' ∧ sq.tables db' =
      ⟨some (insertAll EventRow.eventId es (eventRows [r])),
        some (insertAll StringRow.stringId ss (stringRows [r]))⟩ := by
  cases r with
  | event e =>
    obtain ⟨hfree, hrun⟩ := run_insertEvent es ss (eventRow e)
    rw [← hdb] at hfree hrun
    obtain ⟨b, db', hstep, htables⟩ := tryStep_once hsq htries hfree
    exact ⟨db', by rw [storeCall, storeInto, writeEvent, hstep]; rfl, htables.trans hrun⟩
  | string id text =>
    obtain ⟨hfree, hrun⟩ := run_insertString es ss (stringRow id text)
    rw [← hdb] at hfree hrun
    obtain ⟨b, db', hstep, htables⟩ := tryStep_once hsq htries hfree
    exact ⟨db', by rw [storeCall, storeInto, writeString, hstep]; rfl, htables.trans hrun⟩

/-! ### A whole file -/

theorem eventRows_cons (r : Record) (records : List Record) :
    eventRows (r :: records) = eventRows [r] ++ eventRows records := by
  rw [eventRows, eventRows, eventRows, ← List.map_append, ← eventsOf_append]
  rfl

theorem stringRows_cons (r : Record) (records : List Record) :
    stringRows (r :: records) = stringRows [r] ++ stringRows records := by
  rw [stringRows, stringRows, stringRows, ← List.filterMap_append]
  rfl

/-- RUN: the calls for a list of records insert their rows, in order. -/
theorem storeInto_records (hsq : Documented sq) (htries : 0 < tries) (records : List Record) :
    ∀ {db : Db} {es : Finset EventRow} {ss : Finset StringRow},
      sq.tables db = ⟨some es, some ss⟩ →
      ∃ db', (records.map storeCall).foldlM (storeInto sq tries) db = some db' ∧ sq.tables db' =
        ⟨some (insertAll EventRow.eventId es (eventRows records)),
          some (insertAll StringRow.stringId ss (stringRows records))⟩ := by
  induction records with
  | nil => exact fun {db es ss} hdb => ⟨db, rfl, hdb⟩
  | cons r records ih =>
    intro db es ss hdb
    obtain ⟨db₁, hone, htables⟩ := storeInto_record hsq htries hdb r
    obtain ⟨db₂, hrest, hfinal⟩ := ih htables
    refine ⟨db₂, ?_, ?_⟩
    · rw [List.map_cons, List.foldlM_cons, hone]
      exact hrest
    · rw [hfinal, eventRows_cons r records, stringRows_cons r records]
      simp only [insertAll, List.foldl_append]

/-- The tables an uplift starts from: those that are at the path, or new ones. -/
theorem tables_initializeStore (hsq : Documented sq) (path : Option Db) :
    sq.tables (initializeStore sq path).2 = ⟨some ((leftAt sq path).events.getD ∅),
      some ((leftAt sq path).strings.getD ∅)⟩ := by
  rw [initializeStore, if_pos (hsq.open_ok path)]
  simp only [hsq.run_tables, hsq.open_tables]
  rcases leftAt sq path with ⟨_ | es, _ | ss⟩ <;> rfl

/-- After the uplift of a session file the tables are those at the path with the records inserted. -/
theorem uplift_tables (hsq : Documented sq) (path : Option Db) {file : List (Record × UInt32)}
    (hfile : ∀ x ∈ file, Readable x.1) {fuel : ℕ} (hfuel : file.length < fuel) :
    ∃ db, uplift sq fuel path (emit file) = some db ∧ sq.tables db =
      ⟨some (insertAll EventRow.eventId ((leftAt sq path).events.getD ∅)
          (eventRows (file.map Prod.fst))),
        some (insertAll StringRow.stringId ((leftAt sq path).strings.getD ∅)
          (stringRows (file.map Prod.fst)))⟩ := by
  have hbegin : sq.tables (sq.run (initializeStore sq path).2 .beginTransaction).2 = _ :=
    (hsq.run_tables _ _).trans (tables_initializeStore hsq path)
  have htries : 0 < fuel := by omega
  obtain ⟨db, hrun, htables⟩ := storeInto_records hsq htries (file.map Prod.fst) hbegin
  refine ⟨(sq.run db .commitTransaction).2, ?_, (hsq.run_tables _ _).trans htables⟩
  have hcalls : (file.map fun x => (storeCall x.1, (encode x.2 x.1).length)).map Prod.fst =
      (file.map Prod.fst).map storeCall := by
    rw [List.map_map, List.map_map]
    rfl
  rw [uplift, readLoop_emit hfile hfuel]
  simp only [Option.bind_some, hcalls, hrun]
  rfl

/-- The ids of the event records, and of the string records, are distinct. -/
def DistinctIds (records : List Record) : Prop :=
  ((eventRows records).map EventRow.eventId).Nodup ∧
    ((stringRows records).map StringRow.stringId).Nodup

instance (records : List Record) : Decidable (DistinctIds records) :=
  inferInstanceAs (Decidable (_ ∧ _))

/-- EXACT: after the uplift of a session file the tables hold exactly its records when, and only when,
    nothing was at the path but rows of those records. -/
theorem uplift_iff (hsq : Documented sq) (path : Option Db) {file : List (Record × UInt32)}
    (hfile : ∀ x ∈ file, Readable x.1) (hids : DistinctIds (file.map Prod.fst)) {fuel : ℕ}
    (hfuel : file.length < fuel) :
    ∃ db, uplift sq fuel path (emit file) = some db ∧
      (HoldsExactly (sq.tables db) (file.map Prod.fst) ↔
        HoldsOnly (leftAt sq path) (file.map Prod.fst)) := by
  obtain ⟨db, hdb, htables⟩ := uplift_tables hsq path hfile hfuel
  refine ⟨db, hdb, ?_⟩
  obtain ⟨hevents, hstrings⟩ := hids
  have hsub : ∀ {α : Type} [DecidableEq α] (rows : Option (Finset α)) (s : Finset α),
      rows.getD ∅ ⊆ s ↔ ∀ rows', rows = some rows' → rows' ⊆ s := by
    intro α _ rows s
    cases rows with
    | none => exact ⟨nofun, fun _ => Finset.empty_subset s⟩
    | some rows => exact ⟨fun h rows' hr => Option.some.inj hr ▸ h, fun h => h rows rfl⟩
  rw [HoldsExactly, HoldsOnly, htables, Option.some.injEq, Option.some.injEq,
    insertAll_eq_iff hevents, insertAll_eq_iff hstrings, hsub, hsub]

/-! ### A database that is its tables -/

def plainSqlite : Sqlite Tables where
  sqlite3Open path := (.ok, path.getD ⟨none, none⟩)
  run := Tables.run
  tables := id

theorem documented_plainSqlite : Documented plainSqlite where
  open_ok _ := rfl
  open_tables path := by
    cases path with
    | none => rfl
    | some t => rfl
  run_status _ _ := rfl
  run_tables _ _ := rfl

/-- One sample of a session, under the name `n`. -/
def oneSample (value : UInt32) : List (Record × UInt32) :=
  [(.string 0 [110], 0), (.event ⟨⟨EV_PROBE_UINT, 1⟩, ⟨0, 0, 0, 12, 0, value⟩⟩, 0)]

theorem readable_oneSample (value : UInt32) : ∀ x ∈ oneSample value, Readable x.1 := by
  simp [oneSample, Readable, stringBufferSize, EV_NEW_STRING, EV_PROBE_UINT]

/-- The same session uplifted again, over what the first uplift left. -/
theorem uplift_iff_again : ∃ db db', uplift plainSqlite 3 none (emit (oneSample 5)) = some db ∧
    uplift plainSqlite 3 (some db) (emit (oneSample 5)) = some db' ∧
    HoldsExactly db' ((oneSample 5).map Prod.fst) := by
  obtain ⟨db, hdb, hfirst⟩ := uplift_iff documented_plainSqlite none (readable_oneSample 5)
    (by decide) (by decide : (oneSample 5).length < 3)
  obtain ⟨db', hdb', hagain⟩ := uplift_iff documented_plainSqlite (some db) (readable_oneSample 5)
    (by decide) (by decide : (oneSample 5).length < 3)
  obtain ⟨hes, hss⟩ := hfirst.mpr ⟨nofun, nofun⟩
  refine ⟨db, db', hdb, hdb', hagain.mpr ⟨?_, ?_⟩⟩
  · exact fun rows hrows => (Option.some.inj (hrows.symm.trans hes)).subset
  · exact fun rows hrows => (Option.some.inj (hrows.symm.trans hss)).subset

/-- REFUTED: a second session under the same name is not what its uplift leaves. -/
theorem secondSession_mixed : ∃ db db', uplift plainSqlite 3 none (emit (oneSample 5)) = some db ∧
    uplift plainSqlite 3 (some db) (emit (oneSample 7)) = some db' ∧
    DistinctIds ((oneSample 7).map Prod.fst) ∧
    ¬ HoldsExactly db' ((oneSample 7).map Prod.fst) := by
  obtain ⟨db, hdb, hfirst⟩ := uplift_tables documented_plainSqlite none (readable_oneSample 5)
    (by decide : (oneSample 5).length < 3)
  obtain ⟨db', hdb', hsecond⟩ := uplift_tables documented_plainSqlite (some db)
    (readable_oneSample 7) (by decide : (oneSample 7).length < 3)
  refine ⟨db, db', hdb, hdb', by decide, ?_⟩
  obtain rfl : db = _ := hfirst
  obtain rfl : db' = _ := hsecond
  rintro ⟨hevents, -⟩
  revert hevents
  decide

end Esp.Uplift
