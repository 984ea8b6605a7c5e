import Libesp.Uplift.GrowingFile
import Libesp.Uplift.SessionFile

/-! @esp uplift | name:esp_uplift, RawEventWriter | scheme:run |
    source:src/uplift/uplift.cpp, src/Context.cpp (Zone, End, Sample), src/EventStreamIO.cpp

    What the tables of a session that was cut off are good for. A zone is offered when it ends, so what
    was recorded in it has been offered before it; the file keeps that order, and a cut takes away from
    the end only.

        calls   zone a   zone b   sample c   end b   end a
        ring                         c         b       a
        file                      c    b  │  a             cut: b is there whole, a is not

    So a zone that has a row has a row for everything that was accepted from it (`wholeZones_run`). -/

namespace Esp.Uplift
open Event PointerHash Keyed Machine
open Context (Recorder Process ProfileContext Junk Scene Shows oneLetter steady zoneName
  openedByTrue)

/-- What comes before an element of a list without duplicates comes before it in a part of the list, and
    so it is in every front of the part that has the element. -/
theorem mem_front {α : Type} {whole part front l₁ l₂ : List α} {x z : α} (hnodup : whole.Nodup)
    (hwhole : whole = l₁ ++ x :: l₂) (hz : z ∈ l₂) (hpart : part.Sublist whole)
    (hfront : front <+: part) (hzfront : z ∈ front) (hx : x ∈ part) : x ∈ front := by
  obtain ⟨back, rfl⟩ := hfront
  by_contra hnot
  have hback : x ∈ back := (List.mem_append.mp hx).resolve_left hnot
  obtain ⟨r₁, r₂, hr, h₁, h₂⟩ := List.append_sublist_iff.mp hpart
  have hz₁ : z ∈ r₁ := h₁.subset hzfront
  have hx₂ : x ∈ r₂ := h₂.subset hback
  have hapart₁ := (List.nodup_append.mp (hwhole ▸ hnodup)).2.2
  have hapart₂ := (List.nodup_append.mp (hr ▸ hnodup)).2.2
  -- `z` would be before `x` as well
  have hbefore : z ∈ l₁ → False := fun hz₀ => hapart₁ z hz₀ z (List.mem_cons_of_mem x hz) rfl
  rcases List.append_eq_append_iff.mp (hr.symm.trans hwhole) with ⟨c, hl₁, -⟩ | ⟨c, hr₁, hcons⟩
  · exact hbefore (hl₁ ▸ List.mem_append_left c hz₁)
  · cases c with
    | nil => exact hbefore (by rwa [hr₁, List.append_nil] at hz₁)
    | cons y c =>
      obtain ⟨rfl, -⟩ := List.cons.inj hcons
      exact hapart₂ x (hr₁ ▸ List.mem_append_right l₁ List.mem_cons_self) x hx₂ rfl

variable {T K : Type} [DecidableEq T] [DecidableEq K] {sh : Shape K} {mem : K → List UInt8}
  {disk : ℕ → ℕ} {s s' : Recorder T K} {P P₀ : Process T K} {C : ProfileContext K} {junk : Junk K}
  {main : T} {buffer : ℤ → ProfileEvent} {fuel : ℕ} {as : List (SessionAction T K)}

/-- RUN: in the order in which a session offers its events, what was recorded in a zone comes before
    the zone. -/
theorem offers_before_parent (hinit : P₀.espInit junk main = some P)
    (hr : run (sessionStep sh mem disk fuel) (Recorder.new P junk buffer) as = some s)
    (hC : s.process.context = some C) (hn : C.nextMessageID ≤ 4294967296)
    {l₁ l₂ : List ProfileEvent} {ev z : ProfileEvent} (hl : s.process.offers = l₁ ++ ev :: l₂)
    (hz : z ∈ s.process.offers) (hparent : ev.data.parentEventRef = z.header.id) : z ∈ l₂ := by
  obtain ⟨D, S, h, hparents, hids, hgiven⟩ := shows_sessionRun
    (I := fun S => S.Parents ∧ S.Ids ∧ S.Given)
    (fun _ _ hS hm => ⟨hS.1.moves hm, hS.2.1.moves hm, hS.2.2.moves hm⟩)
    ⟨Scene.parents_start, Scene.ids_start, Scene.given_start⟩ hinit hr
  obtain rfl := Option.some.inj (hC.symm.trans h.context)
  exact h.before_parent hparents hids hgiven hn hl hz hparent

/-- CORRECT: cut the file of a session at any moment between passes, or at its end, and at any byte, and
    uplift what is left into a new database. Its events are the first that the session accepted, and every event that
    was accepted from a zone that has a row has a row too. -/
theorem wholeZones_run {Db : Type} {sq : Sqlite Db} (hsq : Documented sq)
    (hinit : P₀.espInit junk main = some P)
    (hr : run (sessionStep sh mem disk fuel) (Recorder.new P junk buffer) as = some s)
    (hE : (acceptedEvents sh mem disk fuel (Recorder.new P junk buffer) as).length < 2147483647)
    (hS : (acceptedStrings sh mem disk fuel (Recorder.new P junk buffer) as).length < 2147483647)
    (htexts : ∀ q ∈ acceptedStrings sh mem disk fuel (Recorder.new P junk buffer) as,
      Readable (.string q.id (mem q.ptr)))
    (hend : s' = s ∨ s.finish mem disk fuel = some s')
    (hC : s.process.context = some C) (hn : C.nextMessageID ≤ 4294967296)
    {file : List (Record × UInt32)} (hfile : file.map Prod.fst = s'.writer.outputFile) (n : ℕ) {m : ℕ}
    (hm : file.length < m) :
    ∃ db front, uplift sq m none ((emit file).take n) = some db ∧
      (sq.tables db).events = some (front.map eventRow).toFinset ∧
      front <+: acceptedEvents sh mem disk fuel (Recorder.new P junk buffer) as ∧
      ∀ z ∈ front, ∀ ev ∈ acceptedEvents sh mem disk fuel (Recorder.new P junk buffer) as,
        ev.data.parentEventRef = z.header.id → ev ∈ front := by
  obtain ⟨hevents, -, hall⟩ := file_readable hinit hr hE hS htexts hend
  obtain ⟨hsub, -⟩ := acceptedEvents_offers hinit hr
  have hids := offers_ids hinit hr hC hn
  have hreadable : ∀ x ∈ file, Readable x.1 := fun x hx =>
    hall x.1 (hfile ▸ List.mem_map_of_mem hx)
  obtain ⟨records, hrecords, hsame, -⟩ := cut_records n file
  obtain ⟨db, hdb, htables⟩ := uplift_take hsq none hreadable n hm records hrecords
  have hfront : eventsOf records <+:
      acceptedEvents sh mem disk fuel (Recorder.new P junk buffer) as := by
    rw [hsame]
    refine List.IsPrefix.trans ?_ hevents
    rw [← hfile]
    exact ((inside_initial n file).map Prod.fst).filterMap _
  -- the rows of different events have different keys
  have hkeys : ((eventRows records).map EventRow.eventId).Nodup := by
    have hlater := hids.sublist ((hfront.sublist.trans hsub).map fun ev => ev.header.id)
    rw [eventRows, List.map_map]
    have hmap := hlater.map (f := fun i : UInt32 => (i.toNat : ℤ)) fun i j hij =>
      UInt32.toNat_inj.mp (Int.ofNat.inj hij)
    rwa [List.map_map] at hmap
  refine ⟨db, eventsOf records, hdb, ?_, hfront, ?_⟩
  · rw [htables]
    exact congrArg some ((insertAll_eq_iff hkeys).mpr (Finset.empty_subset _))
  · intro z hz ev hev hparent
    obtain ⟨l₁, l₂, hl⟩ := List.append_of_mem (hsub.subset hev)
    have hzoffers := hsub.subset (hfront.subset hz)
    exact mem_front (List.Nodup.of_map _ hids) hl
      (offers_before_parent hinit hr hC hn hl hzoffers hparent) hsub hfront hz hev

/-- A sample in a zone in a zone, whose end comes last. -/
def nestedSession : List (SessionAction Bool Addr) :=
  [.recorder (.record true 10 (.zone (some zoneName))),
    .recorder (.record true 11 (.zone (some zoneName))),
    .recorder (.record true 12 (.sample (some zoneName) (.int 7))),
    .recorder (.record true 13 .endZone), .recorder (.record true 14 .endZone), .recorder .drain]

/-- Its file, cut in the record of the outer zone. -/
theorem wholeZones_run_nestedSession : ∃ s s' C db, ∃ front : List ProfileEvent,
    run (sessionStep espStrings oneLetter steady 3) briefRecorder nestedSession = some s ∧
      s.finish oneLetter steady 3 = some s' ∧ s.process.context = some C ∧
      uplift plainSqlite (s'.writer.outputFile.length + 1) none
        ((emit (s'.writer.outputFile.map fun r => (r, 0))).take 100) = some db ∧
      (plainSqlite.tables db).events = some (front.map eventRow).toFinset ∧
      ∀ z ∈ front, ∀ ev ∈ acceptedEvents espStrings oneLetter steady 3 briefRecorder nestedSession,
        ev.data.parentEventRef = z.header.id → ev ∈ front := by
  have hids : ((run (sessionStep espStrings oneLetter steady 3) briefRecorder nestedSession).bind
      fun s => (s.finish oneLetter steady 3).bind fun s' => s.process.context.map fun C =>
        (s'.writer.outputFile.length, C.nextMessageID)) = some (4, 4) := by
    decide +kernel
  obtain ⟨s, hr, hs⟩ := Option.bind_eq_some_iff.mp hids
  obtain ⟨s', hend, hC'⟩ := Option.bind_eq_some_iff.mp hs
  obtain ⟨C, hC, hboth⟩ := Option.map_eq_some_iff.mp hC'
  obtain ⟨-, hnext⟩ := Prod.mk.inj hboth
  have hfile : (s'.writer.outputFile.map fun r => (r, (0 : UInt32))).map Prod.fst =
      s'.writer.outputFile := by
    rw [List.map_map]
    exact List.map_id _
  have hinit : Process.start.espInit (Junk.zero zoneName) true = some openedByTrue := rfl
  obtain ⟨db, front, hdb, hrows, -, hwhole⟩ := wholeZones_run documented_plainSqlite hinit hr
    (by decide +kernel) (by decide +kernel) (by decide +kernel) (Or.inr hend) hC
    (by rw [hnext]; decide) hfile 100 (by rw [List.length_map]; exact Nat.lt_succ_self _)
  exact ⟨s, s', C, db, front, hr, hend, hC, hdb, hrows, hwhole⟩

end Esp.Uplift
