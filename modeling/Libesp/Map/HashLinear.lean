import Libesp.Map.HashGrowth
import Libesp.Map.OrderedMap
import Libesp.Schemes.Linear

/-! @esp map | name:PointerHash | scheme:linearizability |
    source:src/map/pointer_hash.h, src/Context.cpp (MapStringToReference)

    The string table with one call for each pointer at a time, beside any calls for other pointers.
    What goes wrong between threads goes wrong between calls for the same pointer, so then the table
    is the map that numbers its keys as they come: every call takes effect at one of its steps, and
    the calls answer as the map does when it is asked in that order.

        Get     the load of the value         nothing found: the last load of the probe
        Put     the fetch_add on nextIndex    own key found, or back at the start: that load or CAS

    The draws, and not the claims, are the order of the keys. A `Put` may come round a table that is
    full of claims before the last index is drawn; that is one key too early for the map. -/

namespace Esp.HashThreads
open Memory Probe PointerHash Machine Objects

variable {T K : Type}

/-- The pointer of the call that a thread is in. -/
def Prober.key : Prober K → Option K
  | .idle => none
  | .getPtr _ p _ | .getValue _ p _ | .putPtr _ p _ | .putCas _ p _ | .putDraw _ p _
  | .putStore _ p _ _ | .offer p _ => p

/-- The thread has claimed a slot and not drawn its index. -/
def Prober.drawing : Prober K → Bool
  | .putDraw .. => true
  | _ => false

/-- The call of the map that a call of the table is. -/
def requestOf (c : Caller) (viaPut : Bool) (k : K) : MapCall K :=
  match c with
  | .direct => if viaPut then .put k else .get k
  | .map => .lookup k

/-- A call of the table for a string, with its answer. -/
def entryOf (c : Caller) (viaPut : Bool) (p : Option K) (r : UInt32) : Option (MapCall K × UInt32) :=
  p.map fun k => (requestOf c viaPut k, r)

/-- The answer that a thread in its call has already. -/
def Prober.pending : Prober K → Option (MapCall K × UInt32)
  | .putStore c p _ i => entryOf c true p (UInt32.ofNat i)
  | .offer p r => entryOf .map true p r
  | _ => none

/-- The keys, in the order of their numbers. -/
def State.names (s : State T K) : List K := s.drawn.filterMap Prod.fst

variable [DecidableEq T]

/-- The calls of thread `t` that have returned, with their answers. -/
def State.returnedTo (s : State T K) (t : T) : List (MapCall K × UInt32) :=
  (s.returned.filter fun x => x.thread = t).filterMap fun x =>
    entryOf x.caller x.viaPut x.ptr x.ref

/-- Its calls that have taken effect: those, and the one it is in when that has its answer. -/
def State.answeredTo (s : State T K) (t : T) : List (MapCall K × UInt32) :=
  s.returnedTo t ++ (s.thread t).pending.toList

variable [DecidableEq K] (sh : Shape K)

/-- `Put` is about to be back at its start. -/
def Prober.Rounds (tbl : Table K) : Prober K → Prop
  | .putPtr _ p idx => Taken tbl p idx ∧ sh.next p idx = none
  | .putCas _ p idx => tbl.ptr idx ≠ none ∧ sh.next p idx = none
  | _ => False

/-- Calls for one string do not overlap, the CAS fails on taken slots only, and a `Put` comes round the
    table only when every index is drawn. -/
def Orderly (s : State T K) : Action T K → Prop
  | .get _ p | .put _ p | .mapStringToReference _ p => p = none ∨ ∀ u, (s.thread u).key ≠ p
  | .go t => (s.thread t).Rounds sh s.table → ∀ u, (s.thread u).drawing = false
  | .casFails _ => False

instance (tbl : Table K) : DecidablePred (Prober.Rounds sh tbl)
  | .putPtr _ p idx =>
    inferInstanceAs (Decidable ((tbl.ptr idx ≠ none ∧ tbl.ptr idx ≠ p) ∧ sh.next p idx = none))
  | .putCas _ p idx => inferInstanceAs (Decidable (tbl.ptr idx ≠ none ∧ sh.next p idx = none))
  | .idle | .getPtr .. | .getValue .. | .putDraw .. | .putStore .. | .offer .. => isFalse id

instance [Fintype T] (s : State T K) : DecidablePred (Orderly sh s)
  | .get _ p | .put _ p | .mapStringToReference _ p =>
    inferInstanceAs (Decidable (p = none ∨ ∀ u, (s.thread u).key ≠ p))
  | .go t => inferInstanceAs
    (Decidable ((s.thread t).Rounds sh s.table → ∀ u, (s.thread u).drawing = false))
  | .casFails _ => isFalse id

/-- No slot has the string. -/
def Absent (tbl : Table K) (p : Option K) : Prop := ∀ i, tbl.ptr i = p → p = none

/-- What the locals of a thread say when no other thread is in a call for its string. -/
def Prober.KeyOk (tbl : Table K) : Prober K → Prop
  | .getPtr _ p idx => Passed sh.capacity (sh.start p) (Taken tbl p) idx
  | .putPtr .map p _ | .putCas _ p _ => Absent tbl p
  | _ => True

/-- INVARIANT: one call for each string at a time. -/
structure ApartInv (s : State T K) : Prop where
  alone : ∀ t u k, (s.thread t).key = some k → (s.thread u).key = some k → t = u
  locals : ∀ t, (s.thread t).KeyOk sh s.table

/-- The call that takes effect in a thread's next step, with its answer. -/
def Prober.effect (tbl : Table K) : Prober K → Option (MapCall K × UInt32)
  | .getPtr c p idx =>
    if c = .direct ∧ tbl.ptr idx ≠ p ∧ (tbl.ptr idx = none ∨ sh.next p idx = none) then
      entryOf c false p noRef
    else none
  | .getValue c p idx => entryOf c false p (UInt32.ofNat (tbl.value idx))
  | .putPtr c p idx =>
    if tbl.ptr idx = p ∨ tbl.ptr idx ≠ none ∧ sh.next p idx = none then entryOf c true p noRef
    else none
  | .putCas c p idx =>
    if tbl.ptr idx ≠ none ∧ sh.next p idx = none then entryOf c true p noRef else none
  | .putDraw c p _ => entryOf c true p (UInt32.ofNat tbl.nextIndex)
  | _ => none

/-- The calls that take effect in a step, each with its thread and its answer. -/
def effects (s : State T K) : Action T K → List (T × MapCall K × UInt32)
  | .go t => ((s.thread t).effect sh s.table).toList.map (Prod.mk t)
  | _ => []

/-- The calls of a run in the order in which they take effect. -/
def linearized (as : List (Action T K)) : List (T × MapCall K × UInt32) :=
  (trace (step sh) State.new as).flatMap fun x => effects sh x.1 x.2

/-! ### Steps of a thread in its call -/

/-- The steps of `go`, each with all that it has tested and the call that takes effect in it. -/
inductive Goes (s : State T K) (t : T) : Option (MapCall K × UInt32) → State T K → Prop
  | hit {c p idx} (h : s.thread t = .getPtr c p idx) (hp : s.table.ptr idx = p) :
    Goes s t none (s.goto t (.getValue c p idx))
  | probe {c p idx idx'} (h : s.thread t = .getPtr c p idx) (ht : Taken s.table p idx)
      (hn : sh.next p idx = some idx') : Goes s t none (s.goto t (.getPtr c p idx'))
  | miss {p idx} (h : s.thread t = .getPtr .direct p idx) (hp : s.table.ptr idx ≠ p)
      (hm : s.table.ptr idx = none ∨ sh.next p idx = none) :
    Goes s t (entryOf .direct false p noRef) (s.ret t .direct p noRef false)
  | missMap {p idx} (h : s.thread t = .getPtr .map p idx) (hp : s.table.ptr idx ≠ p)
      (hm : s.table.ptr idx = none ∨ sh.next p idx = none) :
    Goes s t none (s.goto t (.putPtr .map p (sh.start p)))
  | load {c p idx} (h : s.thread t = .getValue c p idx) :
    Goes s t (entryOf c false p (UInt32.ofNat (s.table.value idx)))
      (s.afterGet sh t c p (UInt32.ofNat (s.table.value idx)))
  | found {c p idx} (h : s.thread t = .putPtr c p idx) (hp : s.table.ptr idx = p) :
    Goes s t (entryOf c true p noRef) (s.ret t c p noRef true)
  | free {c p idx} (h : s.thread t = .putPtr c p idx) (hp : s.table.ptr idx ≠ p)
      (hf : s.table.ptr idx = none) : Goes s t none (s.goto t (.putCas c p idx))
  | pass {c p idx idx'} (h : s.thread t = .putPtr c p idx) (ht : Taken s.table p idx)
      (hn : sh.next p idx = some idx') : Goes s t none (s.goto t (.putPtr c p idx'))
  | lose {c p idx idx'} (h : s.thread t = .putCas c p idx) (hf : s.table.ptr idx ≠ none)
      (hn : sh.next p idx = some idx') : Goes s t none (s.goto t (.putPtr c p idx'))
  | round {c p idx} (h : s.thread t = .putPtr c p idx ∧ Taken s.table p idx ∨
      s.thread t = .putCas c p idx ∧ s.table.ptr idx ≠ none) (hn : sh.next p idx = none) :
    Goes s t (entryOf c true p noRef) (s.ret t c p noRef true)
  | claim {c p idx} (h : s.thread t = .putCas c p idx) (hf : s.table.ptr idx = none) :
    Goes s t none { s.goto t (.putDraw c p idx) with
      table := { s.table with ptr := Function.update s.table.ptr idx p } }
  | draw {c p idx} (h : s.thread t = .putDraw c p idx) :
    Goes s t (entryOf c true p (UInt32.ofNat s.table.nextIndex))
      { s.goto t (.putStore c p idx s.table.nextIndex) with
        table := { s.table with nextIndex := s.table.nextIndex + 1 }
        drawn := s.drawn ++ [(p, idx)] }
  | store {c p idx i} (h : s.thread t = .putStore c p idx i) :
    Goes s t none ({ s with
      table := { s.table with value := Function.update s.table.value idx i } }.afterPut
        t c p (UInt32.ofNat i))
  | enqueue {p r} (h : s.thread t = .offer p r) :
    Goes s t none { s.ret t .map p r true with queued := s.queued ++ [(p, r)] }

variable {sh} {s s' : State T K} {t u : T} {e : Option (MapCall K × UInt32)}

/-- A `Get` that finds nothing answers its caller, or goes on to `Put`. -/
theorem goes_miss {c : Caller} {p : Option K} {idx : ℕ} (ht : s.thread t = .getPtr c p idx)
    (hp : s.table.ptr idx ≠ p) (hm : s.table.ptr idx = none ∨ sh.next p idx = none) :
    Goes sh s t ((s.thread t).effect sh s.table) (s.afterGet sh t c p noRef) := by
  rw [ht, Prober.effect]
  cases c with
  | direct =>
    rw [if_pos ⟨rfl, hp, hm⟩]
    exact .miss ht hp hm
  | map =>
    rw [if_neg fun h => by cases h.1]
    exact .missMap ht hp hm

/-- A `Put` goes past a slot that is taken, or is back at its start. -/
theorem goes_nextStep {c : Caller} {p : Option K} {idx : ℕ}
    (h : s.thread t = .putPtr c p idx ∧ Taken s.table p idx ∨
      s.thread t = .putCas c p idx ∧ s.table.ptr idx ≠ none) :
    Goes sh s t ((s.thread t).effect sh s.table) (s.nextStep sh t c p idx) := by
  rcases nextStep_cases sh s t c p idx with ⟨idx', hn, he⟩ | ⟨hn, he⟩
  · have hgoes : ¬ sh.next p idx = none := by
      rw [hn]
      exact Option.some_ne_none idx'
    rw [he]
    rcases h with ⟨ht, htk⟩ | ⟨ht, hf⟩
    · rw [ht, Prober.effect, if_neg (not_or.mpr ⟨htk.2, fun h => hgoes h.2⟩)]
      exact .pass ht htk hn
    · rw [ht, Prober.effect, if_neg fun h => hgoes h.2]
      exact .lose ht hf hn
  · have heffect : (s.thread t).effect sh s.table = entryOf c true p noRef := by
      rcases h with ⟨ht, htk⟩ | ⟨ht, hf⟩
      · rw [ht, Prober.effect, if_pos (Or.inr ⟨htk.1, hn⟩)]
      · rw [ht, Prober.effect, if_pos ⟨hf, hn⟩]
    rw [he, heffect]
    exact .round h hn

/-- INVERSION: a step of a thread in its call is one of these. -/
theorem go_goes (h : go sh s t = some s') : Goes sh s t ((s.thread t).effect sh s.table) s' := by
  unfold go at h
  cases ht : s.thread t with
  | idle =>
    rw [ht] at h
    cases h
  | getPtr c p idx =>
    rw [ht] at h
    rw [← ht]
    simp only at h
    split at h
    · rename_i hp
      cases h
      rw [ht, Prober.effect, if_neg fun h => h.2.1 hp]
      exact .hit ht hp
    · rename_i hp
      split at h
      · rename_i hf
        cases h
        exact goes_miss ht hp (Or.inl hf)
      · rename_i hf
        split at h
        · rename_i idx' hn
          cases h
          rw [ht, Prober.effect, if_neg]
          · exact .probe ht ⟨hf, hp⟩ hn
          · rintro ⟨-, -, hf' | hn'⟩
            · exact hf hf'
            · rw [hn] at hn'
              cases hn'
        · rename_i hn
          cases h
          exact goes_miss ht hp (Or.inr hn)
  | getValue c p idx =>
    rw [ht] at h
    cases h
    exact .load ht
  | putPtr c p idx =>
    rw [ht] at h
    rw [← ht]
    simp only at h
    split at h
    · rename_i hp
      cases h
      rw [afterPut_noRef, ht, Prober.effect, if_pos (Or.inl hp)]
      exact .found ht hp
    · rename_i hp
      split at h
      · rename_i hf
        cases h
        rw [ht, Prober.effect, if_neg (not_or.mpr ⟨hp, fun h => h.1 hf⟩)]
        exact .free ht hp hf
      · rename_i hf
        cases h
        exact goes_nextStep (Or.inl ⟨ht, hf, hp⟩)
  | putCas c p idx =>
    rw [ht] at h
    rw [← ht]
    simp only at h
    split at h
    · rename_i hf
      cases h
      rw [ht, Prober.effect, if_neg fun h => h.1 hf]
      exact .claim ht hf
    · rename_i hf
      cases h
      exact goes_nextStep (Or.inr ⟨ht, hf⟩)
  | putDraw c p idx =>
    rw [ht] at h
    cases h
    exact .draw ht
  | putStore c p idx i =>
    rw [ht] at h
    cases h
    exact .store ht
  | offer p r =>
    rw [ht] at h
    cases h
    exact .enqueue ht

/-! ### One call for each string -/

omit [DecidableEq T] [DecidableEq K] in
/-- A probe that stops short of its string has not missed it. -/
theorem ChainInv.absent (hc : ChainInv sh s) (he : EntryInv sh s) {p : Option K} {idx : ℕ}
    (hp : Passed sh.capacity (sh.start p) (Taken s.table p) idx) (hne : s.table.ptr idx ≠ p)
    (hm : s.table.ptr idx = none ∨ sh.next p idx = none) : Absent s.table p := by
  intro i hi
  by_contra hsome
  obtain ⟨k, rfl⟩ := Option.ne_none_iff_exists'.mp hsome
  by_cases hf : s.table.ptr idx = none
  · have hhere : i = idx := (hc.entries i k hi).unique hp (fun ht => ht.2 hi) fun ht => ht.1 hf
    exact hne (hhere ▸ hi)
  · have hall := hp.all (sh.start_lt _) ⟨hf, hne⟩ (sh.next_none (hm.resolve_left hf))
    exact (hall i (he.claimed i k hi)).2 hi

omit [DecidableEq T] [DecidableEq K] in
/-- A claim by another thread is not of one's own string. -/
theorem Prober.KeyOk.claim {q : Prober K} (h : q.KeyOk sh s.table) {p : Option K} {idx : ℕ}
    (hf : s.table.ptr idx = none) (hq : q.key ≠ p) :
    q.KeyOk sh { s.table with ptr := Function.update s.table.ptr idx p } := by
  have hkeep : ∀ i, s.table.ptr i ≠ none → Function.update s.table.ptr idx p i = s.table.ptr i :=
    fun i hi => Function.update_of_ne (by rintro rfl; exact hi hf) ..
  have habsent : ∀ p', p' ≠ p → Absent s.table p' →
      Absent { s.table with ptr := Function.update s.table.ptr idx p } p' := by
    intro p' hne ha i hi
    by_cases hidx : i = idx
    · subst hidx
      simp only [Function.update_self] at hi
      exact absurd hi.symm hne
    · simp only [Function.update_of_ne hidx] at hi
      exact ha i hi
  rcases q with _ | ⟨c, p', i⟩ | _ | ⟨_ | _, p', i⟩ | ⟨c, p', i⟩ | _ | _ | _
  case getPtr => exact Passed.mono h fun _ hx => hx.mono hkeep
  case putPtr.map => exact habsent p' hq h
  case putCas => exact habsent p' hq h
  all_goals trivial

omit [DecidableEq K] in
/-- The next place of a thread in its call. -/
theorem ApartInv.goto (h : ApartInv sh s) {pc : Prober K}
    (hkey : pc.key = none ∨ pc.key = (s.thread t).key) (hok : pc.KeyOk sh s.table) :
    ApartInv sh (s.goto t pc) where
  alone := by
    have hold : ∀ u k, ((s.goto t pc).thread u).key = some k → (s.thread u).key = some k := by
      intro u k hu
      by_cases hut : u = t
      · subst hut
        rw [goto_self] at hu
        rcases hkey with hnone | hsame
        · rw [hnone] at hu
          cases hu
        · rw [← hsame, hu]
      · rwa [goto_other pc hut] at hu
    intro u w k hu hw
    exact h.alone u w k (hold u k hu) (hold w k hw)
  locals := by
    intro u
    by_cases hut : u = t
    · subst hut
      rw [goto_self]
      exact hok
    · rw [goto_other pc hut]
      exact h.locals u

omit [DecidableEq K] in
theorem ApartInv.ret (h : ApartInv sh s) {c : Caller} {p : Option K} {r : UInt32} {v : Bool} :
    ApartInv sh (s.ret t c p r v) := by
  have hgo : ApartInv sh (s.goto t .idle) := h.goto (Or.inl rfl) trivial
  exact { hgo with }

omit [DecidableEq K] in
theorem ApartInv.afterPut (h : ApartInv sh s) {c : Caller} {p : Option K} {r : UInt32}
    (hkey : (s.thread t).key = p) : ApartInv sh (s.afterPut t c p r) := by
  rcases afterPut_cases s t c p r with ⟨he, -⟩ | ⟨he, -⟩ | ⟨he, -⟩
  · rw [he]
    exact h.ret
  · rw [he]
    exact h.goto (Or.inr hkey.symm) trivial
  · rw [he]
    exact h.ret

omit [DecidableEq K] in
theorem ApartInv.afterGet (h : ApartInv sh s) {c : Caller} {p : Option K} {r : UInt32}
    (hkey : (s.thread t).key = p) (hmiss : isIndex r = false → Absent s.table p) :
    ApartInv sh (s.afterGet sh t c p r) := by
  cases c with
  | direct => exact h.ret
  | map =>
    rw [State.afterGet]
    split
    · exact h.ret
    · rename_i hi
      exact h.goto (Or.inr hkey.symm) (hmiss (by simpa using hi))

omit [DecidableEq T] [DecidableEq K] in
/-- The slot whose value a thread loads is drawn and stored: the string has no other call. -/
theorem ApartInv.loaded (h : ApartInv sh s) (he : EntryInv sh s) {c : Caller} {k : K} {idx : ℕ}
    (ht : s.thread t = .getValue c (some k) idx) :
    s.drawn[s.table.value idx]? = some (some k, idx) := by
  have hok := he.threads t
  rw [ht] at hok
  refine he.settled (hok k rfl) fun u howes => ?_
  -- who owes the value is in a call for the string
  have hoku := he.threads u
  have hkey : (s.thread u).key = some k := by
    cases hpc : s.thread u with
    | putDraw c' p j =>
      rw [hpc] at howes hoku
      obtain rfl : j = idx := howes
      exact hoku.2.1.symm.trans (hok k rfl)
    | putStore c' p j i =>
      rw [hpc] at howes hoku
      obtain ⟨rfl, -⟩ := howes
      exact (he.key hoku).2.symm.trans (hok k rfl)
    | _ =>
      rw [hpc] at howes
      cases howes
  obtain rfl := h.alone u t k hkey (by rw [ht]; rfl)
  rw [ht] at howes
  cases howes

omit [DecidableEq K] in
/-- STEP: one call for each string at a time. -/
theorem apartInv_goes (h : ApartInv sh s) (he : EntryInv sh s) (hc : ChainInv sh s)
    (hg : Goes sh s t e s') : ApartInv sh s' := by
  have hloc := h.locals t
  have hprobe := hc.probes t
  have hok := he.threads t
  cases hg with
  | hit ht hp => exact h.goto (Or.inr (by rw [ht]; rfl)) trivial
  | probe ht htk hn =>
    rw [ht] at hloc
    obtain ⟨rfl, hne⟩ := sh.next_some hn
    exact h.goto (Or.inr (by rw [ht]; rfl)) (Passed.next (sh.start_lt _) hloc htk hne)
  | miss ht hp hm => exact h.ret
  | missMap ht hp hm =>
    rw [ht] at hloc
    exact h.goto (Or.inr (by rw [ht]; rfl)) (hc.absent he hloc hp hm)
  | @load c p idx ht =>
    refine h.afterGet (by rw [ht]; rfl) fun hi => ?_
    cases p with
    | none => exact fun _ _ => rfl
    | some k =>
      rw [isIndex_ofNat (he.index_lt (h.loaded he ht))] at hi
      cases hi
  | found ht hp => exact h.ret
  | free ht hp hf =>
    rw [ht] at hprobe
    exact h.goto (Or.inr (by rw [ht]; rfl)) (hc.absent he hprobe hp (Or.inl hf))
  | @pass c p idx idx' ht htk hn =>
    rw [ht] at hloc
    refine h.goto (Or.inr (by rw [ht]; rfl)) ?_
    cases c with
    | direct => trivial
    | map => exact hloc
  | @lose c p idx idx' ht hf hn =>
    rw [ht] at hloc
    refine h.goto (Or.inr (by rw [ht]; rfl)) ?_
    cases c with
    | direct => trivial
    | map => exact hloc
  | round ht hn => exact h.ret
  | @claim c p idx ht hf =>
    rw [ht] at hok
    have hgo : ApartInv sh (s.goto t (.putDraw c p idx)) := h.goto (Or.inr (by rw [ht]; rfl)) trivial
    refine ⟨hgo.alone, fun u => ?_⟩
    by_cases hut : u = t
    · subst hut
      simp only [State.goto, Function.update_self]
      trivial
    · refine (hgo.locals u).claim hf fun hkey => hut ?_
      obtain ⟨k, hk⟩ := Option.ne_none_iff_exists'.mp hok.2
      rw [goto_other _ hut, hk] at hkey
      exact h.alone u t k hkey (by rw [ht]; exact hk)
  | @draw c p idx ht =>
    have hgo : ApartInv sh (s.goto t (.putStore c p idx s.table.nextIndex)) :=
      h.goto (Or.inr (by rw [ht]; rfl)) trivial
    exact ⟨hgo.alone, fun u => hgo.locals u⟩
  | @store c p idx i ht =>
    exact ApartInv.afterPut (s := { s with
      table := { s.table with value := Function.update s.table.value idx i } })
      ⟨h.alone, fun u => h.locals u⟩ (by rw [ht]; rfl)
  | @enqueue p r ht =>
    have hret : ApartInv sh (s.ret t .map p r true) := h.ret
    exact ⟨hret.alone, hret.locals⟩

/-! ### The keys in order -/

omit [DecidableEq T] [DecidableEq K] in
theorem EntryInv.map_names (he : EntryInv sh s) : s.names.map some = s.drawn.map Prod.fst := by
  rw [State.names, List.map_filterMap, ← List.filterMap_eq_map]
  refine List.filterMap_congr fun x hx => ?_
  obtain ⟨k, hk⟩ := Option.ne_none_iff_exists'.mp (he.drawn_ok x hx).1
  rw [Function.comp_apply, hk, Option.map_some]

omit [DecidableEq T] [DecidableEq K] in
theorem EntryInv.length_names (he : EntryInv sh s) : s.names.length = s.drawn.length := by
  have hlen := congrArg List.length he.map_names
  rwa [List.length_map, List.length_map] at hlen

omit [DecidableEq T] [DecidableEq K] in
theorem EntryInv.getElem?_names (he : EntryInv sh s) {i idx : ℕ} {k : K}
    (h : s.drawn[i]? = some (some k, idx)) : s.names[i]? = some k := by
  have hat := congrArg (fun l : List (Option K) => l[i]?) he.map_names
  simp only [List.getElem?_map, h, Option.map_some] at hat
  obtain ⟨k', hk', hsome⟩ := Option.map_eq_some_iff.mp hat
  rw [hk', Option.some.inj hsome]

omit [DecidableEq T] [DecidableEq K] in
theorem EntryInv.mem_names (he : EntryInv sh s) {k : K} (h : k ∈ s.names) :
    ∃ idx, s.table.ptr idx = some k := by
  obtain ⟨x, hx, hxk⟩ := List.mem_filterMap.mp h
  exact ⟨x.2, (he.drawn_ok x hx).2.trans hxk⟩

omit [DecidableEq T] [DecidableEq K] in
theorem ChainInv.nodup_names (hc : ChainInv sh s) (he : EntryInv sh s) : s.names.Nodup := by
  refine List.Nodup.of_map some ?_
  rw [he.map_names]
  refine List.Nodup.map_on (fun x hx y hy hxy => Prod.ext hxy ?_) (List.Nodup.of_map _ he.drawn_nodup)
  obtain ⟨hne, hkey⟩ := he.drawn_ok x hx
  obtain ⟨k, hk⟩ := Option.ne_none_iff_exists'.mp hne
  exact hc.slot_unique (hkey.trans hk) ((he.drawn_ok y hy).2.trans (hxy.symm.trans hk))

omit [DecidableEq T] in
/-- A drawn index is the number of its key. -/
theorem ChainInv.numberOf_names (hc : ChainInv sh s) (he : EntryInv sh s) {i idx : ℕ} {k : K}
    (h : s.drawn[i]? = some (some k, idx)) : numberOf s.names k = some i := by
  obtain ⟨hi, hk⟩ := List.getElem?_eq_some_iff.mp (he.getElem?_names h)
  have hidx := (hc.nodup_names he).idxOf_getElem i hi
  rw [hk] at hidx
  rw [numberOf, if_pos (hk ▸ List.getElem_mem hi), hidx]

omit [DecidableEq T] in
theorem EntryInv.numberOf_absent (he : EntryInv sh s) {k : K} (h : Absent s.table (some k)) :
    k ∉ s.names ∧ numberOf s.names k = none := by
  have hk : k ∉ s.names := fun hmem => by
    obtain ⟨idx, hidx⟩ := he.mem_names hmem
    cases h idx hidx
  exact ⟨hk, by rw [numberOf, if_neg hk]⟩

omit [DecidableEq T] [DecidableEq K] in
/-- A full table whose indices are all drawn has a key for every slot. -/
theorem EntryInv.full_names (he : EntryInv sh s) (hfull : ∀ i < sh.capacity, s.table.ptr i ≠ none)
    (hdrawn : ∀ u, (s.thread u).drawing = false) : sh.capacity ≤ s.names.length := by
  have hsub : Finset.range sh.capacity ⊆ (s.drawn.map Prod.snd).toFinset := by
    intro i hi
    obtain ⟨k, hk⟩ := Option.ne_none_iff_exists'.mp (hfull i (Finset.mem_range.mp hi))
    rw [List.mem_toFinset, List.mem_map]
    rcases he.entry i k hk with hd | ⟨⟨u, hu⟩, -⟩
    · exact ⟨_, List.mem_of_getElem? hd, rfl⟩
    · -- an owner has drawn
      have hok := he.threads u
      have hnot := hdrawn u
      cases hpc : s.thread u with
      | putStore c p j i' =>
        rw [hpc] at hu hok
        obtain rfl : j = i := Option.some.inj hu
        exact ⟨_, List.mem_of_getElem? hok, rfl⟩
      | putDraw c p j =>
        rw [hpc] at hnot
        cases hnot
      | _ =>
        rw [hpc] at hu
        cases hu
  have hcard := Finset.card_le_card hsub
  rw [Finset.card_range, List.toFinset_card_of_nodup he.drawn_nodup, List.length_map] at hcard
  rw [he.length_names]
  exact hcard

/-! ### The answers of the map -/

omit [DecidableEq T] in
theorem answered_entryOf {cap : ℕ} {c : Caller} {v : Bool} {p : Option K} {r : UInt32}
    {names names' : List K} (hnull : p = none → names' = names)
    (h : ∀ k, p = some k → orderedMap cap names (requestOf c v k) = (r, names')) :
    Linear.Answered (orderedMap cap) names (entryOf c v p r).toList names' := by
  cases p with
  | none =>
    rw [hnull rfl]
    exact .nil _
  | some k => exact .one (h k rfl)

/-- A key that has a number is answered it. -/
theorem orderedMap_known {cap i : ℕ} {names : List K} {k : K} (h : numberOf names k = some i)
    (c : Caller) : orderedMap cap names (requestOf c false k) = (UInt32.ofNat i, names) := by
  cases c with
  | direct =>
    rw [requestOf, if_neg Bool.false_ne_true, orderedMap, h]
    rfl
  | map =>
    rw [requestOf, orderedMap]
    simp only [h]
    rfl

/-- A key without a number gets none when there is no room. -/
theorem orderedMap_full {cap : ℕ} {names : List K} {k : K} (h : numberOf names k = none)
    (hfull : cap ≤ names.length) (c : Caller) :
    orderedMap cap names (requestOf c true k) = (noRef, names) := by
  have hins : insertNew cap names k = (none, names) := by rw [insertNew, if_pos (Or.inr hfull)]
  cases c with
  | direct =>
    rw [requestOf, if_pos rfl, orderedMap, hins]
    rfl
  | map =>
    rw [requestOf, orderedMap]
    simp only [h, hins]
    rfl

/-- and the next one when there is. -/
theorem orderedMap_new {cap : ℕ} {names : List K} {k : K} (hk : k ∉ names)
    (hroom : names.length < cap) (c : Caller) :
    orderedMap cap names (requestOf c true k) = (UInt32.ofNat names.length, names ++ [k]) := by
  have hins : insertNew cap names k = (some names.length, names ++ [k]) := by
    rw [insertNew, if_neg (not_or.mpr ⟨hk, not_le.mpr hroom⟩)]
  have hnum : numberOf names k = none := by rw [numberOf, if_neg hk]
  cases c with
  | direct =>
    rw [requestOf, if_pos rfl, orderedMap, hins]
    rfl
  | map =>
    rw [requestOf, orderedMap]
    simp only [hnum, hins]
    rfl

omit [DecidableEq T] [DecidableEq K] in
/-- A claimed slot is drawn when the call for its string is past the draw. -/
theorem ApartInv.drawn (h : ApartInv sh s) (he : EntryInv sh s) {k : K} {idx : ℕ}
    (hk : s.table.ptr idx = some k) (hkey : (s.thread t).key = some k)
    (hpast : (s.thread t).drawing = false) : ∃ i : ℕ, s.drawn[i]? = some (some k, idx) := by
  rcases he.entry idx k hk with hd | ⟨⟨u, hu⟩, -⟩
  · exact ⟨_, hd⟩
  · have hok := he.threads u
    cases hpc : s.thread u with
    | putStore c p j i =>
      rw [hpc] at hu hok
      obtain rfl : j = idx := Option.some.inj hu
      have hdraw : s.drawn[i]? = some (p, j) := hok
      exact ⟨i, by rw [hdraw, ← (he.key hdraw).2, hk]⟩
    | putDraw c p j =>
      rw [hpc] at hu hok
      obtain rfl : j = idx := Option.some.inj hu
      obtain rfl := h.alone u t k (by rw [hpc]; exact hok.2.1.symm.trans hk) hkey
      rw [hpc] at hpast
      cases hpast
    | _ =>
      rw [hpc] at hu
      cases hu

omit [DecidableEq K] in
theorem names_afterGet (t : T) (c : Caller) (p : Option K) (r : UInt32) :
    (s.afterGet sh t c p r).names = s.names := by
  rcases afterGet_cases sh s t c p r with ⟨he, -⟩ | he <;> rw [he] <;> rfl

omit [DecidableEq K] in
theorem names_afterPut (t : T) (c : Caller) (p : Option K) (r : UInt32) :
    (s.afterPut t c p r).names = s.names := by
  rcases afterPut_cases s t c p r with ⟨he, -⟩ | ⟨he, -⟩ | ⟨he, -⟩ <;> rw [he] <;> rfl

/-- STEP: what a step of a thread does to the map. -/
theorem goes_answered (he : EntryInv sh s) (hc : ChainInv sh s) (ha : ApartInv sh s)
    (hround : (s.thread t).Rounds sh s.table → ∀ u, (s.thread u).drawing = false)
    (hg : Goes sh s t e s') :
    Linear.Answered (orderedMap sh.capacity) s.names e.toList s'.names := by
  have hloc := ha.locals t
  have hprobe := hc.probes t
  have hok := he.threads t
  cases hg with
  | @miss p idx ht hp hm =>
    rw [ht] at hloc
    refine answered_entryOf (fun _ => rfl) fun k hk => ?_
    obtain ⟨-, hnum⟩ := he.numberOf_absent (hk ▸ hc.absent he hloc hp hm)
    rw [requestOf, if_neg Bool.false_ne_true, orderedMap, hnum]
    rfl
  | @load c p idx ht =>
    rw [names_afterGet]
    refine answered_entryOf (fun _ => rfl) fun k hk => ?_
    subst hk
    exact orderedMap_known (hc.numberOf_names he (ha.loaded he ht)) c
  | @found c p idx ht hp =>
    rw [ht] at hloc
    refine answered_entryOf (fun _ => rfl) fun k hk => ?_
    subst hk
    cases c with
    | map => cases hloc idx hp
    | direct =>
      obtain ⟨i, hi⟩ := ha.drawn he hp (t := t) (by rw [ht]; rfl) (by rw [ht]; rfl)
      have hmem : k ∈ s.names := List.mem_of_getElem? (he.getElem?_names hi)
      rw [requestOf, if_pos rfl, orderedMap, insertNew, if_pos (Or.inl hmem)]
      rfl
  | @round c p idx h hn =>
    -- every slot is another pointer's, and every index is drawn
    have hpassed : Passed sh.capacity (sh.start p) (Taken s.table p) idx := by
      rcases h with ⟨ht, -⟩ | ⟨ht, -⟩ <;> rw [ht] at hprobe <;> exact hprobe
    have htk : Taken s.table p idx := by
      rcases h with ⟨ht, htk⟩ | ⟨ht, hf⟩
      · exact htk
      · rw [ht] at hloc hok
        exact ⟨hf, fun hp => hok.2 (hloc idx hp)⟩
    have hrounds : (s.thread t).Rounds sh s.table := by
      rcases h with ⟨ht, -⟩ | ⟨ht, hf⟩
      · rw [ht]
        exact ⟨htk, hn⟩
      · rw [ht]
        exact ⟨hf, hn⟩
    have hall := hpassed.all (sh.start_lt _) htk (sh.next_none hn)
    have hfull := he.full_names (fun i hi => (hall i hi).1) (hround hrounds)
    refine answered_entryOf (fun _ => rfl) fun k hk => ?_
    subst hk
    have habsent : Absent s.table (some k) := fun i hi => absurd hi (hall i (he.claimed i k hi)).2
    exact orderedMap_full (he.numberOf_absent habsent).2 hfull c
  | @draw c p idx ht =>
    rw [ht] at hok
    obtain ⟨k, rfl⟩ := Option.ne_none_iff_exists'.mp hok.1
    have hroom := (he.draw ht).drawn_length
    rw [List.length_append, List.length_singleton] at hroom
    have hk : k ∉ s.names := by
      intro hmem
      obtain ⟨x, hx, hxk⟩ := List.mem_filterMap.mp hmem
      exact hok.2.2 x hx (hc.slot_unique ((he.drawn_ok x hx).2.trans hxk) hok.2.1)
    have hnames : ({ s.goto t (.putStore c (some k) idx s.table.nextIndex) with
        table := { s.table with nextIndex := s.table.nextIndex + 1 }
        drawn := s.drawn ++ [(some k, idx)] } : State T K).names = s.names ++ [k] :=
      List.filterMap_append
    rw [hnames, he.nextIndex_eq, ← he.length_names]
    refine answered_entryOf (fun hp => by cases hp) fun k' hk' => ?_
    obtain rfl := Option.some.inj hk'
    exact orderedMap_new hk (by rw [he.length_names]; omega) c
  | store ht =>
    rw [names_afterPut]
    exact .nil _
  | _ => exact .nil _

/-! ### The answers of the table -/

omit [DecidableEq K] in
theorem answeredTo_goto (t : T) (pc : Prober K) :
    (s.goto t pc).answeredTo t = s.returnedTo t ++ pc.pending.toList := by
  rw [State.answeredTo, goto_self]
  rfl

omit [DecidableEq K] in
theorem answeredTo_ret (t : T) (c : Caller) (p : Option K) (r : UInt32) (v : Bool) :
    (s.ret t c p r v).answeredTo t = s.returnedTo t ++ (entryOf c v p r).toList := by
  have hpending : ((s.ret t c p r v).thread t).pending = none := by
    rw [State.ret]
    simp only [goto_self]
    rfl
  rw [State.answeredTo, hpending, State.returnedTo, State.ret, List.filter_append,
    List.filterMap_append, ← State.returnedTo, List.filter_singleton, Option.toList_none,
    List.append_nil]
  simp only [decide_true]
  cases hentry : entryOf c v p r with
  | none => simp [hentry]
  | some x => simp [hentry]

omit [DecidableEq K] in
theorem answeredTo_of_pending (h : (s.thread t).pending = none) :
    s.answeredTo t = s.returnedTo t := by
  rw [State.answeredTo, h]
  exact List.append_nil _

omit [DecidableEq K] in
/-- A step in which nothing is answered. -/
theorem answeredTo_on (hold : (s.thread t).pending = none) {pc : Prober K} (hnew : pc.pending = none) :
    (s.goto t pc).answeredTo t = s.answeredTo t ++ (none : Option (MapCall K × UInt32)).toList := by
  rw [answeredTo_goto, hnew, answeredTo_of_pending hold]

omit [DecidableEq K] in
/-- A step in which the call is answered and returns. -/
theorem answeredTo_back (hold : (s.thread t).pending = none) (c : Caller) (p : Option K) (r : UInt32)
    (v : Bool) : (s.ret t c p r v).answeredTo t = s.answeredTo t ++ (entryOf c v p r).toList := by
  rw [answeredTo_ret, answeredTo_of_pending hold]

omit [DecidableEq K] in
/-- STEP: a thread is given the answers of its calls as they take effect. -/
theorem goes_answeredTo (he : EntryInv sh s) (ha : ApartInv sh s) (hg : Goes sh s t e s') :
    s'.answeredTo t = s.answeredTo t ++ e.toList := by
  have hok := he.threads t
  cases hg with
  | hit ht hp => exact answeredTo_on (by rw [ht]; rfl) rfl
  | probe ht htk hn => exact answeredTo_on (by rw [ht]; rfl) rfl
  | miss ht hp hm => exact answeredTo_back (by rw [ht]; rfl) ..
  | missMap ht hp hm => exact answeredTo_on (by rw [ht]; rfl) rfl
  | @load c p idx ht =>
    have hold : (s.thread t).pending = none := by
      rw [ht]
      rfl
    cases c with
    | direct => exact answeredTo_back hold ..
    | map =>
      rw [State.afterGet]
      cases p with
      | none =>
        split
        · exact answeredTo_back hold ..
        · exact answeredTo_on hold rfl
      | some k =>
        rw [if_pos (isIndex_ofNat (he.index_lt (ha.loaded he ht)))]
        exact answeredTo_back hold ..
  | found ht hp => exact answeredTo_back (by rw [ht]; rfl) ..
  | free ht hp hf => exact answeredTo_on (by rw [ht]; rfl) rfl
  | pass ht htk hn => exact answeredTo_on (by rw [ht]; rfl) rfl
  | lose ht hf hn => exact answeredTo_on (by rw [ht]; rfl) rfl
  | round h hn =>
    exact answeredTo_back (by rcases h with ⟨ht, -⟩ | ⟨ht, -⟩ <;> rw [ht] <;> rfl) ..
  | @claim c p idx ht hf =>
    have hgo : (s.goto t (.putDraw c p idx)).answeredTo t = _ :=
      answeredTo_on (by rw [ht]; rfl) rfl
    exact hgo
  | @draw c p idx ht =>
    rw [answeredTo_of_pending (s := s) (by rw [ht]; rfl)]
    exact answeredTo_goto (s := s) t (.putStore c p idx s.table.nextIndex)
  | @store c p idx i ht =>
    -- the answer that was pending is returned, or offered first
    rw [ht] at hok
    have hpending : s.answeredTo t = s.returnedTo t ++ (entryOf c true p (UInt32.ofNat i)).toList := by
      rw [State.answeredTo, ht]
      rfl
    rw [hpending, Option.toList_none, List.append_nil]
    cases c with
    | direct => exact answeredTo_ret (s := { s with
        table := { s.table with value := Function.update s.table.value idx i } }) ..
    | map =>
      rw [State.afterPut, if_pos (isIndex_ofNat (he.index_lt hok))]
      exact answeredTo_goto (s := { s with
        table := { s.table with value := Function.update s.table.value idx i } }) ..
  | @enqueue p r ht =>
    have hpending : s.answeredTo t = s.returnedTo t ++ (entryOf .map true p r).toList := by
      rw [State.answeredTo, ht]
      rfl
    rw [hpending, Option.toList_none, List.append_nil]
    exact answeredTo_ret (s := s) t .map p r true

omit [DecidableEq K] in
theorem answeredTo_goto_other (h : u ≠ t) (pc : Prober K) :
    (s.goto t pc).answeredTo u = s.answeredTo u := by
  rw [State.answeredTo, goto_other pc h]
  rfl

omit [DecidableEq K] in
theorem answeredTo_ret_other (h : u ≠ t) (c : Caller) (p : Option K) (r : UInt32) (v : Bool) :
    (s.ret t c p r v).answeredTo u = s.answeredTo u := by
  have hthread : (s.ret t c p r v).thread u = s.thread u := goto_other .idle h
  rw [State.answeredTo, hthread, State.returnedTo, State.ret, List.filter_append,
    List.filter_singleton, decide_eq_false (Ne.symm h), cond_false, List.append_nil]
  rfl

omit [DecidableEq K] in
/-- FRAME: the answers of the other threads. -/
theorem goes_answeredTo_other (h : u ≠ t) (hg : Goes sh s t e s') :
    s'.answeredTo u = s.answeredTo u := by
  cases hg with
  | hit | probe | missMap | free | pass | lose => exact answeredTo_goto_other h _
  | miss | found | round => exact answeredTo_ret_other h ..
  | @load c p idx ht =>
    rcases afterGet_cases sh s t c p (UInt32.ofNat (s.table.value idx)) with ⟨hret, -⟩ | hgo
    · rw [hret]
      exact answeredTo_ret_other h ..
    · rw [hgo]
      exact answeredTo_goto_other h _
  | @claim c p idx ht hf => exact answeredTo_goto_other (s := s) h (.putDraw c p idx)
  | @draw c p idx ht => exact answeredTo_goto_other (s := s) h (.putStore c p idx s.table.nextIndex)
  | @store c p idx i ht =>
    have hsame : ({ s with
        table := { s.table with value := Function.update s.table.value idx i } } : State T K).answeredTo
          u = s.answeredTo u := rfl
    rcases afterPut_cases { s with table := { s.table with
        value := Function.update s.table.value idx i } } t c p (UInt32.ofNat i) with
      ⟨hret, -⟩ | ⟨hgo, -⟩ | ⟨hret, -⟩
    · rw [hret, answeredTo_ret_other h, hsame]
    · rw [hgo, answeredTo_goto_other h, hsame]
    · rw [hret, answeredTo_ret_other h, hsame]
  | @enqueue p r ht => exact answeredTo_ret_other (s := s) h .map p r true

/-! ### Runs -/

variable (sh) in
/-- INVARIANT: the table and its callers, with one call for each string at a time. -/
structure LinearInv (s : State T K) : Prop where
  entries : EntryInv sh s
  free : FreeZero s
  chains : ChainInv sh s
  apart : ApartInv sh s

omit [DecidableEq T] [DecidableEq K] in
theorem linearInv_new : LinearInv sh (State.new : State T K) where
  entries := entryInv_new
  free := fun _ _ => rfl
  chains := chainInv_new
  apart := ⟨fun _ _ _ hk => (by cases hk), fun _ => trivial⟩

omit [DecidableEq K] in
/-- A call for a string that no other call is for. -/
theorem ApartInv.call (h : ApartInv sh s) {pc : Prober K} (hkey : pc.key = none ∨
    ∀ w, (s.thread w).key ≠ pc.key) (hok : pc.KeyOk sh s.table) : ApartInv sh (s.goto t pc) where
  alone := by
    -- the caller of the new call is the only one
    have honly : ∀ w k, pc.key = some k → ((s.goto t pc).thread w).key = some k → w = t := by
      intro w k hpc hw
      by_contra hwt
      rw [goto_other pc hwt] at hw
      rcases hkey with hnone | hfree
      · rw [hnone] at hpc
        cases hpc
      · exact hfree w (hw.trans hpc.symm)
    intro u w k hu hw
    by_cases hut : u = t
    · subst hut
      rw [goto_self] at hu
      exact (honly w k hu hw).symm
    · by_cases hwt : w = t
      · subst hwt
        rw [goto_self] at hw
        exact honly u k hw hu
      · rw [goto_other pc hut] at hu
        rw [goto_other pc hwt] at hw
        exact h.alone u w k hu hw
  locals := by
    intro w
    by_cases hwt : w = t
    · subst hwt
      rw [goto_self]
      exact hok
    · rw [goto_other pc hwt]
      exact h.locals w

variable {a : Action T K}

/-- A step is a call that nothing tells apart from its thread being idle, or one of a thread in its
    call. -/
theorem step_cases (hs : step sh s a = some s') (hord : Orderly sh s a) :
    (∃ t pc, s.thread t = .idle ∧ s' = s.goto t pc ∧ effects sh s a = [] ∧ pc.pending = none ∧
      (pc.key = none ∨ ∀ w, (s.thread w).key ≠ pc.key) ∧ pc.KeyOk sh s.table) ∨
    ∃ t, a = .go t ∧ Goes sh s t ((s.thread t).effect sh s.table) s' := by
  cases a with
  | get t p =>
    simp only [step] at hs
    split at hs
    · rename_i ht
      cases hs
      exact Or.inl ⟨t, _, ht, rfl, rfl, rfl, hord, passed_start (sh.start_lt p)⟩
    · cases hs
  | put t p =>
    simp only [step] at hs
    split at hs
    · rename_i ht
      cases hs
      exact Or.inl ⟨t, _, ht, rfl, rfl, rfl, hord, trivial⟩
    · cases hs
  | mapStringToReference t p =>
    simp only [step] at hs
    split at hs
    · rename_i ht
      cases hs
      exact Or.inl ⟨t, _, ht, rfl, rfl, rfl, hord, passed_start (sh.start_lt p)⟩
    · cases hs
  | go t => exact Or.inr ⟨t, rfl, go_goes hs⟩
  | casFails t => cases hord

/-- STEP: one step of a thread. -/
theorem linearInv_step (h : LinearInv sh s) (hord : Orderly sh s a) (hs : step sh s a = some s') :
    LinearInv sh s' := by
  have hloses : LosesToOther s a := by
    cases a with
    | go t =>
      intro x hx hp
      have hloc := h.apart.locals t
      have hok := h.entries.threads t
      cases hpc : s.thread t with
      | putCas c p idx =>
        rw [hpc] at hx hloc hok
        obtain rfl := Option.some.inj hx
        exact hok.2 (hloc idx hp)
      | _ =>
        rw [hpc] at hx
        cases hx
    | casFails t => cases hord
    | _ => trivial
  obtain ⟨hentries, hfree⟩ := entryInv_moves h.entries h.free (step_moves hs)
  refine ⟨hentries, hfree, chainInv_moves h.chains hloses (step_moves hs), ?_⟩
  rcases step_cases hs hord with ⟨t, pc, -, rfl, -, -, hkey, hok⟩ | ⟨t, -, hg⟩
  · exact h.apart.call hkey hok
  · exact apartInv_goes h.apart h.entries h.chains hg

/-- STEP: the map and the threads see the same calls with the same answers. -/
theorem linear_step (h : LinearInv sh s) (hord : Orderly sh s a) (hs : step sh s a = some s') :
    Linear.Answered (orderedMap sh.capacity) s.names ((effects sh s a).map Prod.snd) s'.names ∧
      ∀ u, s'.answeredTo u =
        s.answeredTo u ++ ((effects sh s a).filter fun x => x.1 = u).map Prod.snd := by
  rcases step_cases hs hord with ⟨t, pc, ht, rfl, hnone, hpending, -, -⟩ | ⟨t, rfl, hg⟩
  · rw [hnone]
    refine ⟨.nil _, fun u => ?_⟩
    rw [List.filter_nil, List.map_nil, List.append_nil]
    by_cases hut : u = t
    · subst hut
      rw [answeredTo_goto, hpending, answeredTo_of_pending (by rw [ht]; rfl)]
      exact List.append_nil _
    · exact answeredTo_goto_other hut pc
  · have hsnd : (effects sh s (.go t)).map Prod.snd = ((s.thread t).effect sh s.table).toList := by
      rw [effects, List.map_map]
      exact List.map_id _
    refine ⟨hsnd ▸ goes_answered h.entries h.chains h.apart hord hg, fun u => ?_⟩
    by_cases hut : u = t
    · subst hut
      have hall : (effects sh s (.go u)).filter (fun x => x.1 = u) = effects sh s (.go u) := by
        rw [List.filter_eq_self]
        intro x hx
        obtain ⟨y, -, rfl⟩ := List.mem_map.mp hx
        exact decide_eq_true rfl
      rw [hall, hsnd]
      exact goes_answeredTo h.entries h.apart hg
    · have hnil : (effects sh s (.go t)).filter (fun x => x.1 = u) = [] := by
        rw [List.filter_eq_nil_iff]
        intro x hx hxu
        obtain ⟨y, -, rfl⟩ := List.mem_map.mp hx
        exact hut (of_decide_eq_true hxu).symm
      rw [hnil, List.map_nil, List.append_nil]
      exact goes_answeredTo_other hut hg

/-- REFINEMENT: where calls for one string do not overlap and a full table has all its indices, every
    run answers its calls as the map does when it is asked in the order in which they take effect, and
    each thread is given just the answers of its own calls, in order. -/
theorem linearTable_run {as : List (Action T K)} (hr : run (step sh) State.new as = some s)
    (hG : Meets (step sh) (Orderly sh) State.new as) :
    Linear.Answered (orderedMap sh.capacity) [] ((linearized sh as).map Prod.snd) s.names ∧
      ∀ t, ((linearized sh as).filter fun x => x.1 = t).map Prod.snd = s.answeredTo t := by
  refine ⟨?_, fun t => ?_⟩
  · rw [linearized, List.map_flatMap]
    exact Linear.run_answered (I := LinearInv sh) State.names
      (fun s a => (effects sh s a).map Prod.snd)
      (fun _ _ _ hI hg hs => ⟨linearInv_step hI hg hs, (linear_step hI hg hs).1⟩) as hG linearInv_new hr
  · rw [linearized, List.filter_flatMap, List.map_flatMap]
    exact (Linear.run_history (I := LinearInv sh) (fun s => s.answeredTo t)
      (fun s a => ((effects sh s a).filter fun x => x.1 = t).map Prod.snd)
      (fun _ _ _ hI hg hs => ⟨linearInv_step hI hg hs, (linear_step hI hg hs).2 t⟩) as hG
      linearInv_new hr).symm

/-- Two slots, in which every probe starts at the first. -/
def twoSlots : Shape ℕ := ⟨2, fun _ => 0, fun _ => by decide, by decide⟩

/-- Two names that meet in the first slot; who claims it draws second. Then one name too many, asked for
    and put, beside the first two again. -/
def crossedDraws : List (Action Bool ℕ) :=
  [.mapStringToReference false (some 10), .mapStringToReference true (some 20)] ++
  goes false 2 ++ goes true 2 ++ goes false 1 ++ goes true 4 ++ goes false 3 ++ goes true 2 ++
  [.get true (some 30), .mapStringToReference false (some 10)] ++ goes true 2 ++ goes false 2 ++
  [.put true (some 20), .put false (some 30)] ++ goes true 2 ++ goes false 2

theorem linearTable_run_crossedDraws : ∃ s : State Bool ℕ,
    run (step twoSlots) State.new crossedDraws = some s ∧
    linearized twoSlots crossedDraws =
      [(true, .lookup 20, 0), (false, .lookup 10, 1), (true, .get 30, noRef),
        (false, .lookup 10, 1), (true, .put 20, noRef), (false, .put 30, noRef)] ∧
    Linear.Answered (orderedMap 2) [] ((linearized twoSlots crossedDraws).map Prod.snd) s.names ∧
    s.answeredTo false = [(.lookup 10, 1), (.lookup 10, 1), (.put 30, noRef)] := by
  refine ⟨_, rfl, by decide, ?_, by decide⟩
  exact (@linearTable_run Bool ℕ _ _ twoSlots _ crossedDraws rfl (by decide)).1

end Esp.HashThreads
