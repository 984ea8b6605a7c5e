import Libesp.Context.Accesses

/-! @esp context | name:ThreadContext, ProfileContext | scheme:composition |
    source:src/Context.cpp (Zone, End, Sample, MapStringToReference)

    What the recording calls hand to the shared structures. A thread is in a call of the table, or of a
    ring, exactly while its recording call is at the place for it, and nobody else is in these for it; so
    the table and the rings see runs of their own machines.

        place       mapping ────── naming ──────┐     offering ── sending
        strings     a call of MapStringToReference    idle
        stringQueue                a TryEnqueue       idle
        eventQueue  idle                              idle         a TryEnqueue -/

namespace Esp.HashThreads
open Probe PointerHash

variable {T K : Type}

/-- The call a thread is in: who called, and the pointer. -/
def Prober.call : Prober K → Option (Caller × Option K)
  | .idle => none
  | .getPtr c p _ | .getValue c p _ | .putPtr c p _ | .putCas c p _ | .putDraw c p _
  | .putStore c p _ _ => some (c, p)
  | .offer p _ => some (.map, p)

/-- A thread that offers a reference offers an index. -/
def Prober.OffersIndex : Prober K → Prop
  | .offer _ r => isIndex r = true
  | _ => True

def Prober.Offers : Prober K → Prop
  | .offer _ _ => True
  | _ => False

theorem idle_of_call {pc : Prober K} (h : pc.call = none) : pc = .idle := by
  cases pc with
  | idle => rfl
  | _ => cases h

theorem busy_of_call {pc : Prober K} {x : Caller × Option K} (h : pc.call = some x) : pc ≠ .idle := by
  rintro rfl
  cases h

variable [DecidableEq T]

/-- The calls that have returned to thread `t`. -/
def State.returnsTo (s : State T K) (t : T) : List (Return T K) :=
  s.returned.filter fun x => x.thread = t

/-- A step of thread `t` in its `MapStringToReference` of `p`: it stays in it, or returns. -/
inductive Turn (s : State T K) (t : T) (p : Option K) (s' : State T K) : Prop
  | on (hcall : (s'.thread t).call = some (.map, p)) (hreturned : s'.returned = s.returned)
      (hfrom : ¬ (s.thread t).Offers) (hnew : (s'.thread t).OffersIndex)
  | offered {r tbl} (hidle : s'.thread t = .idle)
      (hreturned : s'.returned = s.returned ++ [⟨t, .map, p, r, true, tbl⟩])
      (hfrom : s.thread t = .offer p r)
  | back {r v tbl} (hidle : s'.thread t = .idle)
      (hreturned : s'.returned = s.returned ++ [⟨t, .map, p, r, v, tbl⟩])
      (hfrom : ¬ (s.thread t).Offers) (href : v = false ∧ isIndex r = true ∨ v = true ∧ r = noRef)

variable [DecidableEq K] {sh : Shape K} {s s' : State T K} {t : T} {p : Option K}

omit [DecidableEq K] [DecidableEq T] in
/-- A turn is a matter of the threads and of what has returned. -/
theorem Turn.congr {u u' : State T K} (h : Turn u t p u') (hthread : u.thread = s.thread)
    (hreturned : u.returned = s.returned) (hthread' : s'.thread = u'.thread)
    (hreturned' : s'.returned = u'.returned) : Turn s t p s' := by
  cases h with
  | on hcall hr hfrom hnew =>
    exact .on (by rw [hthread']; exact hcall) (by rw [hreturned', hr, hreturned])
      (by rw [← hthread]; exact hfrom) (by rw [hthread']; exact hnew)
  | offered hidle hr hfrom =>
    exact .offered (by rw [hthread']; exact hidle) (by rw [hreturned', hr, hreturned])
      (by rw [← hthread]; exact hfrom)
  | back hidle hr hfrom href =>
    exact .back (by rw [hthread']; exact hidle) (by rw [hreturned', hr, hreturned])
      (by rw [← hthread]; exact hfrom) href

omit [DecidableEq K] in
theorem turn_goto {pc : Prober K} (hfrom : ¬ (s.thread t).Offers)
    (hcall : pc.call = some (.map, p)) (hnew : pc.OffersIndex) : Turn s t p (s.goto t pc) :=
  .on (by rw [goto_self]; exact hcall) rfl hfrom (by rw [goto_self]; exact hnew)

omit [DecidableEq K] in
theorem turn_afterGet (hfrom : ¬ (s.thread t).Offers) (r : UInt32) :
    Turn s t p (s.afterGet sh t .map p r) := by
  rcases afterGet_cases sh s t .map p r with ⟨h, hidx⟩ | h
  · rw [h]
    exact .back (ret_self ..) rfl hfrom (Or.inl ⟨rfl, hidx rfl⟩)
  · rw [h]
    exact turn_goto hfrom rfl trivial

omit [DecidableEq K] in
theorem turn_afterPut (hfrom : ¬ (s.thread t).Offers) (r : UInt32) :
    Turn s t p (s.afterPut t .map p r) := by
  rcases afterPut_cases s t .map p r with ⟨-, h⟩ | ⟨h, hidx⟩ | ⟨h, -⟩
  · cases h
  · rw [h]
    exact turn_goto hfrom rfl hidx
  · rw [h]
    exact .back (ret_self ..) rfl hfrom (Or.inr ⟨rfl, rfl⟩)

omit [DecidableEq K] in
theorem turn_nextStep (hfrom : ¬ (s.thread t).Offers) (idx : ℕ) :
    Turn s t p (s.nextStep sh t .map p idx) := by
  rcases nextStep_cases sh s t .map p idx with ⟨idx', -, h⟩ | ⟨-, h⟩
  · rw [h]
    exact turn_goto hfrom rfl trivial
  · rw [h]
    exact .back (ret_self ..) rfl hfrom (Or.inr ⟨rfl, rfl⟩)

/-- STEP: the accesses of `MapStringToReference`, by what they leave of the call. -/
theorem turn_go (h : go sh s t = some s') (hc : (s.thread t).call = some (.map, p)) :
    Turn s t p s' := by
  unfold go at h
  cases ht : s.thread t with
  | idle => rw [ht] at h; cases h
  | getPtr c q idx =>
    have hfrom : ¬ (s.thread t).Offers := by rw [ht]; exact id
    rw [ht] at hc h
    cases hc
    simp only at h
    split at h
    · cases h
      exact turn_goto hfrom rfl trivial
    · split at h
      · cases h
        exact turn_afterGet hfrom noRef
      · split at h
        · cases h
          exact turn_goto hfrom rfl trivial
        · cases h
          exact turn_afterGet hfrom noRef
  | getValue c q idx =>
    have hfrom : ¬ (s.thread t).Offers := by rw [ht]; exact id
    rw [ht] at hc h
    cases hc
    cases h
    exact turn_afterGet hfrom _
  | putPtr c q idx =>
    have hfrom : ¬ (s.thread t).Offers := by rw [ht]; exact id
    rw [ht] at hc h
    cases hc
    simp only at h
    split at h
    · cases h
      exact turn_afterPut hfrom noRef
    · split at h
      · cases h
        exact turn_goto hfrom rfl trivial
      · cases h
        exact turn_nextStep hfrom idx
  | putCas c q idx =>
    have hfrom : ¬ (s.thread t).Offers := by rw [ht]; exact id
    rw [ht] at hc h
    cases hc
    simp only at h
    split at h
    · cases h
      have hturn : Turn s t p (s.goto t (.putDraw .map p idx)) := turn_goto hfrom rfl trivial
      exact hturn.congr rfl rfl rfl rfl
    · cases h
      exact turn_nextStep hfrom idx
  | putDraw c q idx =>
    have hfrom : ¬ (s.thread t).Offers := by rw [ht]; exact id
    rw [ht] at hc h
    cases hc
    cases h
    have hturn : Turn s t p (s.goto t (.putStore .map p idx s.table.nextIndex)) :=
      turn_goto hfrom rfl trivial
    exact hturn.congr rfl rfl rfl rfl
  | putStore c q idx i =>
    have hfrom : ¬ (s.thread t).Offers := by rw [ht]; exact id
    rw [ht] at hc h
    cases hc
    cases h
    have hturn := @turn_afterPut T K _ { s with
      table := { s.table with value := Function.update s.table.value idx i } } t p hfrom
      (UInt32.ofNat i)
    exact hturn.congr rfl rfl rfl rfl
  | offer q r =>
    rw [ht] at hc h
    cases hc
    cases h
    exact .offered (ret_self .map p r true) rfl ht

/-- The same for a CAS that fails for no reason. -/
theorem turn_casFails (h : step sh s (.casFails t) = some s')
    (hc : (s.thread t).call = some (.map, p)) : Turn s t p s' := by
  simp only [step] at h
  split at h
  · rename_i c q idx ht
    have hfrom : ¬ (s.thread t).Offers := by rw [ht]; exact id
    rw [ht] at hc
    cases hc
    cases h
    exact turn_nextStep hfrom idx
  · cases h

end Esp.HashThreads

namespace Esp.RingThreads
open Cursor LocklessRing Machine

variable {P α : Type} [DecidableEq P] {cap : ℕ} {s q : State P α} {p : P}

/-- The values that producer `p` calls `TryEnqueue` with, in order. -/
def enqueuedBy (p : P) (as : List (Action P α)) : List α :=
  as.filterMap fun a =>
    match a with
    | .enqueue u v => if u = p then some v else none
    | _ => none

theorem enqueue_producer {v : α} (h : step cap s (.enqueue p v) = some q) :
    s.producer p = .idle ∧ q.producer = Function.update s.producer p (.enter v) := by
  obtain ⟨u, hu, rfl⟩ := Option.map_eq_some_iff.mp h
  simp only [act] at hu
  split at hu
  · rename_i hp
    cases hu
    exact ⟨hp, rfl⟩
  · cases hu

theorem produce_producer (h : step cap s (.produce p) = some q) :
    ∃ pc, q.producer = Function.update s.producer p pc := by
  obtain ⟨u, hu, rfl⟩ := Option.map_eq_some_iff.mp h
  obtain ⟨pc, hpc⟩ := produce_goto hu
  exact ⟨pc, hpc⟩

theorem casFails_producer (h : step cap s (.casFails p) = some q) :
    ∃ v f, q.producer = Function.update s.producer p (.loaded v f) := by
  obtain ⟨u, hu, rfl⟩ := Option.map_eq_some_iff.mp h
  simp only [act] at hu
  split at hu
  · cases hu
    exact ⟨_, _, rfl⟩
  · cases hu

/-- The consumer moves no producer. -/
theorem consumer_producer {b : Action P α} (hb : b = .dequeue ∨ (∃ n, b = .dequeueBulk n) ∨ b = .consume)
    (h : step cap s b = some q) : q.producer = s.producer := by
  obtain ⟨u, hu, rfl⟩ := Option.map_eq_some_iff.mp h
  rcases hb with rfl | ⟨n, rfl⟩ | rfl
  · simp only [act] at hu
    split at hu <;> cases hu
    rfl
  · simp only [act] at hu
    split at hu <;> cases hu
    rfl
  · exact (consume_front hu).1

theorem produce_isSome (hbusy : s.producer p ≠ .idle) : (step cap s (.produce p)).isSome = true := by
  rw [step, Option.isSome_map]
  exact produce_enabled hbusy

theorem enqueue_isSome (hidle : s.producer p = .idle) (v : α) :
    (step cap s (.enqueue p v)).isSome = true := by
  rw [step, Option.isSome_map, act, hidle]
  rfl

end Esp.RingThreads

namespace Esp.Accesses
open Event PointerHash LocklessRing Context

variable {T K : Type}

/-- The context in which the thread's call records. -/
def Place.context : Place K → Option ℕ
  | .ready i _ | .numbered i _ _ | .timed i _ _ _ | .mapping i _ _ | .naming i _ _ => some i
  | _ => none

/-- The call of the string table that the thread is in. -/
def Place.request : Place K → Option (HashThreads.Caller × Option K)
  | .mapping _ c _ | .naming _ c _ => some (.map, c.name)
  | _ => none

def Place.Naming : Place K → Prop
  | .naming .. => True
  | _ => False

def Place.Sending : Place K → Prop
  | .sending => True
  | _ => False

def Action.actor : Action T K → Option T
  | .call t _ | .go t | .casFails t | .threadInit t => some t
  | _ => none

/-- INVARIANT: the thread is in the table and in the rings exactly where its place says. -/
structure Placed (s : State T K) (t : T) : Prop where
  context : ∀ i, (s.place t).context = some i → s.threadContext t = some i
  strings : (s.strings.thread t).call = (s.place t).request
  offers : (s.strings.thread t).OffersIndex
  naming : s.stringQueue.producer t = .idle ↔ ¬ (s.place t).Naming
  named : (s.place t).Naming → (s.strings.thread t).Offers
  sending : s.eventQueue.producer t = .idle ↔ ¬ (s.place t).Sending

variable [DecidableEq T]

/-- The recording calls of thread `t`, in order. -/
def State.logOf (s : State T K) (t : T) : List (Entry K) :=
  s.log.filterMap fun x => if x.1 = t then some x.2 else none

/-- A step of another thread, seen from thread `u`. -/
structure Same (s s' : State T K) (u : T) : Prop where
  place : s'.place u = s.place u
  threadContext : s'.threadContext u = s.threadContext u
  prober : s'.strings.thread u = s.strings.thread u
  returns : s'.strings.returnsTo u = s.strings.returnsTo u
  naming : s'.stringQueue.producer u = s.stringQueue.producer u
  sending : s'.eventQueue.producer u = s.eventQueue.producer u
  log : s'.logOf u = s.logOf u

variable {s s' : State T K} {t u : T}

theorem Same.refl (s : State T K) (u : T) : Same s s u := ⟨rfl, rfl, rfl, rfl, rfl, rfl, rfl⟩

theorem Same.trans {s'' : State T K} (h : Same s s' u) (h' : Same s' s'' u) : Same s s'' u where
  place := h'.place.trans h.place
  threadContext := h'.threadContext.trans h.threadContext
  prober := h'.prober.trans h.prober
  returns := h'.returns.trans h.returns
  naming := h'.naming.trans h.naming
  sending := h'.sending.trans h.sending
  log := h'.log.trans h.log

theorem Placed.same (h : Placed s u) (hs : Same s s' u) : Placed s' u where
  context := by rw [hs.place, hs.threadContext]; exact h.context
  strings := by rw [hs.place, hs.prober]; exact h.strings
  offers := by rw [hs.prober]; exact h.offers
  naming := by rw [hs.place, hs.naming]; exact h.naming
  named := by rw [hs.place, hs.prober]; exact h.named
  sending := by rw [hs.place, hs.sending]; exact h.sending

omit [DecidableEq T] in
theorem placed_new (junk : Junk K) (t : T) : Placed (State.new junk) t where
  context := fun _ h => by cases h
  strings := rfl
  offers := trivial
  naming := iff_of_true rfl id
  named := fun h => h.elim
  sending := iff_of_true rfl id

/-! ### The pieces of a step -/

@[simp] theorem goto_place (s : State T K) (t : T) (pl : Place K) : (s.goto t pl).place t = pl :=
  Function.update_self ..

theorem goto_same (s : State T K) (pl : Place K) (hut : u ≠ t) : Same s (s.goto t pl) u :=
  ⟨Function.update_of_ne hut .., rfl, rfl, rfl, rfl, rfl, rfl⟩

theorem initThread_same (s : State T K) (hut : u ≠ t) : Same s (s.initThread t) u := by
  unfold State.initThread
  split
  · exact Same.refl s u
  · exact ⟨rfl, Function.update_of_ne hut .., rfl, rfl, rfl, rfl, rfl⟩

/-- `InitThread` leaves all but the thread contexts as they are. -/
theorem initThread_rest (s : State T K) (t : T) : ∃ n ctx, s.initThread t =
    { s with threadCount := n, threadContext := ctx } := by
  unfold State.initThread
  split
  · exact ⟨s.threadCount, s.threadContext, rfl⟩
  · exact ⟨_, _, rfl⟩

theorem initThread_known {j : ℕ} (h : s.threadContext t = some j) : s.initThread t = s := by
  simp only [State.initThread, h]

/-- A thread without a context is given the next one; the others stay. -/
theorem initThread_fresh (h : s.threadContext t = none) :
    (s.initThread t).threadCount = s.threadCount + 1 ∧
      (s.initThread t).threadContext t = some s.threadCount ∧
      ∀ u, u ≠ t → (s.initThread t).threadContext u = s.threadContext u := by
  have hinit : s.initThread t = { s with
      threadCount := s.threadCount + 1
      threadContext := Function.update s.threadContext t (some s.threadCount) } := by
    simp only [State.initThread, h]
  rw [hinit]
  exact ⟨rfl, Function.update_self .., fun u hut => Function.update_of_ne hut ..⟩

theorem fresh_cases (h : s.threadContext t = none) {i : ℕ}
    (hi : (s.initThread t).threadContext u = some i) :
    u = t ∧ i = s.threadCount ∨ u ≠ t ∧ s.threadContext u = some i := by
  obtain ⟨-, hself, hothers⟩ := initThread_fresh h
  by_cases hut : u = t
  · subst hut
    exact Or.inl ⟨rfl, Option.some.inj (hi.symm.trans hself)⟩
  · exact Or.inr ⟨hut, (hothers u hut).symm.trans hi⟩

/-- `InitThread` keeps the contexts that are handed out below the count. -/
theorem initThread_bound (h : ∀ t i, s.threadContext t = some i → i < s.threadCount) (t : T) :
    ∀ u i, (s.initThread t).threadContext u = some i → i < (s.initThread t).threadCount := by
  rcases hn : s.threadContext t with _ | j
  · intro u i hi
    rw [(initThread_fresh hn).1]
    rcases fresh_cases hn hi with ⟨-, rfl⟩ | ⟨-, hi⟩
    · exact Nat.lt_succ_self _
    · exact Nat.lt_succ_of_lt (h u i hi)
  · rw [initThread_known hn]
    exact h

theorem logOf_append (s : State T K) (x : T × Entry K) :
    ({ s with log := s.log ++ [x] } : State T K).logOf u =
      s.logOf u ++ if x.1 = u then [x.2] else [] := by
  rcases x with ⟨t, e⟩
  by_cases htu : t = u <;> simp [State.logOf, htu]

theorem settle_same (s : State T K) (i : ℕ) (c : Call K) (r : Reads) (nameRef : UInt32)
    (hut : u ≠ t) : Same s (s.settle t i c r nameRef) u := by
  refine ⟨Function.update_of_ne hut .., rfl, rfl, rfl, rfl, rfl, ?_⟩
  have happ := logOf_append s (t, ((s.threadContexts i).recordWith s.log.length c r nameRef).2)
    (u := u)
  rw [if_neg (Ne.symm hut), List.append_nil] at happ
  exact happ

theorem looked_on (s : State T K) {i : ℕ} {c : Call K} {r : Reads} {h : HashThreads.State T K}
    (hbusy : h.thread t ≠ .idle) :
    s.looked t i c r h = { s with strings := h }.goto t (.mapping i c r) := by
  unfold State.looked
  split
  · rename_i hidle _
    exact absurd hidle hbusy
  · rfl

theorem looked_back (s : State T K) {i : ℕ} {c : Call K} {r : Reads} {h : HashThreads.State T K}
    {l : List (HashThreads.Return T K)} {x : HashThreads.Return T K} (hidle : h.thread t = .idle)
    (hreturned : h.returned = l ++ [x]) :
    s.looked t i c r h = { s with strings := h }.settle t i c r x.ref := by
  have hlast : h.returned.getLast? = some x := by rw [hreturned, List.getLast?_concat]
  simp only [State.looked, hidle, hlast]

/-- What a step in the table leaves as it is. -/
theorem looked_kept (s : State T K) (t : T) (i : ℕ) (c : Call K) (r : Reads)
    (h : HashThreads.State T K) : (s.looked t i c r h).strings = h ∧
      (s.looked t i c r h).paused = s.paused ∧
      (s.looked t i c r h).threadContext = s.threadContext ∧
      (s.looked t i c r h).threadCount = s.threadCount ∧
      (s.looked t i c r h).stringQueue = s.stringQueue ∧
      (s.looked t i c r h).eventQueue = s.eventQueue := by
  unfold State.looked
  split <;> exact ⟨rfl, rfl, rfl, rfl, rfl, rfl⟩

/-! ### The table -/

variable [DecidableEq K] {sh : Shape K}

omit [DecidableEq K] in
/-- What a turn of thread `t` in the table leaves to the others. -/
theorem turn_same {h : HashThreads.State T K} {p : Option K}
    (hturn : HashThreads.Turn s.strings t p h) (hother : ∀ u, u ≠ t → h.thread u = s.strings.thread u)
    (hut : u ≠ t) : Same s { s with strings := h } u := by
  refine ⟨rfl, rfl, hother u hut, ?_, rfl, rfl, rfl⟩
  have hfilter : ∀ x : HashThreads.Return T K, x.thread = t →
      h.returned = s.strings.returned ++ [x] → h.returnsTo u = s.strings.returnsTo u := by
    rintro x rfl hreturned
    rw [HashThreads.State.returnsTo, hreturned, List.filter_append, List.filter_singleton,
      decide_eq_false (Ne.symm hut)]
    exact List.append_nil _
  cases hturn with
  | on hcall hreturned _ _ => exact congrArg _ hreturned
  | offered _ hreturned _ => exact hfilter _ rfl hreturned
  | back _ hreturned _ _ => exact hfilter _ rfl hreturned

/-- A step in the table of a thread that is in `MapStringToReference` there. -/
theorem table_turn {b : HashThreads.Action T K} {h : HashThreads.State T K} {p : Option K}
    (hb : b = .go t ∨ b = .casFails t) (hs : HashThreads.step sh s.strings b = some h)
    (hc : (s.strings.thread t).call = some (.map, p)) :
    HashThreads.Turn s.strings t p h ∧ (∀ u, u ≠ t → h.thread u = s.strings.thread u) ∧
      (h.thread t).stepsLeft sh + 1 ≤ (s.strings.thread t).stepsLeft sh := by
  rcases hb with rfl | rfl
  · obtain ⟨hleft, hother⟩ := HashThreads.go_left hs
    exact ⟨HashThreads.turn_go hs hc, hother, hleft⟩
  · have hturn := HashThreads.turn_casFails hs hc
    simp only [HashThreads.step] at hs
    split at hs
    · rename_i c q idx ht
      cases hs
      refine ⟨hturn, fun u hu => HashThreads.nextStep_other hu c q idx, ?_⟩
      rw [ht]
      exact HashThreads.nextStep_left sh c q idx
    · cases hs

theorem map_call {p : Option K} {h : HashThreads.State T K}
    (hs : HashThreads.step sh s.strings (.mapStringToReference t p) = some h) :
    h = s.strings.goto t (.getPtr .map p (sh.start p)) := by
  simp only [HashThreads.step] at hs
  split at hs
  · exact (Option.some.inj hs).symm
  · cases hs

omit [DecidableEq K] in
/-- After a turn in the table the call goes on there, or records with the answer. -/
theorem looked_same {i : ℕ} {c : Call K} {r : Reads} {h : HashThreads.State T K} {p : Option K}
    (hturn : HashThreads.Turn s.strings t p h) (hother : ∀ u, u ≠ t → h.thread u = s.strings.thread u)
    (hut : u ≠ t) : Same s (s.looked t i c r h) u := by
  have hsame := turn_same hturn hother hut
  cases hturn with
  | on hcall _ _ _ =>
    rw [looked_on s (HashThreads.busy_of_call hcall)]
    exact hsame.trans (goto_same _ _ hut)
  | offered hidle hreturned _ =>
    rw [looked_back s hidle hreturned]
    exact hsame.trans (settle_same _ i c r _ hut)
  | back hidle hreturned _ _ =>
    rw [looked_back s hidle hreturned]
    exact hsame.trans (settle_same _ i c r _ hut)

/-! ### One step -/

omit [DecidableEq K] in
theorem strings_same {q : RingThreads.State T (RuntimeStringReference K)}
    {pc : RingThreads.Producer (RuntimeStringReference K)} (s : State T K) (hut : u ≠ t)
    (hq : q.producer = Function.update s.stringQueue.producer t pc) :
    Same s { s with stringQueue := q } u :=
  ⟨rfl, rfl, rfl, rfl, (congrFun hq u).trans (Function.update_of_ne hut ..), rfl, rfl⟩

omit [DecidableEq K] in
theorem events_same {q : RingThreads.State T ProfileEvent} {pc : RingThreads.Producer ProfileEvent}
    (s : State T K) (hut : u ≠ t) (hq : q.producer = Function.update s.eventQueue.producer t pc) :
    Same s { s with eventQueue := q } u :=
  ⟨rfl, rfl, rfl, rfl, rfl, (congrFun hq u).trans (Function.update_of_ne hut ..), rfl⟩

omit [DecidableEq K] in
/-- A producer's step in its `TryEnqueue`, or a CAS of it that fails, moves that producer only. -/
theorem ring_moves {α : Type} {cap : ℕ} {ring q : RingThreads.State T α}
    {a : Action T K} {b : RingThreads.Action T α}
    (hab : a = .go t ∧ b = .produce t ∧ q.producer t ≠ .idle ∨ a = .casFails t ∧ b = .casFails t)
    (hq : RingThreads.step cap ring b = some q) :
    a.actor = some t ∧ q.producer t ≠ .idle ∧
      ∃ pc, q.producer = Function.update ring.producer t pc := by
  rcases hab with ⟨rfl, rfl, hbusy⟩ | ⟨rfl, rfl⟩
  · exact ⟨rfl, hbusy, RingThreads.produce_producer hq⟩
  · obtain ⟨v, f, hpc⟩ := RingThreads.casFails_producer hq
    have hloaded : q.producer t = .loaded v f := (congrFun hpc t).trans (Function.update_self ..)
    exact ⟨rfl, by rw [hloaded]; exact (fun h => by cases h), _, hpc⟩

omit [DecidableEq T] [DecidableEq K] in
theorem look_actor {a : Action T K} {b : HashThreads.Action T K}
    (hab : a = .go t ∧ b = .go t ∨ a = .casFails t ∧ b = .casFails t) :
    a.actor = some t ∧ (b = .go t ∨ b = .casFails t) := by
  rcases hab with ⟨rfl, rfl⟩ | ⟨rfl, rfl⟩
  · exact ⟨rfl, Or.inl rfl⟩
  · exact ⟨rfl, Or.inr rfl⟩

omit [DecidableEq T] [DecidableEq K] in
theorem request_mapping (hp : Placed s t) {i : ℕ} {c : Call K} {r : Reads}
    (h : s.place t = .mapping i c r) : (s.strings.thread t).call = some (.map, c.name) := by
  rw [hp.strings, h]
  rfl

omit [DecidableEq T] [DecidableEq K] in
theorem request_naming (hp : Placed s t) {i : ℕ} {c : Call K} {r : Reads}
    (h : s.place t = .naming i c r) : (s.strings.thread t).call = some (.map, c.name) := by
  rw [hp.strings, h]
  rfl

/-- FRAME: a step leaves the threads that do not take it where they are. -/
theorem moves_same (hp : ∀ t, Placed s t) {a : Action T K} (hm : Moves sh s a s')
    (hu : a.actor ≠ some u) : Same s s' u := by
  have hne : ∀ {t : T}, a.actor = some t → u ≠ t := by
    rintro t ht rfl
    exact hu ht
  cases hm with
  | call h => exact goto_same s _ (hne rfl)
  | turnBack h hpaused => exact goto_same s _ (hne rfl)
  | enter h hpaused => exact goto_same s _ (hne rfl)
  | bind h hi hlt => exact (initThread_same s (hne rfl)).trans (goto_same _ _ (hne rfl))
  | draw h hname => exact ⟨Function.update_of_ne (hne rfl) .., rfl, rfl, rfl, rfl, rfl, rfl⟩
  | unstamped h hname => exact settle_same s _ _ _ _ (hne rfl)
  | readClock h => exact goto_same s _ (hne rfl)
  | @readFrame t i c id now v h hv =>
    have hut : u ≠ t := hne rfl
    obtain rfl := map_call hv
    exact ⟨Function.update_of_ne hut .., rfl, HashThreads.goto_other _ hut, rfl, rfl, rfl, rfl⟩
  | look h hab hoffer hv =>
    obtain ⟨hactor, hb⟩ := look_actor hab
    obtain ⟨hturn, hother, -⟩ := table_turn hb hv (request_mapping (hp _) h)
    exact looked_same hturn hother (hne hactor)
  | name h hoffer hq =>
    have hut := hne rfl
    obtain ⟨-, hpc⟩ := RingThreads.enqueue_producer hq
    exact (goto_same s _ hut).trans (strings_same _ hut hpc)
  | nameOn h hab hq =>
    obtain ⟨hactor, -, pc, hpc⟩ := ring_moves hab hq
    exact strings_same s (hne hactor) hpc
  | named h hq hidle hv =>
    have hut := hne rfl
    obtain ⟨pc, hpc⟩ := RingThreads.produce_producer hq
    obtain ⟨hturn, hother, -⟩ := table_turn (Or.inl rfl) hv (request_naming (hp _) h)
    exact (strings_same s hut hpc).trans (looked_same hturn hother hut)
  | offer h hq =>
    have hut := hne rfl
    obtain ⟨-, hpc⟩ := RingThreads.enqueue_producer hq
    exact (goto_same s _ hut).trans (events_same _ hut hpc)
  | sendOn h hab hq =>
    obtain ⟨hactor, -, pc, hpc⟩ := ring_moves hab hq
    exact events_same s (hne hactor) hpc
  | sent h hq hidle =>
    have hut := hne rfl
    obtain ⟨pc, hpc⟩ := RingThreads.produce_producer hq
    exact (goto_same s _ hut).trans (events_same _ hut hpc)
  | threadInit h => exact initThread_same s (hne rfl)
  | setPaused => exact ⟨rfl, rfl, rfl, rfl, rfl, rfl, rfl⟩
  | updateTimestamp => exact ⟨rfl, rfl, rfl, rfl, rfl, rfl, rfl⟩
  | frameEnd => exact ⟨rfl, rfl, rfl, rfl, rfl, rfl, rfl⟩
  | drainEvents hab hq =>
    have hpc := RingThreads.consumer_producer
      (by rcases hab with ⟨n, -, rfl⟩ | ⟨-, rfl⟩ <;> simp) hq
    exact ⟨rfl, rfl, rfl, rfl, rfl, congrFun hpc u, rfl⟩
  | drainStrings hab hq =>
    have hpc := RingThreads.consumer_producer (by rcases hab with ⟨-, rfl⟩ | ⟨-, rfl⟩ <;> simp) hq
    exact ⟨rfl, rfl, rfl, rfl, congrFun hpc u, rfl, rfl⟩

/-! ### The thread that takes the step -/

omit [DecidableEq T] [DecidableEq K] in
theorem placed_at {pl : Place K} (hpl : s.place t = pl)
    (hctx : ∀ i, pl.context = some i → s.threadContext t = some i)
    (hstrings : (s.strings.thread t).call = pl.request) (hoffers : (s.strings.thread t).OffersIndex)
    (hnaming : s.stringQueue.producer t = .idle ↔ ¬ pl.Naming)
    (hnamed : pl.Naming → (s.strings.thread t).Offers)
    (hsending : s.eventQueue.producer t = .idle ↔ ¬ pl.Sending) : Placed s t := by
  subst hpl
  exact ⟨hctx, hstrings, hoffers, hnaming, hnamed, hsending⟩

omit [DecidableEq K] in
/-- A place at which the table and the rings are as they were. -/
theorem Placed.goto (h : Placed s t) {pl : Place K}
    (hctx : ∀ i, pl.context = some i → s.threadContext t = some i)
    (hrequest : (s.place t).request = pl.request) (hnaming : (s.place t).Naming ↔ pl.Naming)
    (hsending : (s.place t).Sending ↔ pl.Sending) : Placed (s.goto t pl) t where
  context := by rw [goto_place]; exact hctx
  strings := by rw [goto_place, ← hrequest]; exact h.strings
  offers := h.offers
  naming := by rw [goto_place, ← hnaming]; exact h.naming
  named := by rw [goto_place, ← hnaming]; exact h.named
  sending := by rw [goto_place, ← hsending]; exact h.sending

omit [DecidableEq K] in
theorem Placed.initThread (h : Placed s t) (hctx : (s.place t).context = none) :
    Placed (s.initThread t) t := by
  obtain ⟨n, ctx, he⟩ := initThread_rest s t
  rw [he]
  refine ⟨?_, h.strings, h.offers, h.naming, h.named, h.sending⟩
  intro i hi
  rw [hctx] at hi
  cases hi

omit [DecidableEq K] in
/-- A thread that has recorded is nowhere in the table and in the rings. -/
theorem placed_settle (hidle : s.strings.thread t = .idle)
    (hnaming : s.stringQueue.producer t = .idle) (hsending : s.eventQueue.producer t = .idle)
    (i : ℕ) (c : Call K) (r : Reads) (nameRef : UInt32) :
    Placed (s.settle t i c r nameRef) t := by
  obtain ⟨o, hplace⟩ : ∃ o : Option ProfileEvent,
      (s.settle t i c r nameRef).place t = o.elim .idle .offering := ⟨_, Function.update_self ..⟩
  have hcall : (s.strings.thread t).call = none := by rw [hidle]; rfl
  have hoffers : (s.strings.thread t).OffersIndex := by rw [hidle]; trivial
  rcases o with _ | event
  · exact placed_at hplace (fun _ h => by cases h) hcall hoffers (iff_of_true hnaming id)
      (fun h => h.elim) (iff_of_true hsending id)
  · exact placed_at hplace (fun _ h => by cases h) hcall hoffers (iff_of_true hnaming id)
      (fun h => h.elim) (iff_of_true hsending id)

omit [DecidableEq K] in
/-- After a turn in the table. -/
theorem placed_looked {i : ℕ} {c : Call K} {r : Reads} {h : HashThreads.State T K}
    (hturn : HashThreads.Turn s.strings t c.name h) (hctx : s.threadContext t = some i)
    (hnaming : s.stringQueue.producer t = .idle) (hsending : s.eventQueue.producer t = .idle) :
    Placed (s.looked t i c r h) t := by
  cases hturn with
  | on hcall _ _ hnew =>
    rw [looked_on s (HashThreads.busy_of_call hcall)]
    exact placed_at (goto_place ..) (by rintro j ⟨⟩; exact hctx) hcall hnew (iff_of_true hnaming id)
      (fun h => h.elim) (iff_of_true hsending id)
  | offered hidle hreturned _ =>
    rw [looked_back s hidle hreturned]
    exact placed_settle (s := { s with strings := h }) hidle hnaming hsending i c r _
  | back hidle hreturned _ _ =>
    rw [looked_back s hidle hreturned]
    exact placed_settle (s := { s with strings := h }) hidle hnaming hsending i c r _

/-- STEP: the thread that takes a step. -/
theorem placed_actor (h : Placed s t) {a : Action T K} (hm : Moves sh s a s')
    (ha : a.actor = some t) : Placed s' t := by
  cases hm with
  | call hpl =>
    obtain rfl := Option.some.inj ha
    exact h.goto (fun _ hi => by cases hi) (by rw [hpl]; rfl) (by rw [hpl]; rfl) (by rw [hpl]; rfl)
  | turnBack hpl hpaused =>
    obtain rfl := Option.some.inj ha
    exact h.goto (fun _ hi => by cases hi) (by rw [hpl]; rfl) (by rw [hpl]; rfl) (by rw [hpl]; rfl)
  | enter hpl hpaused =>
    obtain rfl := Option.some.inj ha
    exact h.goto (fun _ hi => by cases hi) (by rw [hpl]; rfl) (by rw [hpl]; rfl) (by rw [hpl]; rfl)
  | @bind t c i hpl hi hlt =>
    obtain rfl := Option.some.inj ha
    have hinit := h.initThread (by rw [hpl]; rfl)
    obtain ⟨n, ctx, he⟩ := initThread_rest s t
    have hplace : (s.initThread t).place t = .unpaused c := by rw [he]; exact hpl
    refine hinit.goto ?_ (by rw [hplace]; rfl) (by rw [hplace]; rfl) (by rw [hplace]; rfl)
    rintro j ⟨⟩
    exact hi
  | @draw _ i c name hpl hname =>
    obtain rfl := Option.some.inj ha
    have hctx := h.context i (by rw [hpl]; rfl)
    have hgoto : Placed (s.goto _ (.numbered i c (UInt32.ofNat s.nextMessageID))) _ :=
      h.goto (by rintro j ⟨⟩; exact hctx) (by rw [hpl]; rfl) (by rw [hpl]; rfl) (by rw [hpl]; rfl)
    exact hgoto.same ⟨rfl, rfl, rfl, rfl, rfl, rfl, rfl⟩
  | unstamped hpl hname =>
    obtain rfl := Option.some.inj ha
    exact placed_settle (HashThreads.idle_of_call (h.strings.trans (by rw [hpl]; rfl)))
      (h.naming.mpr (by rw [hpl]; exact id)) (h.sending.mpr (by rw [hpl]; exact id)) _ _ _ _
  | @readClock _ i c id hpl =>
    obtain rfl := Option.some.inj ha
    have hctx := h.context i (by rw [hpl]; rfl)
    exact h.goto (by rintro j ⟨⟩; exact hctx) (by rw [hpl]; rfl) (by rw [hpl]; rfl) (by rw [hpl]; rfl)
  | @readFrame _ i c n now v hpl hv =>
    obtain rfl := Option.some.inj ha
    have hctx := h.context i (by rw [hpl]; rfl)
    obtain rfl := map_call hv
    exact placed_at (goto_place ..) (by rintro j ⟨⟩; exact hctx)
      (congrArg HashThreads.Prober.call (HashThreads.goto_self ..))
      (by rw [HashThreads.goto_self]; trivial)
      (iff_of_true (h.naming.mpr (by rw [hpl]; exact id)) id) (fun hn => hn.elim)
      (iff_of_true (h.sending.mpr (by rw [hpl]; exact id)) id)
  | look hpl hab hoffer hv =>
    obtain ⟨hactor, hb⟩ := look_actor hab
    obtain rfl := Option.some.inj (hactor.symm.trans ha)
    obtain ⟨hturn, -, -⟩ := table_turn hb hv (request_mapping h hpl)
    exact placed_looked hturn (h.context _ (by rw [hpl]; rfl))
      (h.naming.mpr (by rw [hpl]; exact id)) (h.sending.mpr (by rw [hpl]; exact id))
  | @name t i c r ptr ref q hpl hoffer hq =>
    obtain rfl := Option.some.inj ha
    have hctx := h.context i (by rw [hpl]; rfl)
    obtain ⟨-, hpc⟩ := RingThreads.enqueue_producer hq
    have hbusy : q.producer t ≠ .idle := by
      rw [hpc, Function.update_self]
      exact fun he => by cases he
    exact placed_at (goto_place ..) (by rintro j ⟨⟩; exact hctx) (request_mapping h hpl) h.offers
      (iff_of_false hbusy fun hn => hn trivial) (fun _ => hoffer ▸ trivial)
      (iff_of_true (h.sending.mpr (by rw [hpl]; exact id)) id)
  | nameOn hpl hab hq =>
    obtain ⟨hactor, hbusy, -⟩ := ring_moves hab hq
    obtain rfl := Option.some.inj (hactor.symm.trans ha)
    refine ⟨h.context, h.strings, h.offers, ?_, h.named, h.sending⟩
    exact iff_of_false hbusy fun hn => hn (by rw [hpl]; trivial)
  | named hpl hq hidle hv =>
    obtain rfl := Option.some.inj ha
    obtain ⟨hturn, -, -⟩ := table_turn (Or.inl rfl) hv (request_naming h hpl)
    exact placed_looked hturn (h.context _ (by rw [hpl]; rfl)) hidle
      (h.sending.mpr (by rw [hpl]; exact id))
  | @offer t event q hpl hq =>
    obtain rfl := Option.some.inj ha
    obtain ⟨-, hpc⟩ := RingThreads.enqueue_producer hq
    have hbusy : q.producer t ≠ .idle := by
      rw [hpc, Function.update_self]
      exact fun he => by cases he
    exact placed_at (goto_place ..) (fun _ hj => by cases hj) (h.strings.trans (by rw [hpl]; rfl))
      h.offers (iff_of_true (h.naming.mpr (by rw [hpl]; exact id)) id) (fun hn => hn.elim)
      (iff_of_false hbusy fun hn => hn trivial)
  | sendOn hpl hab hq =>
    obtain ⟨hactor, hbusy, -⟩ := ring_moves hab hq
    obtain rfl := Option.some.inj (hactor.symm.trans ha)
    refine ⟨h.context, h.strings, h.offers, h.naming, h.named, ?_⟩
    exact iff_of_false hbusy fun hn => hn (by rw [hpl]; trivial)
  | sent hpl hq hidle =>
    obtain rfl := Option.some.inj ha
    exact placed_at (goto_place ..) (fun _ hj => by cases hj) (h.strings.trans (by rw [hpl]; rfl))
      h.offers (iff_of_true (h.naming.mpr (by rw [hpl]; exact id)) id) (fun hn => hn.elim)
      (iff_of_true hidle id)
  | threadInit hpl =>
    obtain rfl := Option.some.inj ha
    exact h.initThread (by rw [hpl]; rfl)
  | setPaused => cases ha
  | updateTimestamp => cases ha
  | frameEnd => cases ha
  | drainEvents hab hq => rcases hab with ⟨n, rfl, -⟩ | ⟨rfl, -⟩ <;> cases ha
  | drainStrings hab hq => rcases hab with ⟨rfl, -⟩ | ⟨rfl, -⟩ <;> cases ha

/-- STEP: every thread stays where its place says. -/
theorem placed_step (h : ∀ t, Placed s t) {a : Action T K} (hs : step sh s a = some s') (t : T) :
    Placed s' t := by
  have hm := step_moves hs
  by_cases ha : a.actor = some t
  · exact placed_actor (h t) hm ha
  · exact (h t).same (moves_same h hm ha)

end Esp.Accesses
