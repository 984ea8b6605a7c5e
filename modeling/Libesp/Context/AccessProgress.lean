import Libesp.Context.Handoffs

/-! @esp context | name:ThreadContext, ProfileContext | scheme:potential |
    source:src/profile.cpp, src/Context.cpp (InitThread, Zone, End, Sample, StampEvent,
    MapStringToReference), src/queue/lockless_ring.h (TryEnqueue), src/map/pointer_hash.h

    No recording call waits for another thread. What a call may still take is what its place has before
    it, the table's bound for the thread included, and its share of what the two rings hold for the
    producers in them; a thread that goes round in a ring does so because another got on.

        entered ─▶ unpaused ─▶ ready ─▶ numbered ─▶ timed ─▶ mapping ─────────────▶ offering ─▶ sending
           1          1          1          1         1      a MapStringToReference     1        │
                                                               │ 1                               │
                                                             naming ── the ring's potential ─────┘ -/

namespace Esp.Accesses
open Event PointerHash LocklessRing Context Machine
open HashThreads (nameA nameB)

variable {T K : Type}

/-- The accesses of a `TryEnqueue` among the threads `ps`, with its start. -/
def offerSteps (ps : Finset T) : ℕ := 2 * ps.card + 4

/-- The accesses of `MapStringToReference`, without those of its `TryEnqueue`. -/
def mapSteps (sh : Shape K) : ℕ := sh.capacity + 1 + HashThreads.putSteps sh

/-- The accesses of a recording call: the five before the string table, and those in it and in the two
    rings. -/
def callSteps (sh : Shape K) (ps : Finset T) : ℕ := mapSteps sh + 2 * offerSteps ps + 5

/-- What a thread has before it outside the rings, where `left` is what it may still take in the
    table. -/
def Place.stepsLeft (sh : Shape K) (ps : Finset T) (left : ℕ) : Place K → ℕ
  | .idle | .sending => 0
  | .entered _ => mapSteps sh + 2 * offerSteps ps + 5
  | .unpaused _ => mapSteps sh + 2 * offerSteps ps + 4
  | .ready _ _ => mapSteps sh + 2 * offerSteps ps + 3
  | .numbered _ _ _ => mapSteps sh + 2 * offerSteps ps + 2
  | .timed _ _ _ _ => mapSteps sh + 2 * offerSteps ps + 1
  | .mapping _ _ _ => left + 2 * offerSteps ps
  | .naming _ _ _ => left + offerSteps ps
  | .offering _ => offerSteps ps

def State.stepsLeft (sh : Shape K) (ps : Finset T) (s : State T K) (t : T) : ℕ :=
  (s.place t).stepsLeft sh ps ((s.strings.thread t).stepsLeft sh)

/-- What the threads `ps` may still take among them. -/
def State.potential (sh : Shape K) (ps : Finset T) (s : State T K) : ℕ :=
  (∑ t ∈ ps, s.stepsLeft sh ps t) + s.stringQueue.potential ps + s.eventQueue.potential ps

def Action.isCall : Action T K → Bool
  | .call _ _ => true
  | _ => false

/-- Is the action an access of a thread in its call? -/
def Action.isAccess : Action T K → Bool
  | .go _ | .casFails _ => true
  | _ => false

/-- A CAS that fails although the word is what it expects. -/
def Action.isSpurious : Action T K → Bool
  | .casFails _ => true
  | _ => false

/-- The threads that call are among `ps`. -/
def CallsFrom (ps : Finset T) : Action T K → Prop
  | .call t _ | .threadInit t => t ∈ ps
  | _ => True

/-- What an action adds to the potential. -/
def Action.income (sh : Shape K) (ps : Finset T) : Action T K → ℕ
  | .call _ _ => callSteps sh ps
  | .casFails _ => 2
  | _ => 0

variable [DecidableEq T]

/-- INVARIANT: only the threads `ps` record, each in a context of its own. -/
structure Owned (ps : Finset T) (s : State T K) : Prop where
  idle : ∀ t ∉ ps, s.place t = .idle
  unbound : ∀ t ∉ ps, s.threadContext t = none
  bound : ∀ t i, s.threadContext t = some i → i < s.threadCount
  count : s.threadCount = (ps.filter fun t => s.threadContext t ≠ none).card

variable {ps : Finset T} {s s' : State T K} {t u : T}

theorem Owned.initThread (h : Owned ps s) (ht : t ∈ ps) : Owned ps (s.initThread t) := by
  rcases hn : s.threadContext t with _ | j
  · obtain ⟨hcount, hself, hothers⟩ := initThread_fresh hn
    obtain ⟨n, ctx, he⟩ := initThread_rest s t
    refine ⟨by rw [he]; exact h.idle, ?_, initThread_bound h.bound t, ?_⟩
    · intro u hu
      have hut : u ≠ t := fun he => hu (he ▸ ht)
      exact (hothers u hut).trans (h.unbound u hu)
    · have hinsert : (ps.filter fun u => (s.initThread t).threadContext u ≠ none) =
          insert t (ps.filter fun u => s.threadContext u ≠ none) := by
        ext u
        by_cases hut : u = t
        · subst hut
          simp [ht, hself]
        · simp [hut, hothers u hut]
      rw [hinsert, Finset.card_insert_of_notMem (by simp [hn]), hcount, h.count]
  · rw [initThread_known hn]
    exact h

/-- With no more threads than contexts, `InitThread` leaves every one of them a context. -/
theorem Owned.context (h : Owned ps s) (hps : ps.card ≤ espMaxThreadCount) (ht : t ∈ ps) :
    ∃ i, (s.initThread t).threadContext t = some i ∧ i < espMaxThreadCount := by
  have hinit := h.initThread ht
  obtain ⟨i, hi⟩ : ∃ i, (s.initThread t).threadContext t = some i := by
    rcases hn : s.threadContext t with _ | j
    · exact ⟨s.threadCount, (initThread_fresh hn).2.1⟩
    · exact ⟨j, by rw [initThread_known hn, hn]⟩
  have hcount : (s.initThread t).threadCount ≤ ps.card := by
    rw [hinit.count]
    exact Finset.card_filter_le _ _
  exact ⟨i, hi, lt_of_lt_of_le (hinit.bound t i hi) (hcount.trans hps)⟩

variable [DecidableEq K] {sh : Shape K}

/-- A step gives a context to nobody, or to the thread that takes it. -/
theorem moves_contexts {a : Action T K} (hm : Moves sh s a s') :
    (s'.threadContext = s.threadContext ∧ s'.threadCount = s.threadCount) ∨
      ∃ t, a.actor = some t ∧ s'.threadContext = (s.initThread t).threadContext ∧
        s'.threadCount = (s.initThread t).threadCount := by
  cases hm with
  | bind h hi hlt => exact Or.inr ⟨_, rfl, rfl, rfl⟩
  | threadInit h => exact Or.inr ⟨_, rfl, rfl, rfl⟩
  | @look _ t i c r b v h hab hoffer hv =>
    obtain ⟨-, -, hctx, hcount, -⟩ := looked_kept s t i c r v
    exact Or.inl ⟨hctx, hcount⟩
  | @named t i c r q v h hq hidle hv =>
    obtain ⟨-, -, hctx, hcount, -⟩ := looked_kept { s with stringQueue := q } t i c r v
    exact Or.inl ⟨hctx, hcount⟩
  | _ => exact Or.inl ⟨rfl, rfl⟩

/-- A thread takes a step only where it is in a call, or `ps` has it. -/
theorem actor_mem (h : Owned ps s) {a : Action T K} (hm : Moves sh s a s') (ha : CallsFrom ps a)
    (hactor : a.actor = some t) : t ∈ ps := by
  by_contra ht
  have hidle := h.idle t ht
  have hbusy : ∀ {u : T} {pl : Place K}, s.place u = pl → a.actor = some u → pl = .idle := by
    intro u pl hpl hu
    obtain rfl := Option.some.inj (hu.symm.trans hactor)
    exact hpl.symm.trans hidle
  cases hm with
  | call hpl =>
    obtain rfl := Option.some.inj hactor
    exact ht ha
  | threadInit hpl =>
    obtain rfl := Option.some.inj hactor
    exact ht ha
  | turnBack hpl hpaused => cases hbusy hpl rfl
  | enter hpl hpaused => cases hbusy hpl rfl
  | bind hpl hi hlt => cases hbusy hpl rfl
  | draw hpl hname => cases hbusy hpl rfl
  | unstamped hpl hname => cases hbusy hpl rfl
  | readClock hpl => cases hbusy hpl rfl
  | readFrame hpl hv => cases hbusy hpl rfl
  | look hpl hab hoffer hv => cases hbusy hpl (look_actor hab).1
  | name hpl hoffer hq => cases hbusy hpl rfl
  | nameOn hpl hab hq => cases hbusy hpl (ring_moves hab hq).1
  | named hpl hq hidle hv => cases hbusy hpl rfl
  | offer hpl hq => cases hbusy hpl rfl
  | sendOn hpl hab hq => cases hbusy hpl (ring_moves hab hq).1
  | sent hpl hq hidle => cases hbusy hpl rfl
  | setPaused => cases hactor
  | updateTimestamp => cases hactor
  | frameEnd => cases hactor
  | drainEvents hab hq => rcases hab with ⟨n, rfl, -⟩ | ⟨rfl, -⟩ <;> cases hactor
  | drainStrings hab hq => rcases hab with ⟨rfl, -⟩ | ⟨rfl, -⟩ <;> cases hactor

/-- STEP: the threads `ps` stay the only ones. -/
theorem Owned.moves (h : Owned ps s) (hp : ∀ t, Placed s t) {a : Action T K}
    (ha : CallsFrom ps a) (hm : Moves sh s a s') : Owned ps s' := by
  have hidle : ∀ t ∉ ps, s'.place t = .idle := by
    intro t ht
    have hactor : a.actor ≠ some t := fun hactor => ht (actor_mem h hm ha hactor)
    exact (moves_same hp hm hactor).place.trans (h.idle t ht)
  rcases moves_contexts hm with ⟨hctx, hcount⟩ | ⟨t, hactor, hctx, hcount⟩
  · exact ⟨hidle, by rw [hctx]; exact h.unbound, by rw [hctx, hcount]; exact h.bound,
      by rw [hctx, hcount]; exact h.count⟩
  · have hinit := h.initThread (actor_mem h hm ha hactor)
    exact ⟨hidle, by rw [hctx]; exact hinit.unbound, by rw [hctx, hcount]; exact hinit.bound,
      by rw [hctx, hcount]; exact hinit.count⟩

/-! ### What a step costs -/

omit [DecidableEq K] in
/-- A sum over the threads after one of them has taken a step. -/
theorem sum_step {w w' : T → ℕ} {x y : ℕ} (ht : t ∈ ps) (hother : ∀ u, u ≠ t → w' u = w u)
    (hown : w' t + x ≤ w t + y) : (∑ u ∈ ps, w' u) + x ≤ (∑ u ∈ ps, w u) + y := by
  rw [← Finset.add_sum_erase ps w' ht, ← Finset.add_sum_erase ps w ht]
  have hrest : (∑ u ∈ ps.erase t, w' u) = ∑ u ∈ ps.erase t, w u :=
    Finset.sum_congr rfl fun u hu => hother u (Finset.ne_of_mem_erase hu)
  omega

omit [DecidableEq K] in
theorem settle_steps (sh : Shape K) (ps : Finset T) (s : State T K) (t : T) (i : ℕ) (c : Call K)
    (r : Reads) (nameRef : UInt32) :
    (s.settle t i c r nameRef).stepsLeft sh ps t ≤ offerSteps ps := by
  obtain ⟨o, hplace⟩ : ∃ o : Option ProfileEvent,
      (s.settle t i c r nameRef).place t = o.elim .idle .offering := ⟨_, Function.update_self ..⟩
  rw [State.stepsLeft, hplace]
  cases o with
  | none => exact Nat.zero_le _
  | some event => exact le_refl _

omit [DecidableEq K] in
/-- After a turn in the table that comes from no offer the thread has less before it. -/
theorem looked_steps (ps : Finset T) {h : HashThreads.State T K} {c : Call K} (i : ℕ) (r : Reads)
    (hturn : HashThreads.Turn s.strings t c.name h) {left : ℕ}
    (hleft : (h.thread t).stepsLeft sh + 1 ≤ left) :
    (s.looked t i c r h).stepsLeft sh ps t + 1 ≤ left + 2 * offerSteps ps := by
  have hback : ∀ nameRef, (State.settle { s with strings := h } t i c r nameRef).stepsLeft sh ps t +
      1 ≤ left + 2 * offerSteps ps := by
    intro nameRef
    have := settle_steps sh ps { s with strings := h } t i c r nameRef
    omega
  cases hturn with
  | on hcall _ _ _ =>
    rw [looked_on s (HashThreads.busy_of_call hcall), State.stepsLeft, goto_place]
    show (h.thread t).stepsLeft sh + 2 * offerSteps ps + 1 ≤ _
    omega
  | offered hidle hreturned _ =>
    rw [looked_back s hidle hreturned]
    exact hback _
  | back hidle hreturned _ _ =>
    rw [looked_back s hidle hreturned]
    exact hback _

omit [DecidableEq T] [DecidableEq K] in
theorem onlyFrom_strings (h : Owned ps s) (hp : ∀ t, Placed s t) :
    RingThreads.OnlyFrom ps s.stringQueue := by
  intro t ht
  rw [(hp t).naming, h.idle t ht]
  exact id

omit [DecidableEq T] [DecidableEq K] in
theorem onlyFrom_events (h : Owned ps s) (hp : ∀ t, Placed s t) :
    RingThreads.OnlyFrom ps s.eventQueue := by
  intro t ht
  rw [(hp t).sending, h.idle t ht]
  exact id

omit [DecidableEq K] in
/-- What a producer's step in a ring leaves to the producers. -/
theorem ring_potential (sh : Shape K) {α : Type} {cap : ℕ} {ring q : RingThreads.State T α}
    (honly : RingThreads.OnlyFrom ps ring) {a : Action T K} {b : RingThreads.Action T α}
    (hab : a = .go t ∧ b = .produce t ∧ q.producer t ≠ .idle ∨ a = .casFails t ∧ b = .casFails t)
    (hq : RingThreads.step cap ring b = some q) :
    q.potential ps + 1 ≤ ring.potential ps + a.income sh ps ∧ a.isAccess = true := by
  rcases hab with ⟨rfl, rfl, -⟩ | ⟨rfl, rfl⟩
  · exact ⟨(RingThreads.step_potential honly (by trivial) hq).2, rfl⟩
  · exact ⟨(RingThreads.step_potential honly (by trivial) hq).2, rfl⟩

/-- A dequeue leaves the producers what they had. -/
theorem drain_potential {α : Type} {cap : ℕ} {ring q : RingThreads.State T α}
    (honly : RingThreads.OnlyFrom ps ring) {b : RingThreads.Action T α}
    (hb : b = .dequeue ∨ (∃ n, b = .dequeueBulk n) ∨ b = .consume)
    (hq : RingThreads.step cap ring b = some q) : q.potential ps ≤ ring.potential ps := by
  rcases hb with rfl | ⟨n, rfl⟩ | rfl
  · exact (RingThreads.step_potential honly (by trivial) hq).2
  · exact (RingThreads.step_potential honly (by trivial) hq).2
  · exact (RingThreads.step_potential honly (by trivial) hq).2

/-- What an access costs. -/
def Action.cost (a : Action T K) : ℕ := if a.isAccess then 1 else 0

omit [DecidableEq T] [DecidableEq K] in
theorem stepsLeft_at {pl : Place K} (sh : Shape K) (ps : Finset T) (hpl : s.place t = pl) :
    s.stepsLeft sh ps t = pl.stepsLeft sh ps ((s.strings.thread t).stepsLeft sh) := by
  rw [State.stepsLeft, hpl]

omit [DecidableEq T] [DecidableEq K] in
/-- An access, by the places before and after it. -/
theorem access_pays {pl pl' : Place K} (hpl : s.place t = pl) (hpl' : s'.place t = pl') {x y : ℕ}
    (hpay : pl'.stepsLeft sh ps ((s'.strings.thread t).stepsLeft sh) + s'.stringQueue.potential ps +
      s'.eventQueue.potential ps + x ≤ pl.stepsLeft sh ps ((s.strings.thread t).stepsLeft sh) +
        s.stringQueue.potential ps + s.eventQueue.potential ps + y) :
    s'.stepsLeft sh ps t + s'.stringQueue.potential ps + s'.eventQueue.potential ps + x ≤
      s.stepsLeft sh ps t + s.stringQueue.potential ps + s.eventQueue.potential ps + y := by
  rw [stepsLeft_at sh ps hpl, stepsLeft_at sh ps hpl']
  exact hpay

omit [DecidableEq T] [DecidableEq K] in
/-- An access outside the table and the rings. -/
theorem place_pays {pl pl' : Place K} (hpl : s.place t = pl) (hpl' : s'.place t = pl')
    (hprober : s'.strings.thread t = s.strings.thread t) (hstrings : s'.stringQueue = s.stringQueue)
    (hevents : s'.eventQueue = s.eventQueue) {x y : ℕ}
    (hpay : ∀ left, pl'.stepsLeft sh ps left + x ≤ pl.stepsLeft sh ps left + y) :
    s'.stepsLeft sh ps t + s'.stringQueue.potential ps + s'.eventQueue.potential ps + x ≤
      s.stepsLeft sh ps t + s.stringQueue.potential ps + s.eventQueue.potential ps + y := by
  have hsteps := hpay ((s.strings.thread t).stepsLeft sh)
  refine access_pays hpl hpl' ?_
  rw [hprober, hstrings, hevents]
  omega

/-- STEP: a thread pays for its access out of what it has before it and what the rings hold. -/
theorem actor_pays (h : Owned ps s) (hp : ∀ t, Placed s t) {a : Action T K} (ha : CallsFrom ps a)
    (hm : Moves sh s a s') (hactor : a.actor = some t) :
    s'.stepsLeft sh ps t + s'.stringQueue.potential ps + s'.eventQueue.potential ps + a.cost ≤
      s.stepsLeft sh ps t + s.stringQueue.potential ps + s.eventQueue.potential ps +
        a.income sh ps := by
  have ht := actor_mem h hm ha hactor
  cases hm with
  | call hpl =>
    obtain rfl := Option.some.inj hactor
    exact place_pays hpl (goto_place ..) rfl rfl rfl fun _ => (Nat.zero_add _).ge
  | turnBack hpl hpaused =>
    obtain rfl := Option.some.inj hactor
    exact place_pays hpl (goto_place ..) rfl rfl rfl fun _ => Nat.le_add_left 1 _
  | enter hpl hpaused =>
    obtain rfl := Option.some.inj hactor
    exact place_pays hpl (goto_place ..) rfl rfl rfl fun _ => le_refl _
  | @bind t c i hpl hi hlt =>
    obtain rfl := Option.some.inj hactor
    obtain ⟨n, ctx, he⟩ := initThread_rest s t
    rw [he]
    exact place_pays hpl (goto_place ..) rfl rfl rfl fun _ => le_refl _
  | draw hpl hname =>
    obtain rfl := Option.some.inj hactor
    exact place_pays hpl (goto_place ..) rfl rfl rfl fun _ => le_refl _
  | @unstamped t i c hpl hname =>
    obtain rfl := Option.some.inj hactor
    have hsteps := settle_steps sh ps s t i c ⟨0, s.currentTimestamp, 0⟩ noRef
    rw [stepsLeft_at sh ps hpl, Place.stepsLeft]
    show _ + s.stringQueue.potential ps + s.eventQueue.potential ps + 1 ≤ _ + 0
    omega
  | readClock hpl =>
    obtain rfl := Option.some.inj hactor
    exact place_pays hpl (goto_place ..) rfl rfl rfl fun _ => le_refl _
  | @readFrame t i c id now v hpl hv =>
    obtain rfl := Option.some.inj hactor
    obtain rfl := map_call hv
    have hleft : (HashThreads.Prober.getPtr .map c.name (sh.start c.name)).stepsLeft sh =
        mapSteps sh := by
      rw [HashThreads.Prober.stepsLeft, HashThreads.slotsLeft_start]
      rfl
    refine access_pays hpl (by exact goto_place ..) ?_
    rw [HashThreads.goto_self, hleft, Place.stepsLeft, Place.stepsLeft]
    show _ + s.stringQueue.potential ps + s.eventQueue.potential ps + 1 ≤ _ + 0
    omega
  | @look _ t i c r b v hpl hab hoffer hv =>
    obtain ⟨hact, hb⟩ := look_actor hab
    obtain rfl := Option.some.inj (hact.symm.trans hactor)
    obtain ⟨hturn, -, hleft⟩ := table_turn hb hv (request_mapping (hp _) hpl)
    obtain ⟨-, -, -, -, hstrings, hevents⟩ := looked_kept s t i c r v
    have hsteps := looked_steps ps i r hturn hleft
    have hcost : a.cost = 1 := by rcases hab with ⟨rfl, -⟩ | ⟨rfl, -⟩ <;> rfl
    rw [hstrings, hevents, stepsLeft_at sh ps hpl, hcost, Place.stepsLeft]
    omega
  | @name t i c r ptr ref q hpl hoffer hq =>
    obtain rfl := Option.some.inj hactor
    have hring := (RingThreads.step_potential (onlyFrom_strings h hp) (by exact ht) hq).2
    have hincome : (RingThreads.Action.enqueue t (⟨ref, ptr⟩ : RuntimeStringReference K)).income ps +
        1 = offerSteps ps := rfl
    refine access_pays hpl (by exact goto_place ..) ?_
    rw [Place.stepsLeft, Place.stepsLeft]
    show (s.strings.thread t).stepsLeft sh + offerSteps ps + q.potential ps +
      s.eventQueue.potential ps + 1 ≤ _ + 0
    have hcost : q.potential ps + 0 ≤ _ := hring
    omega
  | @nameOn _ t i c r b q hpl hab hq =>
    obtain ⟨hact, -, -⟩ := ring_moves hab hq
    obtain rfl := Option.some.inj (hact.symm.trans hactor)
    obtain ⟨hring, haccess⟩ := ring_potential sh (onlyFrom_strings h hp) hab hq
    have hcost : a.cost = 1 := by rw [Action.cost, haccess]; rfl
    rw [hcost]
    show s.stepsLeft sh ps t + q.potential ps + s.eventQueue.potential ps + 1 ≤ _
    omega
  | @named t i c r q v hpl hq hidle hv =>
    obtain rfl := Option.some.inj hactor
    have hring := (RingThreads.step_potential (onlyFrom_strings h hp) (by trivial) hq).2
    have hcost : q.potential ps + 1 ≤ s.stringQueue.potential ps + 0 := hring
    obtain ⟨hturn, -, -⟩ := table_turn (Or.inl rfl) hv (request_naming (hp _) hpl)
    obtain ⟨-, -, -, -, hstrings, hevents⟩ := looked_kept { s with stringQueue := q } t i c r v
    -- the call returns: it comes from the offer of its string
    have hsteps : (State.looked { s with stringQueue := q } t i c r v).stepsLeft sh ps t ≤
        offerSteps ps := by
      cases hturn with
      | offered hback hreturned _ =>
        rw [looked_back _ hback hreturned]
        exact settle_steps sh ps _ t i c r _
      | on _ _ hfrom _ => exact absurd ((hp t).named (by rw [hpl]; trivial)) hfrom
      | back _ _ hfrom _ => exact absurd ((hp t).named (by rw [hpl]; trivial)) hfrom
    rw [hstrings, hevents, stepsLeft_at sh ps hpl, Place.stepsLeft]
    show _ + q.potential ps + s.eventQueue.potential ps + 1 ≤ _ + 0
    omega
  | @offer t event q hpl hq =>
    obtain rfl := Option.some.inj hactor
    have hring := (RingThreads.step_potential (onlyFrom_events h hp) (by exact ht) hq).2
    have hincome : (RingThreads.Action.enqueue t event).income ps + 1 = offerSteps ps := rfl
    refine access_pays hpl (by exact goto_place ..) ?_
    rw [Place.stepsLeft, Place.stepsLeft]
    show 0 + s.stringQueue.potential ps + q.potential ps + 1 ≤ _ + 0
    have hcost : q.potential ps + 0 ≤ _ := hring
    omega
  | @sendOn _ t b q hpl hab hq =>
    obtain ⟨hact, -, -⟩ := ring_moves hab hq
    obtain rfl := Option.some.inj (hact.symm.trans hactor)
    obtain ⟨hring, haccess⟩ := ring_potential sh (onlyFrom_events h hp) hab hq
    have hcost : a.cost = 1 := by rw [Action.cost, haccess]; rfl
    rw [hcost]
    show s.stepsLeft sh ps t + s.stringQueue.potential ps + q.potential ps + 1 ≤ _
    omega
  | @sent t q hpl hq hidle =>
    obtain rfl := Option.some.inj hactor
    have hring := (RingThreads.step_potential (onlyFrom_events h hp) (by trivial) hq).2
    have hcost : q.potential ps + 1 ≤ s.eventQueue.potential ps + 0 := hring
    refine access_pays hpl (by exact goto_place ..) ?_
    rw [Place.stepsLeft, Place.stepsLeft]
    show 0 + s.stringQueue.potential ps + q.potential ps + 1 ≤ _ + 0
    omega
  | @threadInit t hpl =>
    obtain rfl := Option.some.inj hactor
    obtain ⟨n, ctx, he⟩ := initThread_rest s t
    rw [he]
    exact le_refl _
  | setPaused => cases hactor
  | updateTimestamp => cases hactor
  | frameEnd => cases hactor
  | drainEvents hab hq => rcases hab with ⟨n, rfl, -⟩ | ⟨rfl, -⟩ <;> cases hactor
  | drainStrings hab hq => rcases hab with ⟨rfl, -⟩ | ⟨rfl, -⟩ <;> cases hactor

/-- What no thread does costs nothing, and the threads keep what they have. -/
theorem others_pay (h : Owned ps s) (hp : ∀ t, Placed s t) {a : Action T K} (hm : Moves sh s a s')
    (hactor : a.actor = none) :
    s'.stringQueue.potential ps + s'.eventQueue.potential ps + a.cost ≤
      s.stringQueue.potential ps + s.eventQueue.potential ps + a.income sh ps := by
  cases hm with
  | setPaused => exact le_refl _
  | updateTimestamp => exact le_refl _
  | frameEnd => exact le_refl _
  | @drainEvents _ b q hab hq =>
    have hring := drain_potential (onlyFrom_events h hp)
      (by rcases hab with ⟨n, -, rfl⟩ | ⟨-, rfl⟩ <;> simp) hq
    have hfree : a.cost = 0 := by rcases hab with ⟨n, rfl, -⟩ | ⟨rfl, -⟩ <;> rfl
    rw [hfree]
    show s.stringQueue.potential ps + q.potential ps + 0 ≤ _
    omega
  | @drainStrings _ b q hab hq =>
    have hring := drain_potential (onlyFrom_strings h hp)
      (by rcases hab with ⟨-, rfl⟩ | ⟨-, rfl⟩ <;> simp) hq
    have hfree : a.cost = 0 := by rcases hab with ⟨rfl, -⟩ | ⟨rfl, -⟩ <;> rfl
    rw [hfree]
    show q.potential ps + s.eventQueue.potential ps + 0 ≤ _
    omega
  | look hpl hab hoffer hv => rw [(look_actor hab).1] at hactor; cases hactor
  | nameOn hpl hab hq => rw [(ring_moves hab hq).1] at hactor; cases hactor
  | sendOn hpl hab hq => rw [(ring_moves hab hq).1] at hactor; cases hactor
  | _ => cases hactor

/-- STEP: every access is paid for. -/
theorem step_pays (h : Owned ps s) (hp : ∀ t, Placed s t) {a : Action T K} (ha : CallsFrom ps a)
    (hs : step sh s a = some s') :
    s'.potential sh ps + a.cost ≤ s.potential sh ps + a.income sh ps := by
  have hm := step_moves hs
  have hsame : ∀ u, a.actor ≠ some u → s'.stepsLeft sh ps u = s.stepsLeft sh ps u := by
    intro u hu
    have h := moves_same hp hm hu
    rw [State.stepsLeft, h.place, h.prober, State.stepsLeft]
  rcases hactor : a.actor with _ | t
  · have hpay := others_pay h hp hm hactor
    have hsum : (∑ u ∈ ps, s'.stepsLeft sh ps u) = ∑ u ∈ ps, s.stepsLeft sh ps u :=
      Finset.sum_congr rfl fun u _ => hsame u (by rw [hactor]; exact (Option.some_ne_none u).symm)
    rw [State.potential, State.potential, hsum]
    omega
  · have hpay := actor_pays h hp ha hm hactor
    rw [Nat.add_assoc, Nat.add_assoc, Nat.add_assoc, Nat.add_assoc] at hpay
    have hsum := sum_step (actor_mem h hm ha hactor)
      (fun u hu => hsame u (by rw [hactor]; exact fun he => hu (Option.some.inj he).symm)) hpay
    rw [State.potential, State.potential]
    omega

omit [DecidableEq T] [DecidableEq K] in
theorem owned_new (ps : Finset T) (junk : Junk K) : Owned ps (State.new junk : State T K) where
  idle := fun _ _ => rfl
  unbound := fun _ _ => rfl
  bound := fun _ _ h => by cases h
  count := by simp [State.new]

/-! ### A call can go on -/

/-- The table can take the next step of a thread that is in it. -/
theorem lookUp_isSome (hbusy : s.strings.thread t ≠ .idle) (i : ℕ) (c : Call K) (r : Reads) :
    (s.lookUp sh t i c r (.go t)).isSome = true := by
  rw [State.lookUp, Option.isSome_map]
  exact HashThreads.go_enabled hbusy

/-- A thread in a call has an access to make. -/
theorem go_isSome (h : Owned ps s) (hp : Placed s t) (hps : ps.card ≤ espMaxThreadCount)
    (ht : t ∈ ps) (hbusy : s.place t ≠ .idle) : (go sh s t).isSome = true := by
  have hprober : ∀ {pl : Place K}, s.place t = pl → pl.request ≠ none → s.strings.thread t ≠ .idle := by
    rintro pl rfl hrequest hidle
    rw [← hp.strings, hidle] at hrequest
    exact hrequest rfl
  unfold go
  cases hpl : s.place t with
  | idle => exact absurd hpl hbusy
  | entered c => rfl
  | unpaused c =>
    obtain ⟨i, hi, hlt⟩ := h.context hps ht
    simp only [hi]
    rw [if_pos hlt]
    rfl
  | ready i c =>
    simp only
    split <;> rfl
  | numbered i c id => rfl
  | timed i c id now =>
    have hidle : s.strings.thread t = .idle :=
      HashThreads.idle_of_call (hp.strings.trans (by rw [hpl]; rfl))
    simp only [HashThreads.step, hidle]
    rfl
  | mapping i c r =>
    simp only
    split
    · rw [Option.isSome_map]
      exact RingThreads.enqueue_isSome (hp.naming.mpr (by rw [hpl]; exact id)) _
    · exact lookUp_isSome (hprober hpl (Option.some_ne_none _)) i c r
  | naming i c r =>
    have hproducer : s.stringQueue.producer t ≠ .idle := fun he =>
      hp.naming.mp he (by rw [hpl]; trivial)
    have hsome : (RingThreads.step stringQueueCapacity s.stringQueue (.produce t)).isSome = true :=
      RingThreads.produce_isSome hproducer
    obtain ⟨q, hq⟩ := Option.isSome_iff_exists.mp hsome
    simp only [hq, Option.bind_some]
    split
    · exact lookUp_isSome (s := { s with stringQueue := q })
        (hprober hpl (Option.some_ne_none _)) i c r
    · rfl
  | offering event =>
    simp only
    rw [Option.isSome_map]
    exact RingThreads.enqueue_isSome (hp.sending.mpr (by rw [hpl]; exact id)) _
  | sending =>
    simp only
    rw [Option.isSome_map]
    exact RingThreads.produce_isSome fun he => hp.sending.mp he (by rw [hpl]; trivial)

omit [DecidableEq T] [DecidableEq K] in
/-- A thread in a call holds some of the potential. -/
theorem potential_pos (hp : Placed s t) (ht : t ∈ ps) (hbusy : s.place t ≠ .idle) :
    0 < s.potential sh ps := by
  have hown : s.stepsLeft sh ps t ≤ ∑ u ∈ ps, s.stepsLeft sh ps u :=
    Finset.single_le_sum (fun _ _ => Nat.zero_le _) ht
  rw [State.potential]
  cases hpl : s.place t with
  | idle => exact absurd hpl hbusy
  | sending =>
    have hring := RingThreads.potential_pos ht fun he => hp.sending.mp he (by rw [hpl]; trivial)
    omega
  | _ =>
    rw [stepsLeft_at sh ps hpl] at hown
    simp only [Place.stepsLeft, offerSteps] at hown
    omega

/-! ### Runs -/

omit [DecidableEq T] [DecidableEq K] in
theorem income_sum (sh : Shape K) (ps : Finset T) (as : List (Action T K)) :
    (as.map (Action.income sh ps)).sum =
      callSteps sh ps * as.countP Action.isCall + 2 * as.countP Action.isSpurious := by
  induction as with
  | nil => rfl
  | cons a as ih =>
    rw [List.map_cons, List.sum_cons, List.countP_cons, List.countP_cons, ih]
    cases a <;> simp [Action.income, Action.isCall, Action.isSpurious] <;> ring

/-- CORRECT: in every interleaving of the accesses of the recording threads `ps`, no more of them than
    there are contexts, with the drain thread, the timer and the frames, the threads make no more than
    `callSteps` accesses for each call and 2 for each CAS that failed for no reason; and as long as one
    of them is in a call it can make its next access, and they have not yet made them all. -/
theorem lockFreeCalls_run (sh : Shape K) (junk : Junk K) (hps : ps.card ≤ espMaxThreadCount)
    {as : List (Action T K)} (has : ∀ a ∈ as, CallsFrom ps a)
    (hr : run (step sh) (State.new junk) as = some s) :
    as.countP Action.isAccess ≤
        callSteps sh ps * as.countP Action.isCall + 2 * as.countP Action.isSpurious ∧
      ∀ t, s.place t ≠ .idle → (go sh s t).isSome = true ∧
        as.countP Action.isAccess <
          callSteps sh ps * as.countP Action.isCall + 2 * as.countP Action.isSpurious := by
  have hstep : ∀ (u : State T K) a v, Owned ps u ∧ (∀ t, Placed u t) → CallsFrom ps a →
      step sh u a = some v → (Owned ps v ∧ ∀ t, Placed v t) ∧
        v.potential sh ps + a.cost ≤ u.potential sh ps + a.income sh ps := by
    rintro u a v ⟨hI, hp⟩ hG hs
    exact ⟨⟨hI.moves hp hG (step_moves hs), placed_step hp hs⟩, step_pays hI hp hG hs⟩
  have hnew : Owned ps (State.new junk : State T K) ∧ ∀ t, Placed (State.new junk : State T K) t :=
    ⟨owned_new ps junk, placed_new junk⟩
  have hbudget := run_budget (State.potential sh ps) Action.cost (Action.income sh ps) hstep as
    (meets_of_forall has _) hnew hr
  obtain ⟨hI, hp⟩ := run_inv (I := fun u => Owned ps u ∧ ∀ t, Placed u t)
    (fun u a v hI hG hs => (hstep u a v hI hG hs).1) as (meets_of_forall has _) hnew hr
  have hzero : (State.new junk : State T K).potential sh ps = 0 := by
    simp [State.potential, State.stepsLeft, State.new, Place.stepsLeft, RingThreads.State.potential,
      RingThreads.State.new, RingThreads.Producer.stepsLeft, RingThreads.Producer.toClaim,
      RingThreads.pairs]
  have hcosts : (as.map Action.cost).sum = as.countP Action.isAccess := sum_ones _ as
  rw [hcosts, income_sum, hzero, Nat.zero_add] at hbudget
  refine ⟨by omega, ?_⟩
  intro t hbusy
  have ht : t ∈ ps := by
    by_contra ht
    exact hbusy (hI.idle t ht)
  have hpos : 0 < s.potential sh ps := potential_pos (hp t) ht hbusy
  exact ⟨go_isSome hI (hp t) hps ht hbusy, by omega⟩

/-- Two threads sample; the second has a context and an id while the first is in the table. -/
def twoInCalls : List (Action Bool Addr) :=
  [.call true (.sample (some nameA) (.int 7)), .go true, .go true, .go true, .go true, .go true,
    .call false (.sample (some nameB) (.int 8)), .go false, .go true, .go false, .go false]

theorem lockFreeCalls_run_twoInCalls : ∃ s : State Bool Addr,
    run (step espStrings) (State.new (Junk.zero nameA)) twoInCalls = some s ∧
      (go espStrings s false).isSome = true ∧
        twoInCalls.countP Action.isAccess <
          callSteps espStrings (Finset.univ : Finset Bool) * twoInCalls.countP Action.isCall +
            2 * twoInCalls.countP Action.isSpurious := by
  have hcalls : ∀ a ∈ twoInCalls, CallsFrom (Finset.univ : Finset Bool) a := by
    intro a ha
    cases a <;> first | exact Finset.mem_univ _ | trivial
  refine ⟨_, rfl, ?_⟩
  obtain ⟨-, hbusy⟩ := lockFreeCalls_run espStrings (Junk.zero nameA)
    (show (Finset.univ : Finset Bool).card ≤ 64 by decide) hcalls
    (rfl : run (step espStrings) (State.new (Junk.zero nameA)) twoInCalls = some _)
  exact hbusy false (fun h => by cases h)

end Esp.Accesses
