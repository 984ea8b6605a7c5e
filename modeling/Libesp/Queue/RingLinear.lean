import Libesp.Queue.BoundedFifo
import Libesp.Queue.RingDelivery
import Libesp.Schemes.Budget
import Libesp.Schemes.Linear

/-! @esp queue | name:LocklessRingQueue | scheme:linearizability | source:src/queue/lockless_ring.h

    The queue with its producers one at a time, each of them beside the consumer. Then nothing of what
    goes wrong between producers can happen, and the queue is the bounded list: every call takes effect
    at one of its steps, and the calls answer as the list does when it is asked in that order.

        TryEnqueue   accepted at the fetch_add on readfront     refused at the load of back
        TryDequeue   entries at the store to back               nothing at the load of readfront

    A dequeue that is to find nothing has found it when it loads `readfront`, for the `back` that it
    compares with is its own. -/

namespace Esp.RingThreads
open Cursor Memory LocklessRing Machine Objects Linear

variable {P α : Type} (cap : ℕ)

/-- No producer is in `TryEnqueue` when another calls it. -/
def Exclusive (s : State P α) : Action P α → Prop
  | .enqueue _ _ => ∀ q, s.producer q = .idle
  | _ => True

instance (pc : Producer α) : Decidable (pc = .idle) :=
  match pc with
  | .idle => isTrue rfl
  | .enter _ | .loaded _ _ | .passed _ _ | .claimed _ _ | .filled _ => isFalse fun h => by cases h

instance [Fintype P] (s : State P α) (a : Action P α) : Decidable (Exclusive s a) :=
  match a with
  | .enqueue _ _ => inferInstanceAs (Decidable (∀ q, s.producer q = .idle))
  | .produce _ | .casFails _ | .dequeue | .dequeueBulk _ | .consume =>
    inferInstanceAs (Decidable True)

/-- The published entries that have not been dequeued, oldest first. -/
def State.entries (s : State P α) : List α :=
  (s.claims.drop s.ring.back.toNat).take (s.ring.readfront - s.ring.back).toNat

/-- The calls that take effect in a step, with their answers. A bulk dequeue is one for each entry. -/
def effects (s : State P α) : Action P α → List (RingCall α × RingAnswer α)
  | .produce p =>
    match s.producer p with
    | .loaded v f =>
      if modcapEq cap (wrap32 (f + 1)) s.ring.back then [(.tryEnqueue v, .accepted false)] else []
    | .filled f => s.claims[f.toNat]?.toList.map fun v => (.tryEnqueue v, .accepted true)
    | _ => []
  | .consume =>
    match s.consumer with
    | .enter | .enterBulk _ =>
      if modcapEq cap s.ring.readfront s.ring.back then [(.tryDequeue, .out none)] else []
    | .copied _ v => [(.tryDequeue, .out (some v))]
    | .copiedBulk _ vs => vs.map fun v => (.tryDequeue, .out (some v))
    | _ => []
  | _ => []

/-- What the calls handed out. -/
def handedOut (es : List (RingCall α × RingAnswer α)) : List α :=
  es.filterMap fun e =>
    match e.2 with
    | .out v => v
    | _ => none

/-- What the locals of the producer in `TryEnqueue` say when there is no other. -/
def AloneOk (r : RingQueue α) (written : List ℤ) : Producer α → Prop
  | .idle | .enter _ => True
  | .loaded _ f | .passed _ f => f = r.front
  | .claimed _ f => f = r.readfront ∧ f + 1 = r.front
  | .filled f => f = r.readfront ∧ f + 1 = r.front ∧ f ∈ written

/-- INVARIANT: at most one producer is in `TryEnqueue`. -/
structure Alone (s : State P α) : Prop where
  one : ∀ p q, s.producer p ≠ .idle → s.producer q ≠ .idle → p = q
  ok : ∀ p, AloneOk s.ring s.written (s.producer p)

variable {cap} {s t : State P α} {a : Action P α} {p : P}

theorem Alone.others (h : Alone s) (hp : s.producer p ≠ .idle) {q : P} (hq : q ≠ p) :
    s.producer q = .idle :=
  by_contra fun hne => hq (h.one q p hne hp)

/-- With no ticket out, everything claimed is published. -/
theorem Alone.published (h : Alone s) (hc : CursorInv cap s) (hp : s.producer p ≠ .idle)
    (hticket : (s.producer p).ticket = none) : s.ring.readfront = s.ring.front := by
  rw [hc.front_eq]
  refine hc.published_all fun q => ?_
  by_cases hq : q = p
  · rw [hq, hticket]
  · rw [h.others hp hq]
    rfl

variable [DecidableEq P]

/-- The next place of the one producer. -/
theorem Alone.goto (h : Alone s) (hp : s.producer p ≠ .idle) {pc : Producer α} {t : State P α}
    (ht : t.producer = Function.update s.producer p pc) (hok : AloneOk t.ring t.written pc) :
    Alone t where
  one := by
    intro q q' hq hq'
    have hother : ∀ x, t.producer x ≠ .idle → x = p := by
      intro x hx
      by_contra hxp
      rw [ht, Function.update_of_ne hxp] at hx
      exact hx (h.others hp hxp)
    rw [hother q hq, hother q' hq']
  ok := by
    intro q
    rw [ht]
    by_cases hq : q = p
    · rw [hq, Function.update_self]
      exact hok
    · rw [Function.update_of_ne hq, h.others hp hq]
      trivial

/-- STEP: calls that do not overlap leave one producer at a time. -/
theorem alone_moves (h : Alone s) (hc : CursorInv cap s) (hex : Exclusive s a)
    (hN : t.claims.length < 2147483648) (hm : Moves cap s a t) : Alone t := by
  cases hm with
  | @call p v hp =>
    refine ⟨?_, ?_⟩
    · intro q q' hq hq'
      have hother : ∀ x, Function.update s.producer p (Producer.enter v) x ≠ .idle → x = p := by
        intro x hx
        by_contra hxp
        rw [Function.update_of_ne hxp] at hx
        exact hx (hex x)
      rw [hother q hq, hother q' hq']
    · intro q
      by_cases hq : q = p
      · subst hq
        simp only [State.goto, Function.update_self]
        trivial
      · simp only [State.goto, Function.update_of_ne hq, hex q]
        trivial
  | @loadFront p v hp => exact h.goto (p := p) (by simp [hp]) rfl rfl
  | @refuse p v f hp hfull => exact h.goto (p := p) (by simp [hp]) rfl trivial
  | @pass p v f hp hroom =>
    have hok := h.ok p
    rw [hp] at hok
    exact h.goto (p := p) (by simp [hp]) rfl hok
  | @claim p v hp =>
    have hfront := hc.front_eq
    simp only [List.length_append, List.length_singleton] at hN
    refine h.goto (p := p) (by simp [hp]) rfl ⟨?_, ?_⟩
    · exact (h.published hc (p := p) (by simp [hp]) (by rw [hp]; rfl)).symm
    · exact (wrap32_of_range (by omega) (by omega)).symm
  | @retry a p v f hp => exact h.goto (p := p) (by simp [hp]) rfl rfl
  | @fill p v f hp =>
    have hok := h.ok p
    rw [hp] at hok
    exact h.goto (p := p) (by simp [hp]) rfl
      ⟨hok.1, hok.2, List.mem_append_right _ List.mem_cons_self⟩
  | @publish p f hp => exact h.goto (p := p) (by simp [hp]) rfl trivial
  | _ => exact ⟨h.one, h.ok⟩

/-! ### The entries -/

omit [DecidableEq P] in
theorem CursorInv.entries_length (hc : CursorInv cap s) :
    (s.entries.length : ℤ) = s.ring.readfront - s.ring.back := by
  have hfront := hc.front_eq
  have hread := hc.readfront_le
  have hback := hc.back_le
  have hpos := hc.back_nonneg
  rw [State.entries, List.length_take, List.length_drop]
  omega

omit [DecidableEq P] in
/-- A dequeue's test fires exactly when there are no entries. -/
theorem CursorInv.empty_iff (hc : CursorInv cap s) :
    modcapEq cap s.ring.readfront s.ring.back = true ↔ s.entries = [] := by
  have hlen := hc.entries_length
  have hwindow := hc.window
  have hread := hc.readfront_le
  have hback := hc.back_le
  rw [modcapEq_iff, ← List.length_eq_zero_iff]
  constructor
  · intro htest
    have heq := eq_of_tmod_eq htest hback (by omega)
    omega
  · intro hzero
    have heq : s.ring.readfront = s.ring.back := by omega
    rw [heq]

omit [DecidableEq P] in
/-- A new claim is not an entry yet. -/
theorem CursorInv.entries_claim (hc : CursorInv cap s) {v : α}
    (hclaims : t.claims = s.claims ++ [v]) (hback : t.ring.back = s.ring.back)
    (hread : t.ring.readfront = s.ring.readfront) : t.entries = s.entries := by
  have hfront := hc.front_eq
  have hle := hc.readfront_le
  have hback_le := hc.back_le
  have hpos := hc.back_nonneg
  rw [State.entries, State.entries, hclaims, hback, hread, List.drop_append_of_le_length (by omega),
    List.take_append_of_le_length]
  rw [List.length_drop]
  omega

omit [DecidableEq P] in
/-- The published ticket is the next entry. -/
theorem CursorInv.entries_publish (hc : CursorInv cap s) (hclaims : t.claims = s.claims)
    (hback : t.ring.back = s.ring.back) (hread : t.ring.readfront = s.ring.readfront + 1) :
    t.entries = s.entries ++ s.claims[s.ring.readfront.toNat]?.toList := by
  have hback_le := hc.back_le
  have hpos := hc.back_nonneg
  have hsucc : (s.ring.readfront + 1 - s.ring.back).toNat =
      (s.ring.readfront - s.ring.back).toNat + 1 := by omega
  have hplace : s.ring.back.toNat + (s.ring.readfront - s.ring.back).toNat =
      s.ring.readfront.toNat := by omega
  rw [State.entries, State.entries, hclaims, hback, hread, hsucc, List.take_add_one,
    List.getElem?_drop, hplace]

omit [DecidableEq P] in
/-- What the consumer takes are the first entries. -/
theorem CursorInv.entries_pop (hc : CursorInv cap s) {vs : List α}
    (hvs : vs <+: s.claims.drop s.ring.back.toNat)
    (hle : s.ring.back + vs.length ≤ s.ring.readfront) (hclaims : t.claims = s.claims)
    (hback : t.ring.back = s.ring.back + vs.length) (hread : t.ring.readfront = s.ring.readfront) :
    s.entries = vs ++ t.entries := by
  have hpos := hc.back_nonneg
  obtain ⟨rest, hrest⟩ := hvs
  have htail : s.claims.drop (s.ring.back + vs.length).toNat = rest := by
    have hplace : (s.ring.back + vs.length).toNat = s.ring.back.toNat + vs.length := by omega
    rw [hplace, ← List.drop_drop, ← hrest, List.drop_left]
  have hcount : (s.ring.readfront - s.ring.back).toNat =
      vs.length + (s.ring.readfront - (s.ring.back + vs.length)).toNat := by omega
  rw [State.entries, State.entries, hclaims, hback, hread, htail, ← hrest, hcount,
    List.take_length_add_append]

/-- The list answers one dequeue for each of its first entries. -/
theorem answered_pops (vs q : List α) :
    Answered (boundedFifo cap) (vs ++ q)
      (vs.map fun v => (RingCall.tryDequeue, RingAnswer.out (some v))) q := by
  induction vs with
  | nil => exact .nil q
  | cons v vs ih => exact (Answered.one (rfl : boundedFifo cap (v :: (vs ++ q)) .tryDequeue =
      (.out (some v), vs ++ q))).append ih

/-! ### Steps -/

/-- STEP: what a producer's step does to the list. -/
theorem produce_answered (hc : CursorInv cap s) (ha : Alone s)
    (hN : s.claims.length < 2147483647) (hs : produce cap s p = some t) :
    Answered (boundedFifo cap) s.entries (effects cap s (.produce p)) t.entries := by
  have hok := ha.ok p
  have hlen := hc.entries_length
  have hwindow := hc.window
  have hfront := hc.front_eq
  rcases hp : s.producer p with _ | v | ⟨v, f⟩ | ⟨v, f⟩ | ⟨v, f⟩ | f <;>
    simp only [produce, hp] at hs <;> simp only [effects, hp] <;> rw [hp] at hok
  case idle => cases hs
  case enter =>
    obtain rfl := Option.some.inj hs
    exact .nil _
  case loaded =>
    obtain rfl : f = s.ring.front := hok
    split at hs
    · rename_i htest
      obtain rfl := Option.some.inj hs
      rw [if_pos htest]
      have hback := hc.back_le
      have hpublished := ha.published hc (p := p) (by simp [hp]) (by rw [hp]; rfl)
      have hfull := hc.full_of_test (by omega) (by omega) (le_refl _) (by omega) htest
      rw [IsFull] at hfull
      exact .one (show boundedFifo cap s.entries (.tryEnqueue v) = (.accepted false, s.entries) by
        rw [boundedFifo, if_neg (by omega)])
    · rename_i htest
      obtain rfl := Option.some.inj hs
      rw [if_neg htest]
      exact .nil _
  case passed =>
    split at hs
    · have ht := (Option.some.inj hs).symm
      rw [hc.entries_claim (t := t) (by rw [ht]) (by rw [ht]) (by rw [ht])]
      exact .nil _
    · obtain rfl := Option.some.inj hs
      exact .nil _
  case claimed =>
    obtain rfl := Option.some.inj hs
    exact .nil _
  case filled =>
    obtain ⟨rfl, hnext, -⟩ := hok
    have hback := hc.back_le
    have hpos := hc.back_nonneg
    have hw : wrap32 (s.ring.readfront + 1) = s.ring.readfront + 1 :=
      wrap32_of_range (by omega) (by omega)
    have ht := (Option.some.inj hs).symm
    have hlt : s.ring.readfront.toNat < s.claims.length := by omega
    rw [hc.entries_publish (t := t) (by rw [ht]; rfl) (by rw [ht]) (by rw [ht]; exact hw),
      List.getElem?_eq_getElem hlt]
    exact .one (show boundedFifo cap s.entries (.tryEnqueue s.claims[s.ring.readfront.toNat]) =
        (.accepted true, s.entries ++ [s.claims[s.ring.readfront.toNat]]) by
      rw [boundedFifo, if_pos (by omega)])

omit [DecidableEq P] in
/-- STEP: what a consumer's step does to the list. -/
theorem consume_answered (hc : CursorInv cap s) (hsl : SlotInv cap s)
    (hN : s.claims.length < 2147483647) (hs : consume cap s = some t) :
    Answered (boundedFifo cap) s.entries (effects cap s .consume) t.entries := by
  have hok := hc.consumer
  have hcopy := hsl.consumer
  have hpos := hc.back_nonneg
  have hread := hc.readfront_le
  have hfront := hc.front_eq
  have hload : ∀ u : State P α, u.entries = s.entries → Answered (boundedFifo cap) s.entries
      (if modcapEq cap s.ring.readfront s.ring.back then [(.tryDequeue, .out none)] else [])
        u.entries := by
    intro u hu
    rw [hu]
    split
    · rename_i htest
      rw [hc.empty_iff.mp htest]
      exact .one rfl
    · exact .nil _
  rcases hpc : s.consumer with _ | _ | f | b | ⟨b, v⟩ | maxOut | ⟨f, maxOut⟩ | ⟨b, k⟩ | ⟨k, vs⟩ <;>
    simp only [consume, hpc] at hs <;> simp only [effects, hpc] <;> rw [hpc] at hok hcopy
  case idle => cases hs
  case enter =>
    obtain rfl := Option.some.inj hs
    exact hload _ rfl
  case loaded => split at hs <;> obtain rfl := Option.some.inj hs <;> exact .nil _
  case passed =>
    obtain rfl := Option.some.inj hs
    exact .nil _
  case copied =>
    obtain ⟨rfl, hlt⟩ := hok
    have hw : wrap32 (s.ring.back + 1) = s.ring.back + 1 := wrap32_of_range (by omega) (by omega)
    have ht := (Option.some.inj hs).symm
    rw [hc.entries_pop (t := t) hcopy (by simp only [List.length_singleton]; omega) (by rw [ht])
      (by rw [ht]; exact hw) (by rw [ht])]
    exact answered_pops [v] _
  case enterBulk =>
    obtain rfl := Option.some.inj hs
    exact hload _ rfl
  case loadedBulk => split at hs <;> obtain rfl := Option.some.inj hs <;> exact .nil _
  case passedBulk =>
    obtain rfl := Option.some.inj hs
    exact .nil _
  case copiedBulk =>
    obtain ⟨hle, hk⟩ := hok
    have hw : wrap32 (s.ring.back + k) = s.ring.back + k := wrap32_of_range (by omega) (by omega)
    have ht := (Option.some.inj hs).symm
    rw [hc.entries_pop (t := t) hcopy (by omega) (by rw [ht]) (by rw [ht, hk]; exact hw) (by rw [ht])]
    exact answered_pops vs _

omit [DecidableEq P] in
/-- STEP: what is published is written. -/
theorem Alone.publishesWritten (h : Alone s) (a : Action P α) : publishesWritten s a = true := by
  cases a with
  | produce p =>
    have hok := h.ok p
    rw [RingThreads.publishesWritten]
    split
    · rename_i f hp
      rw [hp] at hok
      exact decide_eq_true (hok.1 ▸ hok.2.2)
    · rfl
  | _ => rfl

/-- STEP: whoever moves. -/
theorem linear_step (hc : CursorInv cap s) (hsl : SlotInv cap s) (ha : Alone s)
    (hex : Exclusive s a) (hN : t.claims.length < 2147483647) (hs : step cap s a = some t) :
    (CursorInv cap t ∧ SlotInv cap t ∧ Alone t) ∧
      Answered (boundedFifo cap) s.entries (effects cap s a) t.entries := by
  have hN₀ : s.claims.length < 2147483647 := lt_of_le_of_lt (claims_step hs) hN
  refine ⟨?_, ?_⟩
  · obtain ⟨u, hm, rfl⟩ := step_moves hs
    have hu : u.claims.length < 2147483648 := by
      have hsame : (u.noteFull cap).claims = u.claims := rfl
      rw [hsame] at hN
      omega
    have hcu := cursorInv_moves hc hm hu
    have hslu := slotInv_moves hc hcu hsl (ha.publishesWritten a) hm hu
    have hau := alone_moves ha hc hex hu hm
    exact ⟨cursorInv_noteFull hcu, { hslu with }, ⟨hau.one, hau.ok⟩⟩
  · obtain ⟨u, hu, rfl⟩ := Option.map_eq_some_iff.mp hs
    show Answered (boundedFifo cap) s.entries (effects cap s a) u.entries
    cases a with
    | enqueue p v =>
      simp only [act] at hu
      split at hu
      · cases hu
        exact .nil _
      · cases hu
    | produce p => exact produce_answered hc ha hN₀ hu
    | casFails p =>
      simp only [act] at hu
      split at hu
      · cases hu
        exact .nil _
      · cases hu
    | dequeue =>
      simp only [act] at hu
      split at hu
      · cases hu
        exact .nil _
      · cases hu
    | dequeueBulk maxOut =>
      simp only [act] at hu
      split at hu
      · cases hu
        exact .nil _
      · cases hu
    | consume => exact consume_answered hc hsl hN₀ hu

omit [DecidableEq P] in
theorem handedOut_pops (vs : List α) :
    handedOut (vs.map fun v => ((.tryDequeue, .out (some v)) : RingCall α × RingAnswer α)) = vs := by
  induction vs with
  | nil => rfl
  | cons v vs ih => exact congrArg (v :: ·) ih

omit [DecidableEq P] in
/-- The calls of a producer hand out nothing. -/
theorem handedOut_produce (s : State P α) (p : P) : handedOut (effects cap s (.produce p)) = [] := by
  cases hp : s.producer p with
  | loaded v f =>
    simp only [effects, hp]
    split <;> rfl
  | filled f =>
    simp only [effects, hp]
    rcases s.claims[f.toNat]? with _ | v <;> rfl
  | _ =>
    simp only [effects, hp]
    rfl

/-- STEP: the entries that a step hands out. -/
theorem out_step (hs : step cap s a = some t) : t.out = s.out ++ handedOut (effects cap s a) := by
  obtain ⟨u, hu, rfl⟩ := Option.map_eq_some_iff.mp hs
  show u.out = s.out ++ handedOut (effects cap s a)
  cases a with
  | produce p =>
    rw [handedOut_produce, List.append_nil]
    simp only [act, produce] at hu
    split at hu
    case h_1 => cases hu
    case h_3 => split at hu <;> cases hu <;> rfl
    case h_4 => split at hu <;> cases hu <;> rfl
    all_goals cases hu; rfl
  | consume =>
    simp only [act, consume] at hu
    split at hu
    all_goals rename_i hc
    case h_1 => cases hu
    case h_2 =>
      cases hu
      simp only [effects, hc]
      split <;> exact (List.append_nil _).symm
    case h_3 =>
      simp only [effects, hc]
      split at hu <;> cases hu <;> exact (List.append_nil _).symm
    case h_5 b v =>
      cases hu
      simp only [effects, hc]
      rfl
    case h_6 =>
      cases hu
      simp only [effects, hc]
      split <;> exact (List.append_nil _).symm
    case h_7 =>
      simp only [effects, hc]
      split at hu <;> cases hu <;> exact (List.append_nil _).symm
    case h_9 k vs =>
      cases hu
      simp only [effects, hc, handedOut_pops]
    -- the copies
    all_goals
      cases hu
      simp only [effects, hc]
      exact (List.append_nil _).symm
  | _ =>
    simp only [act] at hu
    split at hu
    · cases hu
      exact (List.append_nil _).symm
    · cases hu

/-- REFINEMENT: where the producers' calls do not overlap, every run answers its calls as the bounded
    list does when it is asked in the order in which they take effect, and the entries handed out are
    those of the answers. -/
theorem linear_run (hcap : 0 < cap) (junk : ℤ → α) {as : List (Action P α)}
    (hr : run (step cap) (State.new junk) as = some s) (hN : s.claims.length < 2147483647)
    (hex : Meets (step cap) Exclusive (State.new junk) as) :
    answers (boundedFifo cap) []
        (((trace (step cap) (State.new junk) as).flatMap fun x => effects cap x.1 x.2).map Prod.fst) =
      ((trace (step cap) (State.new junk) as).flatMap fun x => effects cap x.1 x.2).map Prod.snd ∧
    final (boundedFifo cap) []
        (((trace (step cap) (State.new junk) as).flatMap fun x => effects cap x.1 x.2).map Prod.fst) =
      s.entries ∧
    s.out = (trace (step cap) (State.new junk) as).flatMap fun x => handedOut (effects cap x.1 x.2) := by
  have hboth : Meets (step cap) (fun s a => Exclusive s a ∧
      ∀ t, step cap s a = some t → t.claims.length < 2147483647) (State.new junk) as := fun x hx =>
    ⟨hex x hx, meets_below (fun _ _ _ => claims_step) as hr hN x hx⟩
  have hnew : (State.new junk : State P α).entries = [] := rfl
  have hlinear : Answered (boundedFifo cap) (State.new junk : State P α).entries
      ((trace (step cap) (State.new junk) as).flatMap fun x => effects cap x.1 x.2) s.entries :=
    run_answered (I := fun s => CursorInv cap s ∧ SlotInv cap s ∧ Alone s) State.entries (effects cap)
      (fun u b v hI hG hs => linear_step hI.1 hI.2.1 hI.2.2 hG.1 (hG.2 v hs) hs) as hboth
      ⟨cursorInv_new hcap junk, slotInv_new junk, fun _ _ hp => absurd rfl hp, fun _ => trivial⟩ hr
  rw [hnew] at hlinear
  exact ⟨hlinear.1, hlinear.2,
    run_history (I := fun _ => True) State.out (fun s a => handedOut (effects cap s a))
      (fun _ _ _ _ _ hs => ⟨trivial, out_step hs⟩) as hex trivial hr⟩

/-- Two producers in turn on a queue of two entries, beside a bulk dequeue, and a dequeue that finds
    nothing. -/
def takingTurns : List (Action Bool ℕ) :=
  [.enqueue false 10, .produce false, .dequeueBulk 5, .produce false, .produce false, .produce false,
    .produce false, .consume, .enqueue true 20, .produce true, .consume, .produce true, .consume,
    .produce true, .produce true, .consume, .produce true, .dequeue, .consume, .consume, .consume,
    .consume, .dequeue, .consume]

theorem linear_run_takingTurns : ∃ s : State Bool ℕ,
    run (step 3) (State.new fun _ => 77) takingTurns = some s ∧
    (trace (step 3) (State.new fun _ => 77) takingTurns).flatMap (fun x => (effects 3 x.1 x.2).map
      Prod.snd) = [.accepted true, .out (some 10), .accepted true, .out (some 20), .out none] ∧
    final (boundedFifo 3) [] (((trace (step 3) (State.new fun _ => 77) takingTurns).flatMap fun x =>
      effects 3 x.1 x.2).map Prod.fst) = s.entries := by
  refine ⟨_, rfl, by decide, ?_⟩
  exact (@linear_run Bool ℕ 3 _ _ (by decide) (fun _ => 77) takingTurns rfl (by decide)
    (by decide)).2.1

end Esp.RingThreads
