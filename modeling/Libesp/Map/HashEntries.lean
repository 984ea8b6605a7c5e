import Libesp.Schemes.Memory
import Libesp.Map.HashThreads

/-! @esp map | name:PointerHash | scheme:invariant | source:src/map/pointer_hash.h

    What every interleaving keeps of the table: a claimed slot keeps its key, its index is drawn
    once, and its value is that index or, while the claimant has not stored it, still `0`.

    `Get` finds the key as soon as it is claimed and answers whatever the value is. A thread that
    looks up a name between the CAS and the store of its inserter is answered `0`, the reference of
    the first name of the session. References are exact in the runs where every value is read after
    it is stored, or is due to be `0` (`distinctRefs_run`). -/

namespace Esp.HashThreads
open Memory Probe PointerHash Machine

variable {T K : Type} (sh : Shape K)

/-- The slot a thread has claimed and not yet stored the index of. -/
def Prober.owns : Prober K → Option ℕ
  | .putDraw _ _ idx => some idx
  | .putStore _ _ idx _ => some idx
  | _ => none

/-- The reference `r` is an index drawn for the pointer `p`. -/
def Issued (drawn : List (Option K × ℕ)) (p : Option K) (r : UInt32) : Prop :=
  ∃ i idx, r = UInt32.ofNat i ∧ drawn[i]? = some (p, idx)

/-- What a thread's locals say about the table and the draws. -/
def ThreadOk (tbl : Table K) (drawn : List (Option K × ℕ)) : Prober K → Prop
  | .idle => True
  | .getPtr _ _ idx | .putPtr _ _ idx => idx < sh.capacity
  | .getValue _ p idx => ∀ k, p = some k → tbl.ptr idx = p
  | .putCas _ p idx => idx < sh.capacity ∧ p ≠ none
  | .putDraw _ p idx => p ≠ none ∧ tbl.ptr idx = p ∧ ∀ x ∈ drawn, x.2 ≠ idx
  | .putStore _ p idx i => drawn[i]? = some (p, idx)
  | .offer p r => Issued drawn p r

/-- INVARIANT: keys, draws and values of the table. -/
structure EntryInv (s : State T K) : Prop where
  threads : ∀ t, ThreadOk sh s.table s.drawn (s.thread t)
  owners : ∀ t u idx, (s.thread t).owns = some idx → (s.thread u).owns = some idx → t = u
  claimed : ∀ idx k, s.table.ptr idx = some k → idx < sh.capacity
  entry : ∀ idx k, s.table.ptr idx = some k →
    s.drawn[s.table.value idx]? = some (some k, idx) ∨
      (∃ t, (s.thread t).owns = some idx) ∧ s.table.value idx = 0
  drawn_ok : ∀ x ∈ s.drawn, x.1 ≠ none ∧ s.table.ptr x.2 = x.1
  drawn_nodup : (s.drawn.map Prod.snd).Nodup
  nextIndex_eq : s.table.nextIndex = s.drawn.length

variable {sh}

theorem Issued.mono {drawn drawn' : List (Option K × ℕ)} {p : Option K} {r : UInt32}
    (h : Issued drawn p r) (hd : drawn <+: drawn') : Issued drawn' p r := by
  obtain ⟨i, idx, hr, hx⟩ := h
  exact ⟨i, idx, hr, prefix_entry hd hx⟩

theorem ThreadOk.mono {tbl tbl' : Table K} {drawn drawn' : List (Option K × ℕ)} {pc : Prober K}
    (h : ThreadOk sh tbl drawn pc) (hptr : ∀ idx, tbl.ptr idx ≠ none → tbl'.ptr idx = tbl.ptr idx)
    (hd : drawn <+: drawn') (hnew : ∀ idx, pc.owns = some idx → (∀ x ∈ drawn, x.2 ≠ idx) →
      ∀ x ∈ drawn', x.2 ≠ idx) : ThreadOk sh tbl' drawn' pc := by
  cases pc with
  | idle => trivial
  | getPtr c p idx => exact h
  | putPtr c p idx => exact h
  | getValue c p idx =>
    intro k hk
    have hp := h k hk
    rw [hptr idx (by rw [hp, hk]; nofun), hp]
  | putCas c p idx => exact h
  | putDraw c p idx =>
    obtain ⟨hp, hidx, hx⟩ := h
    exact ⟨hp, by rw [hptr idx (by rwa [hidx]), hidx], hnew idx rfl hx⟩
  | putStore c p idx i => exact prefix_entry hd h
  | offer p r => exact Issued.mono h hd

/-- The key of a drawn slot. -/
theorem EntryInv.key {s : State T K} (h : EntryInv sh s) {i idx : ℕ} {p : Option K}
    (hi : s.drawn[i]? = some (p, idx)) : p ≠ none ∧ s.table.ptr idx = p :=
  h.drawn_ok (p, idx) (List.mem_of_getElem? hi)

/-- An index belongs to one slot, so two draws for one slot are the same draw. -/
theorem EntryInv.draw_unique {s : State T K} (h : EntryInv sh s) {i j idx : ℕ} {p q : Option K}
    (hi : s.drawn[i]? = some (p, idx)) (hj : s.drawn[j]? = some (q, idx)) : i = j := by
  have hi' : (s.drawn.map Prod.snd)[i]? = some idx := by rw [List.getElem?_map, hi]; rfl
  have hj' : (s.drawn.map Prod.snd)[j]? = some idx := by rw [List.getElem?_map, hj]; rfl
  exact (List.getElem?_inj (List.getElem?_eq_some_iff.mp hi').1 h.drawn_nodup).mp
    (hi'.trans hj'.symm)

/-- There are at most as many draws as slots. -/
theorem EntryInv.drawn_length {s : State T K} (h : EntryInv sh s) :
    s.drawn.length ≤ sh.capacity := by
  have hsub : (s.drawn.map Prod.snd).toFinset ⊆ Finset.range sh.capacity := by
    intro idx hidx
    rw [List.mem_toFinset, List.mem_map] at hidx
    obtain ⟨x, hx, rfl⟩ := hidx
    obtain ⟨hne, hkey⟩ := h.drawn_ok x hx
    obtain ⟨k, hk⟩ := Option.ne_none_iff_exists'.mp hne
    exact Finset.mem_range.mpr (h.claimed x.2 k (hkey.trans hk))
  have hcard := Finset.card_le_card hsub
  rwa [List.toFinset_card_of_nodup h.drawn_nodup, List.length_map, Finset.card_range] at hcard

/-- Every drawn index is an `int`. -/
theorem EntryInv.index_lt {s : State T K} (h : EntryInv sh s) {i : ℕ} {x : Option K × ℕ}
    (hi : s.drawn[i]? = some x) : i < 2147483648 := by
  have hlt := (List.getElem?_eq_some_iff.mp hi).1
  have hlen := h.drawn_length
  have hcap := sh.capacity_int
  omega

theorem entryInv_new : EntryInv sh (State.new : State T K) where
  threads := fun _ => trivial
  owners := fun _ _ _ h => absurd h (by simp [State.new, Prober.owns])
  claimed := fun _ _ h => absurd h (by simp [State.new, Table.new])
  entry := fun _ _ h => absurd h (by simp [State.new, Table.new])
  drawn_ok := fun _ h => absurd h (by simp [State.new])
  drawn_nodup := List.nodup_nil
  nextIndex_eq := rfl

variable [DecidableEq T]

/-- A thread that moves without touching the table keeps the invariant if its new locals are sound
    and it gives up no slot whose index is not stored. -/
theorem EntryInv.goto {s : State T K} (h : EntryInv sh s) {t : T} {pc : Prober K}
    (hpc : ThreadOk sh s.table s.drawn pc) (hown : ∀ idx, pc.owns = some idx →
      (s.thread t).owns = some idx)
    (hdone : ∀ idx k, (s.thread t).owns = some idx → s.table.ptr idx = some k →
      pc.owns = some idx ∨ s.drawn[s.table.value idx]? = some (some k, idx)) :
    EntryInv sh (s.goto t pc) := by
  have howns : ∀ u idx, ((s.goto t pc).thread u).owns = some idx → (s.thread u).owns = some idx := by
    intro u idx hu
    by_cases hut : u = t
    · subst hut; rw [goto_self] at hu; exact hown idx hu
    · rwa [goto_other pc hut] at hu
  refine { h with threads := fun u => ?_, owners := fun u w idx hu hw => ?_, entry := ?_ }
  · by_cases hut : u = t
    · subst hut; rw [goto_self]; exact hpc
    · rw [goto_other pc hut]; exact h.threads u
  · exact h.owners u w idx (howns u idx hu) (howns w idx hw)
  · intro idx k hk
    rcases h.entry idx k hk with hd | ⟨⟨u, hu⟩, hv⟩
    · exact Or.inl hd
    · by_cases hut : u = t
      · subst hut
        rcases hdone idx k hu hk with ho | hd
        · exact Or.inr ⟨⟨u, by rwa [goto_self]⟩, hv⟩
        · exact Or.inl hd
      · exact Or.inr ⟨⟨u, by rwa [goto_other pc hut]⟩, hv⟩

/-- The same for a thread that owns no slot before or after. -/
theorem EntryInv.goto_free {s : State T K} (h : EntryInv sh s) {t : T} {q : Prober K}
    (hpc : ThreadOk sh s.table s.drawn q) (hn : q.owns = none)
    (ht : (s.thread t).owns = none) : EntryInv sh (s.goto t q) :=
  h.goto hpc (fun _ ho => by rw [hn] at ho; cases ho) (fun _ _ ho _ => by rw [ht] at ho; cases ho)

theorem EntryInv.ret {s : State T K} {t : T} {c : Caller} {p : Option K} {r : UInt32} {v : Bool}
    (h : EntryInv sh (s.goto t .idle)) : EntryInv sh (s.ret t c p r v) := { h with }

theorem EntryInv.afterGet {s : State T K} (h : EntryInv sh s) {t : T} (c : Caller) (p : Option K)
    (r : UInt32) (ht : (s.thread t).owns = none) : EntryInv sh (s.afterGet sh t c p r) := by
  rcases afterGet_cases sh s t c p r with ⟨he, -⟩ | he
  · rw [he]; exact (h.goto_free (q := .idle) trivial rfl ht).ret
  · rw [he]; exact h.goto_free (sh.start_lt p) rfl ht

theorem EntryInv.nextStep {s : State T K} (h : EntryInv sh s) {t : T} (c : Caller) (p : Option K)
    (idx : ℕ) (ht : (s.thread t).owns = none) : EntryInv sh (s.nextStep sh t c p idx) := by
  rcases nextStep_cases sh s t c p idx with ⟨idx', hn, he⟩ | ⟨-, he⟩
  · rw [he]; exact h.goto_free (sh.next_lt hn) rfl ht
  · rw [he]; exact (h.goto_free (q := .idle) trivial rfl ht).ret

theorem EntryInv.claim {s : State T K} (h : EntryInv sh s) {t : T} {c : Caller} {p : Option K}
    {idx : ℕ} (ht : s.thread t = .putCas c p idx) (hf : s.table.ptr idx = none)
    (hv : s.table.value idx = 0) :
    EntryInv sh { s.goto t (.putDraw c p idx) with
      table := { s.table with ptr := Function.update s.table.ptr idx p } } := by
  have hok := h.threads t
  rw [ht] at hok
  obtain ⟨hlt, hp⟩ := hok
  have hkeep : ∀ i, s.table.ptr i ≠ none → Function.update s.table.ptr idx p i = s.table.ptr i := by
    intro i hi
    exact Function.update_of_ne (by rintro rfl; exact hi hf) ..
  have hfresh : ∀ x ∈ s.drawn, x.2 ≠ idx := by
    rintro x hx rfl
    obtain ⟨hne, hkey⟩ := h.drawn_ok x hx
    exact hne (hkey.symm.trans hf)
  -- a free slot has no owner, so the claimant is the only one
  have hfree : ∀ u, (s.thread u).owns ≠ some idx := by
    intro u hu
    have hoku := h.threads u
    cases hpc : s.thread u with
    | putDraw c' q j =>
      rw [hpc] at hu hoku
      cases hu
      exact hoku.1 (hoku.2.1.symm.trans hf)
    | putStore c' q j i =>
      rw [hpc] at hu hoku
      cases hu
      obtain ⟨hq, hkey⟩ := h.key hoku
      exact hq (hkey.symm.trans hf)
    | _ => rw [hpc] at hu; cases hu
  refine ⟨?_, ?_, ?_, ?_, ?_,
    h.drawn_nodup, h.nextIndex_eq⟩
  · intro u
    by_cases hut : u = t
    · subst hut
      simp only [State.goto, Function.update_self]
      exact ⟨hp, Function.update_self .., hfresh⟩
    · simp only [State.goto, Function.update_of_ne hut]
      exact (h.threads u).mono hkeep (List.prefix_refl _) fun _ _ hx => hx
  · intro u w i hu hw
    by_cases hut : u = t <;> by_cases hwt : w = t
    · rw [hut, hwt]
    · subst hut
      simp only [State.goto, Function.update_self, Prober.owns, Option.some.injEq] at hu
      simp only [State.goto, Function.update_of_ne hwt] at hw
      exact absurd (hu ▸ hw) (hfree w)
    · subst hwt
      simp only [State.goto, Function.update_self, Prober.owns, Option.some.injEq] at hw
      simp only [State.goto, Function.update_of_ne hut] at hu
      exact absurd (hw ▸ hu) (hfree u)
    · simp only [State.goto, Function.update_of_ne hut] at hu
      simp only [State.goto, Function.update_of_ne hwt] at hw
      exact h.owners u w i hu hw
  · intro i k hk
    by_cases hi : i = idx
    · exact hi ▸ hlt
    · simp only [Function.update_of_ne hi] at hk
      exact h.claimed i k hk
  · intro i k hk
    by_cases hi : i = idx
    · subst hi
      exact Or.inr ⟨⟨t, by simp [State.goto, Prober.owns]⟩, hv⟩
    · simp only [Function.update_of_ne hi] at hk
      rcases h.entry i k hk with hd | ⟨⟨u, hu⟩, hv'⟩
      · exact Or.inl hd
      · refine Or.inr ⟨⟨u, ?_⟩, hv'⟩
        have hut : u ≠ t := by rintro rfl; rw [ht] at hu; cases hu
        simpa [State.goto, hut] using hu
  · intro x hx
    obtain ⟨hne, hkey⟩ := h.drawn_ok x hx
    exact ⟨hne, (hkeep x.2 (by rwa [hkey])).trans hkey⟩

theorem EntryInv.draw {s : State T K} (h : EntryInv sh s) {t : T} {c : Caller} {p : Option K}
    {idx : ℕ} (ht : s.thread t = .putDraw c p idx) :
    EntryInv sh { s.goto t (.putStore c p idx s.table.nextIndex) with
      table := { s.table with nextIndex := s.table.nextIndex + 1 }
      drawn := s.drawn ++ [(p, idx)] } := by
  have hok := h.threads t
  rw [ht] at hok
  obtain ⟨hp, hkey, hfresh⟩ := hok
  have hown : (s.thread t).owns = some idx := by rw [ht]; rfl
  have howns : ∀ u, ((s.goto t (.putStore c p idx s.table.nextIndex)).thread u).owns =
      (s.thread u).owns := by
    intro u
    by_cases hut : u = t
    · subst hut; rw [goto_self, hown]; rfl
    · rw [goto_other _ hut]
  have hpre : s.drawn <+: s.drawn ++ [(p, idx)] := List.prefix_append _ _
  refine ⟨?_, ?_, h.claimed, ?_, ?_, ?_, ?_⟩
  · intro u
    by_cases hut : u = t
    · subst hut
      simp only [State.goto, Function.update_self]
      simp [ThreadOk, h.nextIndex_eq]
    · simp only [State.goto, Function.update_of_ne hut]
      refine (h.threads u).mono (fun _ _ => rfl) hpre ?_
      intro i hi hx x hm
      rcases List.mem_append.mp hm with hm | hm
      · exact hx x hm
      · rw [List.mem_singleton] at hm
        rintro rfl
        rw [hm] at hi
        exact hut (h.owners u t idx hi hown)
  · intro u w i hu hw
    exact h.owners u w i ((howns u).symm.trans hu) ((howns w).symm.trans hw)
  · intro i k hk
    rcases h.entry i k hk with hd | ⟨⟨u, hu⟩, hv⟩
    · exact Or.inl (prefix_entry hpre hd)
    · exact Or.inr ⟨⟨u, (howns u).trans hu⟩, hv⟩
  · intro x hx
    rcases List.mem_append.mp hx with hx | hx
    · exact h.drawn_ok x hx
    · rw [List.mem_singleton] at hx
      subst hx
      exact ⟨hp, hkey⟩
  · rw [List.map_append, List.nodup_append]
    refine ⟨h.drawn_nodup, by simp, ?_⟩
    intro a ha b hb
    obtain ⟨x, hx, rfl⟩ := List.mem_map.mp ha
    simp only [List.map_cons, List.map_nil, List.mem_singleton] at hb
    exact hb ▸ hfresh x hx
  · simp [h.nextIndex_eq]

omit [DecidableEq T] in
/-- After the store the slot's value is the index drawn for it. -/
theorem EntryInv.store {s : State T K} (h : EntryInv sh s) {t : T} {c : Caller} {p : Option K}
    {idx i : ℕ} (ht : s.thread t = .putStore c p idx i) :
    EntryInv sh { s with table := { s.table with value := Function.update s.table.value idx i } } := by
  have hok := h.threads t
  rw [ht] at hok
  refine { h with
    threads := fun u => (h.threads u).mono (fun _ _ => rfl) (List.prefix_refl _) fun _ _ hx => hx
    entry := fun j k hk => ?_ }
  by_cases hj : j = idx
  · subst hj
    left
    simp only [Function.update_self]
    rw [hok, ← hk, (h.key hok).2]
  · simp only [Function.update_of_ne hj]
    exact h.entry j k hk

/-- A free slot still has the value it was constructed with. -/
def FreeZero (s : State T K) : Prop := ∀ idx, s.table.ptr idx = none → s.table.value idx = 0

/-- STEP: every transition keeps the entries sound. -/
theorem entryInv_moves {s s' : State T K} {a : Action T K} (h : EntryInv sh s) (hz : FreeZero s)
    (hm : Moves sh s a s') : EntryInv sh s' ∧ FreeZero s' := by
  cases hm with
  | call ht => exact ⟨h.goto_free (sh.start_lt _) rfl (by rw [ht]; rfl), hz⟩
  | callPut ht => exact ⟨h.goto_free (sh.start_lt _) rfl (by rw [ht]; rfl), hz⟩
  | hit ht hp => exact ⟨h.goto_free (fun _ _ => hp) rfl (by rw [ht]; rfl), hz⟩
  | probe ht hn => exact ⟨h.goto_free (sh.next_lt hn) rfl (by rw [ht]; rfl), hz⟩
  | @miss t c p idx ht =>
    refine ⟨h.afterGet c p noRef (by rw [ht]; rfl), ?_⟩
    rcases afterGet_cases sh s t c p noRef with ⟨he, -⟩ | he <;> rw [he] <;> exact hz
  | @load t c p idx ht =>
    refine ⟨h.afterGet c p _ (by rw [ht]; rfl), ?_⟩
    rcases afterGet_cases sh s t c p (UInt32.ofNat (s.table.value idx)) with
      ⟨he, -⟩ | he <;> rw [he] <;> exact hz
  | found ht hp =>
    rw [afterPut_noRef]
    exact ⟨(h.goto_free (q := .idle) trivial rfl (by rw [ht]; rfl)).ret, hz⟩
  | @free t c p idx ht hp hf =>
    have hok := h.threads t
    rw [ht] at hok
    exact ⟨h.goto_free ⟨hok, fun he => hp (hf.trans he.symm)⟩ rfl (by rw [ht]; rfl), hz⟩
  | @taken t c p idx ht hp hf =>
    refine ⟨h.nextStep c p idx (by rw [ht]; rfl), ?_⟩
    rcases nextStep_cases sh s t c p idx with ⟨_, -, he⟩ | ⟨-, he⟩ <;> rw [he] <;> exact hz
  | @claim t c p idx ht hf =>
    refine ⟨h.claim ht hf (hz idx hf), ?_⟩
    intro i hi
    by_cases hidx : i = idx
    · subst hidx; exact hz i hf
    · simp only [Function.update_of_ne hidx] at hi
      exact hz i hi
  | @lose _ t c p idx ht ha =>
    refine ⟨h.nextStep c p idx (by rw [ht]; rfl), ?_⟩
    rcases nextStep_cases sh s t c p idx with ⟨_, -, he⟩ | ⟨-, he⟩ <;> rw [he] <;> exact hz
  | draw ht => exact ⟨h.draw ht, hz⟩
  | @store t c p idx i ht =>
    have hok := h.threads t
    rw [ht] at hok
    have hs := h.store ht
    have hkey := (h.key hok)
    refine ⟨?_, ?_⟩
    · have hfree : ∀ pc : Prober K, pc.owns = none → ThreadOk sh s.table s.drawn pc →
          EntryInv sh ({ s with table := { s.table with
            value := Function.update s.table.value idx i } }.goto t pc) := by
        intro pc hn hpc
        refine hs.goto ?_ (fun _ ho => by rw [hn] at ho; cases ho) fun j k ho hk => Or.inr ?_
        · exact hpc.mono (fun _ _ => rfl) (List.prefix_refl _) fun _ _ hx => hx
        · simp only at ho hk
          rw [ht] at ho
          cases ho
          simp only [Function.update_self]
          rw [hok, ← hk, hkey.2]
      rcases afterPut_cases { s with table := { s.table with
          value := Function.update s.table.value idx i } } t c p (UInt32.ofNat i) with
        ⟨he, -⟩ | ⟨he, -⟩ | ⟨he, -⟩
      · rw [he]; exact (hfree .idle rfl trivial).ret
      · rw [he]; exact hfree _ rfl ⟨i, idx, rfl, hok⟩
      · rw [he]; exact (hfree .idle rfl trivial).ret
    · have hz' : ∀ j, s.table.ptr j = none → Function.update s.table.value idx i j = 0 := by
        intro j hj
        have hji : j ≠ idx := by rintro rfl; exact hkey.1 (hkey.2.symm.trans hj)
        rw [Function.update_of_ne hji]
        exact hz j hj
      rcases afterPut_cases { s with table := { s.table with
          value := Function.update s.table.value idx i } } t c p (UInt32.ofNat i) with
        ⟨he, -⟩ | ⟨he, -⟩ | ⟨he, -⟩ <;> rw [he] <;> exact hz'
  | @enqueue t p r ht =>
    have hg := h.goto_free (t := t) (q := .idle) trivial rfl (by rw [ht]; rfl)
    exact ⟨{ hg with }, hz⟩

end Esp.HashThreads
