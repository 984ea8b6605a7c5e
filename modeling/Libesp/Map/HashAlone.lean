import Libesp.Map.HashThreads

/-! @esp map | name:PointerHash | scheme:refinement |
    source:src/map/pointer_hash.h, src/Context.cpp (MapStringToReference)

    One thread's call with nothing in between. The steps of `Get`, `Put` and `MapStringToReference`,
    taken in a row by one thread, do what the sequential functions do in one go.

        getPtr ─▶ … ─▶ getPtr ─▶ getValue ─▶ done      `getLoop`, place by place
        putPtr ─▶ … ─▶ putCas ─▶ putDraw ─▶ putStore    `putLoop`, place by place -/

namespace Esp.HashThreads
open Probe PointerHash Machine

variable {T K : Type} [DecidableEq T] [DecidableEq K] {sh : Shape K} {s s' : State T K}

omit [DecidableEq K] in
theorem goto_goto (t : T) (pc pc' : Prober K) : (s.goto t pc).goto t pc' = s.goto t pc' := by
  simp only [State.goto, Function.update_idem]

omit [DecidableEq K] in
theorem afterGet_goto (t : T) (pc : Prober K) (c : Caller) (p : Option K) (r : UInt32) :
    (s.goto t pc).afterGet sh t c p r = s.afterGet sh t c p r := by
  simp only [State.afterGet, State.ret, goto_goto]
  rfl

omit [DecidableEq K] in
theorem afterPut_goto (t : T) (pc : Prober K) (c : Caller) (p : Option K) (r : UInt32) :
    (s.goto t pc).afterPut t c p r = s.afterPut t c p r := by
  simp only [State.afterPut, State.ret, goto_goto]
  rfl

omit [DecidableEq K] in
theorem afterPut_table (t : T) (pc : Prober K) (c : Caller) (p : Option K) (r : UInt32)
    (tbl : Table K) (d : List (Option K × ℕ)) :
    ({ s.goto t pc with table := tbl, drawn := d } : State T K).afterPut t c p r =
      ({ s with table := tbl, drawn := d } : State T K).afterPut t c p r :=
  afterPut_goto (s := { s with table := tbl, drawn := d }) t pc c p r

/-- The first step of a stretch of one thread. -/
theorem run_go {t : T} {m : ℕ} (h : go sh s t = some s') :
    run (step sh) s (List.replicate (m + 1) (.go t)) =
      run (step sh) s' (List.replicate m (.go t)) := by
  rw [List.replicate_succ, run_cons, step, h, Option.bind_some]

/-- REFINEMENT: the loop of `Get` whose steps nothing comes between is `getLoop`. -/
theorem getLoop_alone {t : T} {c : Caller} {p : Option K} {n j : ℕ} (hn : j + n = sh.capacity)
    (hj : j < sh.capacity) (ht : s.thread t = .getPtr c p ((sh.start p + j) % sh.capacity)) :
    ∃ m, run (step sh) s (List.replicate m (.go t)) =
      some (s.afterGet sh t c p
        (getLoop sh p s.table n ((sh.start p + j) % sh.capacity))) := by
  induction n generalizing s j with
  | zero => omega
  | succ n ih =>
    rw [getLoop]
    split
    · rename_i hp
      have h1 : go sh s t = some (s.goto t (.getValue c p ((sh.start p + j) % sh.capacity))) := by
        simp only [go, ht]
        rw [if_pos hp]
      have h2 : go sh (s.goto t (.getValue c p ((sh.start p + j) % sh.capacity))) t =
          some (s.afterGet sh t c p
            (UInt32.ofNat (s.table.value ((sh.start p + j) % sh.capacity)))) := by
        simp only [go, goto_self, afterGet_goto]
        rfl
      exact ⟨2, by rw [run_go h1, run_go h2]; rfl⟩
    · rename_i hp
      split
      · rename_i hf
        have h1 : go sh s t = some (s.afterGet sh t c p noRef) := by
          simp only [go, ht]
          rw [if_neg hp, if_pos hf]
        exact ⟨1, by rw [run_go h1]; rfl⟩
      · rename_i hf
        rcases hnext : sh.next p ((sh.start p + j) % sh.capacity) with _ | idx'
        · have h1 : go sh s t = some (s.afterGet sh t c p noRef) := by
            simp only [go, ht, hnext]
            rw [if_neg hp, if_neg hf]
          exact ⟨1, by rw [run_go h1]; rfl⟩
        · have h1 : go sh s t = some (s.goto t (.getPtr c p idx')) := by
            simp only [go, ht, hnext]
            rw [if_neg hp, if_neg hf]
          obtain ⟨hidx, hlast⟩ := Shape.next_place hj hnext
          obtain ⟨m, hm⟩ := ih (s := s.goto t (.getPtr c p idx')) (j := j + 1) (by omega) hlast
            (by rw [goto_self, hidx])
          refine ⟨m + 1, ?_⟩
          rw [run_go h1, hm, afterGet_goto, ← hidx]
          rfl

/-- From its CAS on a free slot a `Put` run alone claims the slot, draws the index and stores it. -/
theorem putCas_alone {t : T} {c : Caller} {p : Option K} {idx : ℕ}
    (ht : s.thread t = .putCas c p idx) (hf : s.table.ptr idx = none) :
    run (step sh) s (List.replicate 3 (.go t)) = some ({ s with
      table := ⟨Function.update s.table.ptr idx p,
        Function.update s.table.value idx s.table.nextIndex, s.table.nextIndex + 1⟩
      drawn := s.drawn ++ [(p, idx)] }.afterPut t c p (UInt32.ofNat s.table.nextIndex)) := by
  have h1 : go sh s t = some { s.goto t (.putDraw c p idx) with
      table := { s.table with ptr := Function.update s.table.ptr idx p } } := by
    simp only [go, ht]
    rw [if_pos hf]
  rw [run_go h1, run_go (by simp only [go, State.goto, Function.update_self]; rfl),
    run_go (by simp only [go, Function.update_self]; rfl), Function.update_idem]
  exact congrArg some (afterPut_table ..)

/-- REFINEMENT: the loop of `Put` run alone is `putLoop`; what it draws is added to the history. -/
theorem putLoop_alone {t : T} {c : Caller} {p : Option K} {n j : ℕ} (hn : j + n = sh.capacity)
    (hj : j < sh.capacity) (ht : s.thread t = .putPtr c p ((sh.start p + j) % sh.capacity)) :
    ∃ m d, run (step sh) s (List.replicate m (.go t)) =
      some ({ s with
        table := (putLoop sh p s.table n ((sh.start p + j) % sh.capacity)).2
        drawn := s.drawn ++ d }.afterPut t c p
          (putLoop sh p s.table n ((sh.start p + j) % sh.capacity)).1) := by
  induction n generalizing s j with
  | zero => omega
  | succ n ih =>
    rw [putLoop]
    split
    · rename_i hp
      have h1 : go sh s t = some (s.afterPut t c p noRef) := by
        simp only [go, ht]
        rw [if_pos hp]
      exact ⟨1, [], by rw [run_go h1, List.append_nil]; rfl⟩
    · rename_i hp
      split
      · rename_i hf
        have h1 : go sh s t = some (s.goto t (.putCas c p ((sh.start p + j) % sh.capacity))) := by
          simp only [go, ht]
          rw [if_neg hp, if_pos hf]
        refine ⟨4, [(p, (sh.start p + j) % sh.capacity)], ?_⟩
        rw [run_go h1, putCas_alone (goto_self ..) hf]
        exact congrArg some (afterPut_table ..)
      · rename_i hf
        rcases hnext : sh.next p ((sh.start p + j) % sh.capacity) with _ | idx'
        · have h1 : go sh s t = some (s.afterPut t c p noRef) := by
            simp only [go, ht, State.nextStep, hnext]
            rw [if_neg hp, if_neg hf]
          exact ⟨1, [], by rw [run_go h1, List.append_nil]; rfl⟩
        · have h1 : go sh s t = some (s.goto t (.putPtr c p idx')) := by
            simp only [go, ht, State.nextStep, hnext]
            rw [if_neg hp, if_neg hf]
          obtain ⟨hidx, hlast⟩ := Shape.next_place hj hnext
          obtain ⟨m, d, hm⟩ := ih (s := s.goto t (.putPtr c p idx')) (j := j + 1) (by omega) hlast
            (by rw [goto_self, hidx])
          refine ⟨m + 1, d, ?_⟩
          rw [run_go h1, hm, ← hidx]
          exact congrArg some (afterPut_table ..)

/-- A thread that has come to its offer makes it and is done. -/
theorem run_offer {u : State T K} {a : Action T K} {t : T} {p : Option K} {r : UInt32} {n : ℕ}
    (h : run (step sh) s (a :: List.replicate n (.go t)) = some (u.goto t (.offer p r))) :
    run (step sh) s (a :: List.replicate (n + 1) (.go t)) =
      some { u.ret t .map p r true with queued := u.queued ++ [(p, r)] } := by
  have hgo : go sh (u.goto t (.offer p r)) t =
      some { u.ret t .map p r true with queued := u.queued ++ [(p, r)] } := by
    simp only [go, goto_self, State.ret, goto_goto]
    rfl
  rw [List.replicate_add, ← List.cons_append, run_append, h]
  exact run_go hgo

omit [DecidableEq K] in
theorem goto_idle {t : T} (ht : s.thread t = .idle) : (s.goto t .idle).thread = s.thread := by
  rw [State.goto, ← ht]
  exact Function.update_eq_self ..

variable (sh) in
/-- REFINEMENT: `MapStringToReference` run alone answers what `Get` and `Put` answer one after the
    other, and leaves the table they leave. -/
theorem map_alone {t : T} (p : Option K) (ht : s.thread t = .idle) :
    ∃ m u, run (step sh) s (.mapStringToReference t p :: List.replicate m (.go t)) = some u ∧
      u.thread = s.thread ∧
      u.table = (if isIndex (s.table.get sh p) then s.table else (s.table.put sh p).2) ∧
      (u.returned.getLast?).map Return.ref = some (
        if isIndex (s.table.get sh p) then s.table.get sh p
        else if isIndex (s.table.put sh p).1 then (s.table.put sh p).1 else noRef) := by
  have hpos : 0 < sh.capacity := Nat.lt_of_le_of_lt (Nat.zero_le _) (sh.start_lt p)
  have hstart : (sh.start p + 0) % sh.capacity = sh.start p := Nat.mod_eq_of_lt (sh.start_lt p)
  have hcall : step sh s (.mapStringToReference t p) =
      some (s.goto t (.getPtr .map p (sh.start p))) := by
    simp only [step, ht]
  obtain ⟨m, hm⟩ := getLoop_alone (s := s.goto t (.getPtr .map p (sh.start p))) (zero_add _) hpos
    (by rw [goto_self, hstart])
  rw [hstart, afterGet_goto] at hm
  rcases hget : isIndex (s.table.get sh p) with _ | _
  · have hmiss : s.afterGet sh t .map p (s.table.get sh p) =
        s.goto t (.putPtr .map p (sh.start p)) := by
      rw [State.afterGet, hget]
      rfl
    obtain ⟨k, d, hk⟩ := putLoop_alone (s := s.goto t (.putPtr .map p (sh.start p))) (zero_add _)
      hpos (by rw [goto_self, hstart])
    rw [hstart, afterPut_table] at hk
    have hrun : run (step sh) s (.mapStringToReference t p :: List.replicate (m + k) (.go t)) =
        some ({ s with table := (s.table.put sh p).2, drawn := s.drawn ++ d }.afterPut t .map p
          (s.table.put sh p).1) := by
      rw [run_cons, hcall, Option.bind_some, List.replicate_add, run_append, hm]
      exact (congrArg (fun u => run (step sh) u (List.replicate k (.go t))) hmiss).trans hk
    rcases hput : isIndex (s.table.put sh p).1 with _ | _
    · refine ⟨m + k, _, hrun, ?_⟩
      rw [State.afterPut, hput]
      exact ⟨goto_idle ht, rfl, by simp [State.ret]⟩
    · rw [State.afterPut, hput] at hrun
      exact ⟨m + k + 1, _, run_offer hrun, goto_idle ht, rfl, by simp [State.ret]⟩
  · have hhit : s.afterGet sh t .map p (s.table.get sh p) =
        s.ret t .map p (s.table.get sh p) false := by
      rw [State.afterGet, hget]
      rfl
    refine ⟨m, s.ret t .map p (s.table.get sh p) false, ?_, goto_idle ht, rfl, by simp [State.ret]⟩
    rw [run_cons, hcall, Option.bind_some, hm]
    exact congrArg some hhit

end Esp.HashThreads
