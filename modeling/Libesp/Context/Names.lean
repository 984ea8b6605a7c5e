import Libesp.Schemes.Machine
import Libesp.Context.Recording
import Libesp.Map.HashAlone

/-! @esp context | name:MapStringToReference | scheme:interning |
    source:src/Context.cpp (StampEvent, MapStringToReference), src/map/pointer_hash.h

    The reference of a stamped call is the reference of its own name. A call stamps what
    `MapStringToReference` answers for the name it was passed; the table only grows, and a pointer keeps
    its slot and its index, so the answer stays the table's answer for the rest of the session.

        call of "a"   Get ─▶ miss   Put ─▶ 0      stamp 0
        call of "b"   Get ─▶ miss   Put ─▶ 1      stamp 1
        call of "a"   Get ─▶ 0                    stamp 0      Get "a" = 0 from here on -/

namespace Esp.Context
open Event PointerHash LocklessRing Slab Machine

variable {T K : Type}

/-- The name a recording call passes. -/
def Call.name : Call K → Option K
  | .zone zoneName => zoneName
  | .endZone => none
  | .sample probeName _ => probeName

/-- The string table of the open session. -/
def Process.strings (P : Process T K) : Option (Table K) := P.context.map ProfileContext.strings

variable [DecidableEq K]

/-- `ref` is the reference of `name` in the table, or the error reference. A null name has none. -/
def RefOf (sh : Shape K) (S : Table K) (name : Option K) (ref : UInt32) : Prop :=
  ∀ ptr, name = some ptr → ref = noRef ∨ isIndex ref = true ∧ S.get sh (some ptr) = ref

/-- INVARIANT: every stamp of the log carries the reference of the name its call passed. -/
def NamesOk (sh : Shape K) (P : Process T K) : Prop :=
  ∀ S, P.strings = some S → ∀ x ∈ P.log, ∀ σ, x.2.stamp = some σ → RefOf sh S x.2.call.name σ.nameRef

variable {sh : Shape K} {S S' : Table K}

theorem RefOf.grow {name : Option K} {ref : UInt32} (h : RefOf sh S name ref) (hS : Extends S S') :
    RefOf sh S' name ref := by
  intro ptr hname
  rcases h ptr hname with herr | ⟨hidx, hget⟩
  · exact Or.inl herr
  · refine Or.inr ⟨hidx, ?_⟩
    rw [get_extends hS (by rw [hget]; exact hidx), hget]

variable (sh)

/-- `MapStringToReference` answers the reference of the pointer and keeps the others. -/
theorem mapString_refOf (C : ProfileContext K) (name : Option K) :
    Extends C.strings (C.mapStringToReference sh name).2.strings ∧
      RefOf sh (C.mapStringToReference sh name).2.strings name (C.mapStringToReference sh name).1 := by
  unfold ProfileContext.mapStringToReference
  simp only
  split
  · rename_i hidx
    refine ⟨Extends.refl _, ?_⟩
    rintro ptr rfl
    exact Or.inr ⟨hidx, rfl⟩
  · split
    · rename_i hput
      rcases name with _ | ptr
      · exact ⟨put_extends _ _, fun ptr hptr => by cases hptr⟩
      · refine ⟨put_extends _ _, ?_⟩
        rintro _ ⟨⟩
        exact Or.inr ⟨hput, get_put hput⟩
    · exact ⟨put_extends _ _, fun _ _ => Or.inl rfl⟩

/-- REFINEMENT: `MapStringToReference` here is the call of the string table's machine, run alone. -/
theorem mapString_alone [DecidableEq T] {s : HashThreads.State T K} {t : T}
    (C : ProfileContext K) (name : Option K) (hs : s.table = C.strings) (ht : s.thread t = .idle) :
    ∃ m u, run (HashThreads.step sh) s
        (.mapStringToReference t name :: List.replicate m (.go t)) = some u ∧
      u.thread = s.thread ∧ u.table = (C.mapStringToReference sh name).2.strings ∧
      (u.returned.getLast?).map HashThreads.Return.ref =
        some (C.mapStringToReference sh name).1 := by
  obtain ⟨m, u, hrun, hthread, htable, href⟩ := HashThreads.map_alone sh name ht
  rw [hs] at htable href
  refine ⟨m, u, hrun, hthread, ?_, ?_⟩
  · rw [htable, ProfileContext.mapStringToReference]
    simp only
    split
    · rfl
    · split
      · split <;> rfl
      · rfl
  · rw [href, ProfileContext.mapStringToReference]
    simp only
    split
    · rfl
    · split
      · split <;> rfl
      · rfl

/-- STEP: the stamp of a recording call carries the reference of the call's name. -/
theorem record_refOf (t : ThreadContext) (C : ProfileContext K) (number : ℕ) (now : Int64)
    (c : Call K) :
    Extends C.strings (t.record sh C number now c).context.strings ∧
      ∀ σ, (t.record sh C number now c).entry.stamp = some σ →
        RefOf sh (t.record sh C number now c).context.strings
          (t.record sh C number now c).entry.call.name σ.nameRef := by
  cases c with
  | zone name =>
    simp only [ThreadContext.record, ThreadContext.zone]
    split
    · exact ⟨Extends.refl _, fun σ hσ => by cases hσ⟩
    · obtain ⟨hext, href⟩ := mapString_refOf sh C.nextEventID.2 name
      refine ⟨hext, ?_⟩
      rintro σ ⟨⟩
      exact href
  | endZone =>
    simp only [ThreadContext.record, ThreadContext.endZone]
    split <;> exact ⟨Extends.refl _, fun σ hσ => by cases hσ⟩
  | sample name probe =>
    obtain ⟨hext, href⟩ := mapString_refOf sh C.nextEventID.2 name
    refine ⟨hext, ?_⟩
    rintro σ ⟨⟩
    exact href

variable {sh} [DecidableEq T] {P P' : Process T K}

omit [DecidableEq K] in
theorem strings_threadInit {t : T} (h : P.espThreadInit t = some P') :
    P'.strings = P.strings ∧ P'.log = P.log := by
  rcases espThreadInit_cases h with ⟨-, rfl⟩ | ⟨-, C, hC, rfl⟩
  · exact ⟨rfl, rfl⟩
  · exact ⟨by rw [Process.strings, Process.strings, hC]; rfl, rfl⟩

/-- STEP: a recording call logs nothing, or one call with the reference of its name. -/
theorem strings_record {t : T} {now : Int64} {c : Call K} (h : P.espRecord sh t now c = some P') :
    (P'.strings = P.strings ∧ P'.log = P.log) ∨
      ∃ S S' e, P.strings = some S ∧ P'.strings = some S' ∧ Extends S S' ∧
        P'.log = P.log ++ [(t, e)] ∧
        ∀ σ, e.stamp = some σ → RefOf sh S' e.call.name σ.nameRef := by
  rcases espRecord_cases h with ⟨-, rfl⟩ | ⟨-, hinit, -⟩ | ⟨-, P₁, C, i, hinit, hC, -, -, rfl⟩
  · exact Or.inl ⟨rfl, rfl⟩
  · exact Or.inl (strings_threadInit hinit)
  · obtain ⟨hstr, hlog⟩ := strings_threadInit hinit
    obtain ⟨hext, href⟩ := record_refOf sh (C.threadContexts i) C P₁.log.length now c
    refine Or.inr ⟨C.strings, _, _, ?_, rfl, hext, by rw [Process.recordIn, hlog], href⟩
    rw [← hstr, Process.strings, hC, Option.map_some]

omit [DecidableEq T] in
/-- What leaves the table and the log alone keeps the invariant. -/
theorem NamesOk.same (h : NamesOk sh P) (hstr : P'.strings = P.strings) (hlog : P'.log = P.log) :
    NamesOk sh P' := by
  intro S hS x hx
  rw [hstr] at hS
  rw [hlog] at hx
  exact h S hS x hx

omit [DecidableEq T] in
theorem NamesOk.mapContext (h : NamesOk sh P) {f : ProfileContext K → ProfileContext K}
    (hs : P.mapContext f = some P') (hf : ∀ C, (f C).strings = C.strings) : NamesOk sh P' := by
  obtain ⟨C, hC, rfl⟩ := Option.map_eq_some_iff.mp hs
  refine h.same ?_ rfl
  rw [Process.strings, Process.strings, hC, Option.map_some, Option.map_some, hf]

theorem namesOk_step {a : Action T K} (h : NamesOk sh P) (hs : step sh P a = some P') :
    NamesOk sh P' := by
  cases a with
  | record t now c =>
    rcases strings_record hs with ⟨hstr, hlog⟩ | ⟨S, S', e, hS, hS', hext, hlog, hσ⟩
    · exact h.same hstr hlog
    · intro S₁ hS₁ x hx
      obtain rfl := Option.some.inj (hS'.symm.trans hS₁)
      rw [hlog] at hx
      rcases List.mem_append.mp hx with hold | hnew
      · exact fun σ hstamp => (h S hS x hold σ hstamp).grow hext
      · obtain rfl := List.mem_singleton.mp hnew
        exact hσ
  | threadInit t =>
    obtain ⟨hstr, hlog⟩ := strings_threadInit hs
    exact h.same hstr hlog
  | frameEnd now => exact h.mapContext hs fun _ => rfl
  | setPaused shouldPause =>
    obtain rfl := Option.some.inj hs
    exact h.same rfl rfl
  | drainEvents maxOut => exact h.mapContext hs fun _ => rfl
  | drainString => exact h.mapContext hs fun _ => rfl

/-- RUN: throughout a run every stamp carries the reference of its call's name. -/
theorem namesOk_run {as : List (Action T K)} (h : NamesOk sh P) (hr : run (step sh) P as = some P') :
    NamesOk sh P' :=
  run_inv (fun _ _ _ hI _ hs => namesOk_step hI hs) as (meets_true P as) h hr

omit [DecidableEq T] in
theorem namesOk_nil (h : P.log = []) : NamesOk sh P := by
  intro S _ x hx
  rw [h] at hx
  cases hx

end Esp.Context
