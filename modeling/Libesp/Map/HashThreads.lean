import Libesp.Schemes.Machine
import Libesp.Map.PointerHash

/-! @esp map | name:PointerHash | scheme:machine |
    source:src/map/pointer_hash.h, src/Context.cpp (MapStringToReference)

    The string table used by any number of threads, one atomic operation at a time. A thread calls
    `Get`, `Put` or `MapStringToReference`, which runs the other two in turn. `Put` publishes the
    key by its CAS, then draws the index, then stores it: between the CAS and the store the key is
    visible and its value is not. History fields, which no step reads back, keep the draws, the
    string records offered to the string queue and the calls that have returned.

        Get   getPtr ─▶ getPtr … ─▶ getValue ─▶ done     Put   putPtr ─▶ putPtr … ─▶ putCas
                │ free slot, or round the table                  │ own key, or round
                ▼                                                ▼
              not found (-1)                                   -1
                                      putCas ─▶ putDraw ─▶ putStore ─▶ done (─▶ offer)
                                       CAS       fetch_add   store -/

namespace Esp.HashThreads
open Probe PointerHash

/-- Who called `Get` or `Put`: a thread itself, or `MapStringToReference`. -/
inductive Caller where
  | direct
  | map
  deriving DecidableEq

/-- Where a thread is, with the pointer of its call and its slot index. -/
inductive Prober (K : Type) where
  | idle
  | getPtr (c : Caller) (p : Option K) (idx : ℕ)
  | getValue (c : Caller) (p : Option K) (idx : ℕ)
  | putPtr (c : Caller) (p : Option K) (idx : ℕ)
  | putCas (c : Caller) (p : Option K) (idx : ℕ)
  | putDraw (c : Caller) (p : Option K) (idx : ℕ)
  | putStore (c : Caller) (p : Option K) (idx i : ℕ)
  | offer (p : Option K) (r : UInt32)

/-- A returned call: the reference it answered, whether it went through `Put`, and the table as it
    was at that moment. -/
structure Return (T K : Type) where
  thread : T
  caller : Caller
  ptr : Option K
  ref : UInt32
  viaPut : Bool
  table : Table K

structure State (T K : Type) where
  table : Table K
  thread : T → Prober K
  /-- History: who drew each index and for which slot, in the order of the draws. -/
  drawn : List (Option K × ℕ)
  /-- History: the string references offered to the string queue. -/
  queued : List (Option K × UInt32)
  /-- History: the calls that have returned. -/
  returned : List (Return T K)

inductive Action (T K : Type) where
  | get (t : T) (p : Option K)
  | put (t : T) (p : Option K)
  | mapStringToReference (t : T) (p : Option K)
  | go (t : T)
  | casFails (t : T)

variable {T K : Type}

def State.new : State T K := ⟨Table.new, fun _ => .idle, [], [], []⟩

variable [DecidableEq T] [DecidableEq K] (sh : Shape K)

def State.goto (s : State T K) (t : T) (pc : Prober K) : State T K :=
  { s with thread := Function.update s.thread t pc }

def State.ret (s : State T K) (t : T) (c : Caller) (p : Option K) (r : UInt32) (viaPut : Bool) :
    State T K :=
  { s.goto t .idle with returned := s.returned ++ [⟨t, c, p, r, viaPut, s.table⟩] }

/-- `Get` answers `r`; `MapStringToReference` goes on to `Put` when that is not an index. -/
def State.afterGet (s : State T K) (t : T) (c : Caller) (p : Option K) (r : UInt32) : State T K :=
  match c with
  | .direct => s.ret t c p r false
  | .map => if isIndex r then s.ret t c p r false else s.goto t (.putPtr .map p (sh.start p))

/-- `Put` answers `r`; `MapStringToReference` offers a new index to the string queue first. -/
def State.afterPut (s : State T K) (t : T) (c : Caller) (p : Option K) (r : UInt32) : State T K :=
  match c with
  | .direct => s.ret t c p r true
  | .map => if isIndex r then s.goto t (.offer p r) else s.ret t c p noRef true

/-- `next_step` of `Put`: the next slot, or the end of the loop. -/
def State.nextStep (s : State T K) (t : T) (c : Caller) (p : Option K) (idx : ℕ) : State T K :=
  match sh.next p idx with
  | some idx' => s.goto t (.putPtr c p idx')
  | none => s.afterPut t c p noRef

/-- The next atomic step of thread `t`. -/
def go (s : State T K) (t : T) : Option (State T K) :=
  match s.thread t with
  | .idle => none
  | .getPtr c p idx =>
    if s.table.ptr idx = p then some (s.goto t (.getValue c p idx))
    else if s.table.ptr idx = none then some (s.afterGet sh t c p noRef)
    else match sh.next p idx with
      | some idx' => some (s.goto t (.getPtr c p idx'))
      | none => some (s.afterGet sh t c p noRef)
  | .getValue c p idx => some (s.afterGet sh t c p (UInt32.ofNat (s.table.value idx)))
  | .putPtr c p idx =>
    if s.table.ptr idx = p then some (s.afterPut t c p noRef)
    else if s.table.ptr idx = none then some (s.goto t (.putCas c p idx))
    else some (s.nextStep sh t c p idx)
  | .putCas c p idx =>
    if s.table.ptr idx = none then
      some { s.goto t (.putDraw c p idx) with
        table := { s.table with ptr := Function.update s.table.ptr idx p } }
    else some (s.nextStep sh t c p idx)
  | .putDraw c p idx =>
    some { s.goto t (.putStore c p idx s.table.nextIndex) with
      table := { s.table with nextIndex := s.table.nextIndex + 1 }
      drawn := s.drawn ++ [(p, idx)] }
  | .putStore c p idx i =>
    some ({ s with table := { s.table with value := Function.update s.table.value idx i } }.afterPut
      t c p (UInt32.ofNat i))
  | .offer p r => some { s.ret t .map p r true with queued := s.queued ++ [(p, r)] }

def step (s : State T K) : Action T K → Option (State T K)
  | .get t p =>
    match s.thread t with
    | .idle => some (s.goto t (.getPtr .direct p (sh.start p)))
    | _ => none
  | .put t p =>
    match s.thread t with
    | .idle => some (s.goto t (.putPtr .direct p (sh.start p)))
    | _ => none
  | .mapStringToReference t p =>
    match s.thread t with
    | .idle => some (s.goto t (.getPtr .map p (sh.start p)))
    | _ => none
  | .go t => go sh s t
  | .casFails t =>  -- `compare_exchange_weak` may fail on a slot that is free
    match s.thread t with
    | .putCas c p idx => some (s.nextStep sh t c p idx)
    | _ => none

/-- The transitions of `step`, one constructor for each place in the source. -/
inductive Moves (s : State T K) : Action T K → State T K → Prop
  | call {a t c p} (h : s.thread t = .idle) :
    Moves s a (s.goto t (.getPtr c p (sh.start p)))
  | callPut {t p} (h : s.thread t = .idle) :
    Moves s (.put t p) (s.goto t (.putPtr .direct p (sh.start p)))
  | hit {t c p idx} (h : s.thread t = .getPtr c p idx) (hp : s.table.ptr idx = p) :
    Moves s (.go t) (s.goto t (.getValue c p idx))
  | probe {t c p idx idx'} (h : s.thread t = .getPtr c p idx) (hn : sh.next p idx = some idx') :
    Moves s (.go t) (s.goto t (.getPtr c p idx'))
  | miss {t c p idx} (h : s.thread t = .getPtr c p idx) :
    Moves s (.go t) (s.afterGet sh t c p noRef)
  | load {t c p idx} (h : s.thread t = .getValue c p idx) :
    Moves s (.go t) (s.afterGet sh t c p (UInt32.ofNat (s.table.value idx)))
  | found {t c p idx} (h : s.thread t = .putPtr c p idx) (hp : s.table.ptr idx = p) :
    Moves s (.go t) (s.afterPut t c p noRef)
  | free {t c p idx} (h : s.thread t = .putPtr c p idx) (hp : s.table.ptr idx ≠ p)
      (hf : s.table.ptr idx = none) :
    Moves s (.go t) (s.goto t (.putCas c p idx))
  | taken {t c p idx} (h : s.thread t = .putPtr c p idx) (hp : s.table.ptr idx ≠ p)
      (hf : s.table.ptr idx ≠ none) :
    Moves s (.go t) (s.nextStep sh t c p idx)
  | claim {t c p idx} (h : s.thread t = .putCas c p idx) (hf : s.table.ptr idx = none) :
    Moves s (.go t) { s.goto t (.putDraw c p idx) with
      table := { s.table with ptr := Function.update s.table.ptr idx p } }
  | lose {a t c p idx} (h : s.thread t = .putCas c p idx)
      (ha : a = .casFails t ∨ a = .go t ∧ s.table.ptr idx ≠ none) :
    Moves s a (s.nextStep sh t c p idx)
  | draw {t c p idx} (h : s.thread t = .putDraw c p idx) :
    Moves s (.go t) { s.goto t (.putStore c p idx s.table.nextIndex) with
      table := { s.table with nextIndex := s.table.nextIndex + 1 }
      drawn := s.drawn ++ [(p, idx)] }
  | store {t c p idx i} (h : s.thread t = .putStore c p idx i) :
    Moves s (.go t) ({ s with
      table := { s.table with value := Function.update s.table.value idx i } }.afterPut
        t c p (UInt32.ofNat i))
  | enqueue {t p r} (h : s.thread t = .offer p r) :
    Moves s (.go t) { s.ret t .map p r true with queued := s.queued ++ [(p, r)] }

variable {sh} {s s' : State T K}

theorem moves_of_go {t : T} (h : go sh s t = some s') : Moves sh s (.go t) s' := by
  unfold go at h
  cases ht : s.thread t with
  | idle => rw [ht] at h; cases h
  | getPtr c p idx =>
    rw [ht] at h
    simp only at h
    split at h
    · rename_i hp; cases h; exact .hit ht hp
    · split at h
      · cases h; exact .miss ht
      · split at h
        · rename_i hn; cases h; exact .probe ht hn
        · cases h; exact .miss ht
  | getValue c p idx => rw [ht] at h; cases h; exact .load ht
  | putPtr c p idx =>
    rw [ht] at h
    simp only at h
    split at h
    · rename_i hp; cases h; exact .found ht hp
    · rename_i hp
      split at h
      · rename_i hf; cases h; exact .free ht hp hf
      · rename_i hf; cases h; exact .taken ht hp hf
  | putCas c p idx =>
    rw [ht] at h
    simp only at h
    split at h
    · rename_i hf; cases h; exact .claim ht hf
    · rename_i hf; cases h; exact .lose ht (Or.inr ⟨rfl, hf⟩)
  | putDraw c p idx => rw [ht] at h; cases h; exact .draw ht
  | putStore c p idx i => rw [ht] at h; cases h; exact .store ht
  | offer p r => rw [ht] at h; cases h; exact .enqueue ht

/-- INVERSION: a step is one of the transitions. -/
theorem step_moves {a : Action T K} (h : step sh s a = some s') : Moves sh s a s' := by
  cases a with
  | get t p =>
    simp only [step] at h
    split at h
    · rename_i ht; cases h; exact .call ht
    · cases h
  | put t p =>
    simp only [step] at h
    split at h
    · rename_i ht; cases h; exact .callPut ht
    · cases h
  | mapStringToReference t p =>
    simp only [step] at h
    split at h
    · rename_i ht; cases h; exact .call ht
    · cases h
  | go t => exact moves_of_go h
  | casFails t =>
    simp only [step] at h
    split at h
    · rename_i c p idx ht; cases h; exact .lose ht (Or.inl rfl)
    · cases h

/-! ### Leaving `Get` and `Put` -/

omit [DecidableEq K] in
@[simp] theorem goto_self (t : T) (pc : Prober K) : (s.goto t pc).thread t = pc :=
  Function.update_self ..

omit [DecidableEq K] in
theorem goto_other {t u : T} (pc : Prober K) (h : u ≠ t) : (s.goto t pc).thread u = s.thread u :=
  Function.update_of_ne h ..

variable (sh) in
omit [DecidableEq K] in
theorem afterGet_cases (s : State T K) (t : T) (c : Caller) (p : Option K) (r : UInt32) :
    (s.afterGet sh t c p r = s.ret t c p r false ∧ (c = .map → isIndex r = true)) ∨
    s.afterGet sh t c p r = s.goto t (.putPtr .map p (sh.start p)) := by
  cases c with
  | direct => exact Or.inl ⟨rfl, nofun⟩
  | map =>
    simp only [State.afterGet]
    split
    · rename_i hi; exact Or.inl ⟨rfl, fun _ => hi⟩
    · exact Or.inr rfl

omit [DecidableEq K] in
theorem afterPut_cases (s : State T K) (t : T) (c : Caller) (p : Option K) (r : UInt32) :
    (s.afterPut t c p r = s.ret t c p r true ∧ c = .direct) ∨
    (s.afterPut t c p r = s.goto t (.offer p r) ∧ isIndex r = true) ∨
    (s.afterPut t c p r = s.ret t c p noRef true ∧ isIndex r = false) := by
  cases c with
  | direct => exact Or.inl ⟨rfl, rfl⟩
  | map =>
    simp only [State.afterPut]
    split
    · rename_i hi; exact Or.inr (Or.inl ⟨rfl, hi⟩)
    · rename_i hi; exact Or.inr (Or.inr ⟨rfl, by simpa using hi⟩)

omit [DecidableEq K] in
theorem afterPut_noRef (s : State T K) (t : T) (c : Caller) (p : Option K) :
    s.afterPut t c p noRef = s.ret t c p noRef true := by
  cases c <;> rfl

variable (sh) in
omit [DecidableEq K] in
theorem nextStep_cases (s : State T K) (t : T) (c : Caller) (p : Option K) (idx : ℕ) :
    (∃ idx', sh.next p idx = some idx' ∧ s.nextStep sh t c p idx = s.goto t (.putPtr c p idx')) ∨
    (sh.next p idx = none ∧ s.nextStep sh t c p idx = s.ret t c p noRef true) := by
  unfold State.nextStep
  cases hn : sh.next p idx with
  | some idx' => exact Or.inl ⟨idx', rfl, rfl⟩
  | none => exact Or.inr ⟨rfl, afterPut_noRef s t c p⟩

end Esp.HashThreads
