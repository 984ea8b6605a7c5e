import Mathlib.Data.Nat.Basic
import Mathlib.Tactic

/-! @esp schemes | name:Machine | scheme:step-run

    A machine is a partial step function `step : σ → α → Option σ`: `step s a = none` says that the
    action `a` is not enabled in `s`. A run folds the step over a list of actions, so a schedule of
    several threads is a list that names, action by action, whose turn it is. An invariant is
    proved for one step and carried to the run by the rules below, which differ in what they may
    assume of the run: a condition met by every step (`run_inv`), a bound on a quantity that only
    grows (`run_inv_bounded`). Runs of two machines are compared step by step as well (`meets_iff`,
    `run_project`, `run_together`). -/

namespace Esp.Machine

variable {σ α : Type*} (step : σ → α → Option σ)

/-- Run a list of actions; `none` as soon as one of them is not enabled. -/
def run (s : σ) (as : List α) : Option σ := as.foldlM step s

/-- The steps of a run, each as the state before it and the action taken there. -/
def trace : σ → List α → List (σ × α)
  | _, [] => []
  | s, a :: as => (s, a) :: ((step s a).elim [] fun t => trace t as)

/-- Every step of the run meets `G`, a condition on the state before the step. -/
def Meets (G : σ → α → Prop) (s : σ) (as : List α) : Prop := ∀ x ∈ trace step s as, G x.1 x.2

instance (G : σ → α → Prop) [∀ s a, Decidable (G s a)] (s : σ) (as : List α) :
    Decidable (Meets step G s as) :=
  inferInstanceAs (Decidable (∀ x ∈ trace step s as, G x.1 x.2))

/-- The run is defined, and `p` holds of every state on the way, its first and last included. -/
def Always (p : σ → Prop) : σ → List α → Prop
  | s, [] => p s
  | s, a :: as => p s ∧ ∃ t, step s a = some t ∧ Always p t as

variable {step}

@[simp] theorem run_nil (s : σ) : run step s [] = some s := rfl

@[simp] theorem run_cons (s : σ) (a : α) (as : List α) :
    run step s (a :: as) = (step s a).bind fun t => run step t as := rfl

theorem run_append (s : σ) (as bs : List α) :
    run step s (as ++ bs) = (run step s as).bind fun t => run step t bs := by
  simp [run, List.foldlM_append]

theorem run_cons_some {s u : σ} {a : α} {as : List α} :
    run step s (a :: as) = some u ↔ ∃ t, step s a = some t ∧ run step t as = some u := by
  rw [run_cons, Option.bind_eq_some_iff]

theorem meets_cons {G : σ → α → Prop} {s t : σ} {a : α} {as : List α} (hs : step s a = some t) :
    Meets step G s (a :: as) ↔ G s a ∧ Meets step G t as := by
  simp [Meets, trace, hs]

/-- RULE: what every step that meets `G` preserves, a run whose steps all meet `G` preserves. -/
theorem run_inv {I : σ → Prop} {G : σ → α → Prop}
    (hstep : ∀ s a t, I s → G s a → step s a = some t → I t) :
    ∀ (as : List α) {s u : σ}, Meets step G s as → I s → run step s as = some u → I u
  | [], _, _, _, hI, hr => by cases hr; exact hI
  | a :: as, s, u, hG, hI, hr => by
    obtain ⟨t, hs, hr'⟩ := run_cons_some.mp hr
    obtain ⟨hg, hG'⟩ := (meets_cons hs).mp hG
    exact run_inv hstep as hG' (hstep s a t hI hg hs) hr'

/-- RULE: a quantity no step lowers is no lower at the end of a run. -/
theorem run_mono {m : σ → ℕ} (hstep : ∀ s a t, step s a = some t → m s ≤ m t) :
    ∀ (as : List α) {s u : σ}, run step s as = some u → m s ≤ m u
  | [], _, _, hr => by cases hr; exact le_refl _
  | a :: as, s, u, hr => by
    obtain ⟨t, hs, hr'⟩ := run_cons_some.mp hr
    exact le_trans (hstep s a t hs) (run_mono hstep as hr')

/-- RULE: while a growing quantity stays below `N`, an invariant need only survive the steps that
    keep it below `N`. -/
theorem run_inv_bounded {I : σ → Prop} {G : σ → α → Prop} {m : σ → ℕ} {N : ℕ}
    (hmono : ∀ s a t, step s a = some t → m s ≤ m t)
    (hstep : ∀ s a t, I s → G s a → m t < N → step s a = some t → I t) :
    ∀ (as : List α) {s u : σ}, Meets step G s as → I s → run step s as = some u → m u < N → I u
  | [], _, _, _, hI, hr, _ => by cases hr; exact hI
  | a :: as, s, u, hG, hI, hr, hN => by
    obtain ⟨t, hs, hr'⟩ := run_cons_some.mp hr
    obtain ⟨hg, hG'⟩ := (meets_cons hs).mp hG
    have ht : m t < N := lt_of_le_of_lt (run_mono hmono as hr') hN
    exact run_inv_bounded hmono hstep as hG' (hstep s a t hI hg ht hs) hr' hN

/-- A condition on the actions alone is met by a run whose actions meet it. -/
theorem meets_of_forall {g : α → Prop} {as : List α} (h : ∀ a ∈ as, g a) (s : σ) :
    Meets step (fun _ a => g a) s as := by
  induction as generalizing s with
  | nil => exact fun x hx => absurd hx List.not_mem_nil
  | cons a as ih =>
    intro x hx
    rcases List.mem_cons.mp hx with rfl | hx
    · exact h a List.mem_cons_self
    · rcases hs : step s a with _ | t <;> rw [hs] at hx
      · exact absurd hx List.not_mem_nil
      · exact ih (fun b hb => h b (List.mem_cons_of_mem a hb)) t x hx

theorem Always.first {p : σ → Prop} {s : σ} {as : List α} (h : Always step p s as) : p s := by
  cases as with
  | nil => exact h
  | cons a as => exact h.1

theorem always_cons {p : σ → Prop} {s t : σ} {a : α} {as : List α} (hs : step s a = some t) :
    Always step p s (a :: as) ↔ p s ∧ Always step p t as := by
  simp [Always, hs]

theorem Meets.first {G : σ → α → Prop} {s : σ} {a : α} {as : List α} (h : Meets step G s (a :: as)) :
    G s a :=
  h (s, a) List.mem_cons_self

/-- RULE: a machine is followed by another, on the same actions, for as long as it meets its condition;
    and the other's condition says whether it does. Then one meets its condition throughout exactly
    when the other does. -/
theorem meets_iff {τ : Type*} {step' : τ → α → Option τ} {G : σ → α → Prop} {H : τ → α → Prop}
    {R : σ → τ → Prop}
    (hstep : ∀ s t a t', R s t → step' t a = some t' →
      (G s a ↔ H t a) ∧ (H t a → ∃ s', step s a = some s' ∧ R s' t'))
    {as : List α} {s : σ} {t u : τ} (hR : R s t) (hr : run step' t as = some u) :
    Meets step G s as ↔ Meets step' H t as := by
  induction as generalizing s t with
  | nil =>
    exact iff_of_true (fun _ hx => absurd hx List.not_mem_nil) (fun _ hx => absurd hx List.not_mem_nil)
  | cons a as ih =>
    obtain ⟨t', ht, hr⟩ := run_cons_some.mp hr
    obtain ⟨hiff, hnext⟩ := hstep s t a t' hR ht
    by_cases hH : H t a
    · obtain ⟨s', hs, hR'⟩ := hnext hH
      rw [meets_cons hs, meets_cons ht, hiff, ih hR' hr]
    · exact iff_of_false (fun h => hH (hiff.mp h.first)) fun h => hH h.first

/-- RULE: where every step keeps the invariant, and keeps `p` exactly when it meets `G`, the states of
    a run all have `p` exactly when its steps all meet `G`. -/
theorem always_iff_meets {I p : σ → Prop} {G : σ → α → Prop}
    (hstep : ∀ s a t, I s → p s → step s a = some t → I t ∧ (p t ↔ G s a))
    {as : List α} {s u : σ} (hI : I s) (hp : p s) (hr : run step s as = some u) :
    Always step p s as ↔ Meets step G s as := by
  induction as generalizing s with
  | nil => exact iff_of_true hp fun _ hx => absurd hx List.not_mem_nil
  | cons a as ih =>
    obtain ⟨t, hs, hr⟩ := run_cons_some.mp hr
    obtain ⟨hI', hiff⟩ := hstep s a t hI hp hs
    rw [always_cons hs, meets_cons hs, and_iff_right hp]
    by_cases hp' : p t
    · rw [ih hI' hp' hr, and_iff_right (hiff.mp hp')]
    · exact iff_of_false (fun h => hp' h.first) fun h => hp' (hiff.mpr h.1)

/-- RULE: where every step is a step of another machine on what `f` sees of the states, or leaves that
    as it is, what `f` sees of a run is a run. -/
theorem run_project {τ β : Type*} {step' : τ → β → Option τ} (f : σ → τ)
    (hstep : ∀ s a t, step s a = some t → f t = f s ∨ ∃ b, step' (f s) b = some (f t))
    {as : List α} {s u : σ} (hr : run step s as = some u) :
    ∃ bs, run step' (f s) bs = some (f u) := by
  induction as generalizing s with
  | nil =>
    obtain rfl := Option.some.inj hr
    exact ⟨[], rfl⟩
  | cons a as ih =>
    obtain ⟨t, hs, hr⟩ := run_cons_some.mp hr
    obtain ⟨bs, hbs⟩ := ih hr
    rcases hstep s a t hs with hsame | ⟨b, hb⟩
    · exact ⟨bs, hsame ▸ hbs⟩
    · exact ⟨b :: bs, run_cons_some.mpr ⟨f t, hb, hbs⟩⟩

/-- INVERSION: related outcomes are none, or two related states. -/
theorem rel_cases {τ : Type*} {R : σ → τ → Prop} {x : Option σ} {y : Option τ}
    (h : Option.Rel R x y) : (x = none ∧ y = none) ∨ ∃ s t, x = some s ∧ y = some t ∧ R s t := by
  cases h with
  | some h => exact Or.inr ⟨_, _, rfl, rfl, h⟩
  | none => exact Or.inl ⟨rfl, rfl⟩

/-- RULE: two machines whose related states take the same action together, to related states, or not at
    all, run together or not at all. -/
theorem run_together {τ : Type*} {step' : τ → α → Option τ} {R : σ → τ → Prop} {as : List α} {s : σ}
    {t : τ} (hstep : ∀ a ∈ as, ∀ s t, R s t → Option.Rel R (step s a) (step' t a)) (hR : R s t) :
    Option.Rel R (run step s as) (run step' t as) := by
  induction as generalizing s t with
  | nil => exact .some hR
  | cons a as ih =>
    rw [run_cons, run_cons]
    rcases rel_cases (hstep a List.mem_cons_self s t hR) with ⟨hs, ht⟩ | ⟨s', t', hs, ht, hR'⟩
    · rw [hs, ht]
      exact .none
    · rw [hs, ht]
      exact ih (fun b hb => hstep b (List.mem_cons_of_mem a hb)) hR'

/-- A condition that holds of everything is met by every run. -/
theorem meets_true (s : σ) (as : List α) : Meets step (fun _ _ => True) s as := fun _ _ => trivial

end Esp.Machine
