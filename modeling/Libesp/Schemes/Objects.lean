import Mathlib.Algebra.BigOperators.Group.List.Basic
import Mathlib.Tactic

/-! @esp schemes | name:Objects | scheme:refinement

    An object answers each request and changes its state: `step : σ → ι → ο × σ`. One object refines
    another when a relation of their states is kept by every request and makes the two answer alike.
    What the answers of a run cost may be bounded (`refines_within`), for objects that are only good
    for so many requests. -/

namespace Esp.Objects

variable {σ τ ι ο : Type*}

/-- The answers to a sequence of requests. -/
def answers (step : σ → ι → ο × σ) : σ → List ι → List ο
  | _, [] => []
  | s, i :: is => (step s i).1 :: answers step (step s i).2 is

/-- The state after a sequence of requests. -/
def final (step : σ → ι → ο × σ) (s : σ) (is : List ι) : σ := is.foldl (fun s i => (step s i).2) s

variable {step : σ → ι → ο × σ} {spec : τ → ι → ο × τ}

@[simp] theorem answers_nil (s : σ) : answers step s [] = [] := rfl

@[simp] theorem answers_cons (s : σ) (i : ι) (is : List ι) :
    answers step s (i :: is) = (step s i).1 :: answers step (step s i).2 is := rfl

@[simp] theorem final_nil (s : σ) : final step s [] = s := rfl

@[simp] theorem final_cons (s : σ) (i : ι) (is : List ι) :
    final step s (i :: is) = final step (step s i).2 is := rfl

/-- RULE: as long as the answers cost less than `N`, related states answer alike and stay related; the
    relation may speak of the cost so far. -/
theorem refines_within {R : ℕ → σ → τ → Prop} {cost : ο → ℕ} {N : ℕ}
    (hstep : ∀ n s t i, R n s t → n + cost (step s i).1 < N →
      (step s i).1 = (spec t i).1 ∧ R (n + cost (step s i).1) (step s i).2 (spec t i).2) :
    ∀ (is : List ι) {n : ℕ} {s : σ} {t : τ}, R n s t →
      n + ((answers step s is).map cost).sum < N →
      answers step s is = answers spec t is ∧
        R (n + ((answers step s is).map cost).sum) (final step s is) (final spec t is)
  | [], _, _, _, hR, _ => ⟨rfl, hR⟩
  | i :: is, n, s, t, hR, hN => by
    rw [answers_cons, List.map_cons, List.sum_cons, ← add_assoc] at hN ⊢
    obtain ⟨hans, hR'⟩ := hstep n s t i hR (lt_of_le_of_lt (Nat.le_add_right _ _) hN)
    obtain ⟨hrest, hfinal⟩ := refines_within hstep is hR' hN
    rw [answers_cons, final_cons, final_cons, ← hans, ← hrest]
    exact ⟨rfl, hfinal⟩

/-- RULE: related states answer alike and stay related. -/
theorem refines {R : σ → τ → Prop}
    (hstep : ∀ s t i, R s t → (step s i).1 = (spec t i).1 ∧ R (step s i).2 (spec t i).2)
    (is : List ι) {s : σ} {t : τ} (hR : R s t) :
    answers step s is = answers spec t is ∧ R (final step s is) (final spec t is) := by
  -- a run whose requests cost nothing
  have hbudget : 0 + ((answers step s is).map fun _ : ο => 0).sum < 1 := by
    rw [List.map_const', List.sum_replicate]
    simp
  obtain ⟨hans, hR'⟩ := refines_within (R := fun _ => R) (fun _ s t i h _ => hstep s t i h) is hR
    hbudget
  exact ⟨hans, hR'⟩

end Esp.Objects
