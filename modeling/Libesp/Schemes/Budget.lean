import Mathlib.Algebra.BigOperators.Group.List.Basic
import Libesp.Schemes.Machine

/-! @esp schemes | name:Budget | scheme:potential

    What a run can cost. A potential `m` of the states pays for the steps: a step may cost no more than
    the potential it gives up, and some steps bring an income. Then a run costs no more than what it
    started with and what came in. An income may also be read off a credit, a quantity of the states
    that the steps raise.

        m s ──cost──▶ m t           m t + cost a ≤ m s + income a
        m s + incomes of the run  ≥  costs of the run + m (end)

    So the steps of a call end where its income is bounded and every step of it costs something. -/

namespace Esp.Machine

variable {σ α : Type*} {step : σ → α → Option σ}

/-- RULE: the costs of a run are paid from the potential at its start, the incomes on the way and what
    the credit has grown by. -/
theorem run_ledger {I : σ → Prop} {G : σ → α → Prop} (m credit : σ → ℕ) (cost income : σ → α → ℕ)
    (hstep : ∀ s a t, I s → G s a → step s a = some t →
      I t ∧ m t + cost s a + credit s ≤ m s + income s a + credit t) :
    ∀ (as : List α) {s u : σ}, Meets step G s as → I s → run step s as = some u →
      I u ∧ m u + ((trace step s as).map fun x => cost x.1 x.2).sum + credit s ≤
        m s + ((trace step s as).map fun x => income x.1 x.2).sum + credit u
  | [], _, _, _, hI, hr => by cases hr; exact ⟨hI, le_refl _⟩
  | a :: as, s, u, hG, hI, hr => by
    obtain ⟨t, hs, hr'⟩ := run_cons_some.mp hr
    obtain ⟨hg, hG'⟩ := (meets_cons hs).mp hG
    obtain ⟨hI', hpay⟩ := hstep s a t hI hg hs
    obtain ⟨hend, hrest⟩ := run_ledger m credit cost income hstep as hG' hI' hr'
    refine ⟨hend, ?_⟩
    simp only [trace, hs, Option.elim_some, List.map_cons, List.sum_cons]
    omega

/-- The actions of a run that is defined are all in its trace. -/
theorem trace_actions {as : List α} {s u : σ} (hr : run step s as = some u) :
    (trace step s as).map Prod.snd = as := by
  induction as generalizing s with
  | nil => rfl
  | cons a as ih =>
    obtain ⟨t, hs, hr⟩ := run_cons_some.mp hr
    rw [trace, hs, Option.elim_some, List.map_cons, ih hr]

/-- RULE: where costs and incomes are those of the actions. -/
theorem run_budget {I : σ → Prop} {G : σ → α → Prop} (m : σ → ℕ) (cost income : α → ℕ)
    (hstep : ∀ s a t, I s → G s a → step s a = some t → I t ∧ m t + cost a ≤ m s + income a)
    (as : List α) {s u : σ} (hG : Meets step G s as) (hI : I s) (hr : run step s as = some u) :
    m u + (as.map cost).sum ≤ m s + (as.map income).sum := by
  obtain ⟨-, h⟩ := run_ledger m (fun _ => 0) (fun _ => cost) (fun _ => income) hstep as hG hI hr
  have hsum : ∀ f : α → ℕ, (trace step s as).map (fun x => f x.2) = as.map f := by
    intro f
    rw [← trace_actions hr, List.map_map, trace_actions hr]
    rfl
  rwa [hsum, hsum] at h

/-- RULE: where a growing quantity ends below `N`, it is below `N` after every step. -/
theorem meets_below {m : σ → ℕ} {N : ℕ} (hmono : ∀ s a t, step s a = some t → m s ≤ m t) :
    ∀ (as : List α) {s u : σ}, run step s as = some u → m u < N →
      Meets step (fun s a => ∀ t, step s a = some t → m t < N) s as
  | [], _, _, _, _ => fun _ hx => absurd hx List.not_mem_nil
  | a :: as, s, u, hr, hN => by
    obtain ⟨t, hs, hr'⟩ := run_cons_some.mp hr
    refine (meets_cons hs).mpr ⟨?_, meets_below hmono as hr' hN⟩
    intro t' hs'
    obtain rfl := Option.some.inj (hs.symm.trans hs')
    exact lt_of_le_of_lt (run_mono hmono as hr') hN

/-- RULE: the same where nothing is assumed of the run. -/
theorem run_budget_free (m : σ → ℕ) (cost income : α → ℕ)
    (hstep : ∀ s a t, step s a = some t → m t + cost a ≤ m s + income a) {as : List α} {s u : σ}
    (hr : run step s as = some u) :
    m u + (as.map cost).sum ≤ m s + (as.map income).sum :=
  run_budget (I := fun _ => True) (G := fun _ _ => True) m cost income
    (fun s a t _ _ hs => ⟨trivial, hstep s a t hs⟩) as (meets_true s as) trivial hr

/-- A cost of one for each action that meets `p`. -/
theorem sum_ones (p : α → Bool) (as : List α) :
    (as.map fun a => if p a then 1 else 0).sum = as.countP p := by
  induction as with
  | nil => rfl
  | cons a as ih => rw [List.map_cons, List.sum_cons, List.countP_cons, ih, Nat.add_comm]

end Esp.Machine
