import Libesp.Schemes.Machine
import Libesp.Schemes.Objects

/-! @esp schemes | name:Linear | scheme:refinement

    A machine whose steps answer requests behind the scenes. A view takes each state to one of an
    object, and each step says which requests take effect in it and how they are answered. If every
    step answers as the object does and leads to the view of the next state, a whole run answers as
    the object does when it is given the requests one after the other. That the answers are those the
    callers got is read off a history (`run_history`).

        s ──a──▶ t         effects s a = [(i₁, o₁), …]
        │        │
      view s ─▶ view t     the object answers o₁, … to i₁, … -/

namespace Esp.Linear
open Machine Objects

variable {σ α τ ι ο : Type*} {spec : τ → ι → ο × τ}

theorem answers_append (t : τ) (is js : List ι) :
    answers spec t (is ++ js) = answers spec t is ++ answers spec (final spec t is) js := by
  induction is generalizing t with
  | nil => rfl
  | cons i is ih => rw [List.cons_append, answers_cons, answers_cons, ih, final_cons, List.cons_append]

theorem final_append (t : τ) (is js : List ι) :
    final spec t (is ++ js) = final spec (final spec t is) js := List.foldl_append

/-- The object, in state `t`, answers the requests as they were answered, and is then in state `u`. -/
def Answered (spec : τ → ι → ο × τ) (t : τ) (es : List (ι × ο)) (u : τ) : Prop :=
  answers spec t (es.map Prod.fst) = es.map Prod.snd ∧ final spec t (es.map Prod.fst) = u

theorem Answered.nil (t : τ) : Answered spec t [] t := ⟨rfl, rfl⟩

theorem Answered.one {t : τ} {i : ι} {o : ο} {u : τ} (h : spec t i = (o, u)) :
    Answered spec t [(i, o)] u :=
  ⟨congrArg (fun x => [Prod.fst x]) h, congrArg Prod.snd h⟩

theorem Answered.append {t u v : τ} {es fs : List (ι × ο)} (h : Answered spec t es u)
    (h' : Answered spec u fs v) : Answered spec t (es ++ fs) v := by
  obtain ⟨hans, rfl⟩ := h
  obtain ⟨hans', rfl⟩ := h'
  rw [Answered, List.map_append, List.map_append, answers_append, final_append, hans, hans']
  exact ⟨rfl, rfl⟩

/-- RULE: the requests of a run, in the order in which they take effect. -/
theorem run_answered {step : σ → α → Option σ} {I : σ → Prop} {G : σ → α → Prop} (view : σ → τ)
    (effects : σ → α → List (ι × ο))
    (hstep : ∀ s a t, I s → G s a → step s a = some t →
      I t ∧ Answered spec (view s) (effects s a) (view t)) :
    ∀ (as : List α) {s u : σ}, Meets step G s as → I s → run step s as = some u →
      Answered spec (view s) ((trace step s as).flatMap fun x => effects x.1 x.2) (view u)
  | [], _, _, _, _, hr => by
    cases hr
    exact .nil _
  | a :: as, s, u, hG, hI, hr => by
    obtain ⟨t, hs, hr'⟩ := run_cons_some.mp hr
    obtain ⟨hg, hG'⟩ := (meets_cons hs).mp hG
    obtain ⟨hI', hfirst⟩ := hstep s a t hI hg hs
    simp only [trace, hs, Option.elim_some, List.flatMap_cons]
    exact hfirst.append (run_answered view effects hstep as hG' hI' hr')

/-- RULE: a history that each step adds to. -/
theorem run_history {β : Type*} {step : σ → α → Option σ} {I : σ → Prop} {G : σ → α → Prop}
    (log : σ → List β) (added : σ → α → List β)
    (hstep : ∀ s a t, I s → G s a → step s a = some t → I t ∧ log t = log s ++ added s a) :
    ∀ (as : List α) {s u : σ}, Meets step G s as → I s → run step s as = some u →
      log u = log s ++ (trace step s as).flatMap fun x => added x.1 x.2
  | [], _, _, _, _, hr => by
    cases hr
    exact (List.append_nil _).symm
  | a :: as, s, u, hG, hI, hr => by
    obtain ⟨t, hs, hr'⟩ := run_cons_some.mp hr
    obtain ⟨hg, hG'⟩ := (meets_cons hs).mp hG
    obtain ⟨hI', hlog⟩ := hstep s a t hI hg hs
    rw [run_history log added hstep as hG' hI' hr', hlog, List.append_assoc]
    simp only [trace, hs, Option.elim_some, List.flatMap_cons]

end Esp.Linear
