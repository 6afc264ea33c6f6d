import Mathlib

/-!
Systems that take one step after the other: what holds in every state that a run of admitted
steps reaches.
-/

namespace Runs
variable {σ α : Type}

inductive Reached (step : σ → α → Option σ) (admits : σ → α → Prop) (start : σ → Prop) :
    σ → Prop where
  | start {s : σ} (h : start s) : Reached step admits start s
  | step {s s' : σ} {a : α} (hs : Reached step admits start s) (ha : admits s a)
      (h : step s a = some s') : Reached step admits start s'

variable {step : σ → α → Option σ} {admits : σ → α → Prop} {start : σ → Prop} {s s' : σ}

lemma Reached.invariant {I : σ → Prop} (hstart : ∀ {s}, start s → I s)
    (hstep : ∀ {s a s'}, I s → admits s a → step s a = some s' → I s')
    (h : Reached step admits start s) : I s := by
  induction h with
  | start h => exact hstart h
  | step _ ha h ih => exact hstep ih ha h

def run (step : σ → α → Option σ) (check : σ → α → Bool) (s : σ) : List α → Option σ
  | [] => some s
  | a :: as => if check s a then (step s a).bind (run step check · as) else none

lemma Reached.run {check : σ → α → Bool} (hcheck : ∀ s a, check s a → admits s a)
    {as : List α} (hs : Reached step admits start s)
    (h : run step check s as = some s') : Reached step admits start s' := by
  induction as generalizing s with
  | nil =>
    cases h
    exact hs
  | cons a as ih =>
    obtain ⟨hok,h⟩ := Option.ite_none_right_eq_some.mp h
    obtain ⟨s₁,h₁,h⟩ := Option.bind_eq_some_iff.mp h
    exact ih (hs.step (hcheck s a hok) h₁) h

end Runs
