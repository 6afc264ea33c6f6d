import Mathlib

/-! `ResourceMonitor.cpp`: the states killed when memory runs out. -/

namespace S2E.ResourceMonitor
open List

def nrStatesToTerminate (statesCount : Nat) : Nat :=
  let nr := statesCount/20
  if nr < 1 ∧ statesCount > 0 then 1 else nr

/-- The loop over the states: the step of the `for` counts a skipped state too. -/
def terminate : List Nat → Nat → List Nat
  | id :: states, nr+1 =>
    -- State 0 is kept for `SeedSearcher`.
    if id = 0 then terminate states nr else id :: terminate states nr
  | _, _ => []

/-- The states killed, given the identifiers in the order of the set; `none` is a
failed assertion. -/
def dropStates (states : List Nat) : Option (List Nat) :=
  if states.length > 0 then some (terminate states (nrStatesToTerminate states.length)) else none

lemma terminate_eq (states : List Nat) (nr : Nat) :
    terminate states nr = (states.take nr).filter (· ≠ 0) := by
  fun_induction terminate states nr with
  | case1 states nr ih => simpa using ih
  | case2 id states nr hid ih => simp [hid,ih]
  | case3 states nr h => cases states <;> cases nr <;> simp_all

lemma length_terminate (states : List Nat) {nr : Nat} (hnr : nr ≤ states.length) :
    (terminate states nr).length = min nr (states.countP (· ≠ 0)) ↔
      0 ∉ states.take nr ∨ ∀ id ∈ states.drop nr, id = 0 := by
  have hzero : (states.take nr).countP (· ≠ 0) = nr ↔ 0 ∉ states.take nr := by
    have h := countP_eq_length (p := (· ≠ 0)) (l := states.take nr)
    rw [length_take_of_le hnr] at h
    rw [h]
    grind
  have hrest : (states.drop nr).countP (· ≠ 0) = 0 ↔ ∀ id ∈ states.drop nr, id = 0 := by
    simp [countP_eq_zero]
  have hle : (states.take nr).countP (· ≠ 0) ≤ nr :=
    Nat.le_trans countP_le_length (length_take_le _ _)
  have hsplit : states.countP (· ≠ 0) =
      (states.take nr).countP (· ≠ 0)+(states.drop nr).countP (· ≠ 0) := by
    rw [← countP_append, take_append_drop]
  rw [terminate_eq, ← countP_eq_length_filter, ← hzero, ← hrest]
  omega

/-- The quota is met exactly if state 0 does not use up a part of it, or nothing
else is left. -/
theorem dropStates_quota_iff (states : List Nat) :
    (∃ killed, dropStates states = some killed ∧ 0 ∉ killed ∧
      killed.length = min (max 1 (states.length/20)) (states.countP (· ≠ 0))) ↔
    states ≠ [] ∧ (0 ∉ states.take (max 1 (states.length/20)) ∨
      ∀ id ∈ states.drop (max 1 (states.length/20)), id = 0) := by
  rcases eq_or_ne states [] with rfl | hne
  · simp [dropStates]
  have hpos : 0 < states.length := length_pos_iff.mpr hne
  have hnr : nrStatesToTerminate states.length = max 1 (states.length/20) := by
    simp only [nrStatesToTerminate]
    split <;> omega
  rw [← hnr, ← length_terminate states (by omega)]
  simp [dropStates,hpos,hne,terminate_eq]

theorem dropStates_kills_nothing : dropStates [0,1] = some [] := by decide

end S2E.ResourceMonitor
