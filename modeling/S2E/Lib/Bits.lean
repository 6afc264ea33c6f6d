import Mathlib

/-! Bits of natural numbers below a power of two. -/

namespace Bits
variable {r rw v w : Nat}

lemma testBit_of_lt {i : Nat} (h : v < 2^w) (hi : w ≤ i) : v.testBit i = false :=
  Nat.testBit_lt_two_pow (Nat.lt_of_lt_of_le h (Nat.pow_le_pow_right (by decide) hi))

lemma eq_of_testBit_lt {u : Nat} (hv : v < 2^w) (hu : u < 2^w)
    (h : ∀ i, i < w → v.testBit i = u.testBit i) : v = u := by
  apply Nat.eq_of_testBit_eq
  intro i
  by_cases hi : i < w
  · exact h i hi
  · rw [testBit_of_lt hv (by omega),testBit_of_lt hu (by omega)]

lemma testBit_slice (v off w i : Nat) :
    ((v >>> off)%2^w).testBit i = (decide (i < w) && v.testBit (off+i)) := by
  rw [Nat.testBit_mod_two_pow,Nat.testBit_shiftRight]

lemma testBit_append (l i : Nat) (hr : r < 2^rw) :
    ((l <<< rw) ||| r).testBit i = if i < rw then r.testBit i else l.testBit (i-rw) := by
  rw [Nat.testBit_or,Nat.testBit_shiftLeft]
  by_cases hi : i < rw
  · have : ¬rw ≤ i := by omega
    simp [hi,this]
  · have : rw ≤ i := by omega
    simp [hi,this,testBit_of_lt hr this]

lemma slice_self (h : v < 2^w) : (v >>> 0)%2^w = v := by
  rw [Nat.shiftRight_zero,Nat.mod_eq_of_lt h]

lemma slice_append_high (l off w : Nat) (hr : r < 2^rw) (h : rw ≤ off) :
    (((l <<< rw) ||| r) >>> off)%2^w = (l >>> (off-rw))%2^w := by
  apply Nat.eq_of_testBit_eq
  intro i
  rw [testBit_slice,testBit_slice,testBit_append l _ hr,if_neg (by omega)]
  congr 2
  omega

lemma slice_append_low (l off w : Nat) (hr : r < 2^rw) (h : off+w ≤ rw) :
    (((l <<< rw) ||| r) >>> off)%2^w = (r >>> off)%2^w := by
  apply Nat.eq_of_testBit_eq
  intro i
  rw [testBit_slice,testBit_slice,testBit_append l _ hr]
  by_cases hi : i < w
  · rw [if_pos (by omega)]
  · simp [hi]

lemma slice_append_split (l off w : Nat) (hr : r < 2^rw) (h₁ : off < rw)
    (h₂ : rw < off+w) : (((l <<< rw) ||| r) >>> off)%2^w =
      (((l >>> 0)%2^(w+off-rw)) <<< (rw-off)) ||| ((r >>> off)%2^(rw-off)) := by
  apply Nat.eq_of_testBit_eq
  intro i
  rw [testBit_slice,testBit_append l _ hr,
    testBit_append _ _ (Nat.mod_lt _ (Nat.two_pow_pos _)),testBit_slice,testBit_slice]
  by_cases hi : i < rw-off
  · have h3 : off+i < rw := by omega
    have h4 : i < w := by omega
    simp [hi,h3,h4]
  have h3 : ¬off+i < rw := by omega
  have h4 : off+i-rw = i-(rw-off) := by omega
  have h5 : i < w ↔ i-(rw-off) < w+off-rw := by omega
  simp [hi,h3,h4,h5]

lemma append_slice (v off w₁ w₂ : Nat) : (((v >>> (off+w₂))%2^w₁) <<< w₂) ||| ((v >>> off)%2^w₂) =
      (v >>> off)%2^(w₁+w₂) := by
  apply Nat.eq_of_testBit_eq
  intro i
  rw [testBit_append _ _ (Nat.mod_lt _ (Nat.two_pow_pos _)),testBit_slice,testBit_slice,
    testBit_slice]
  by_cases hi : i < w₂
  · have : i < w₁+w₂ := by omega
    simp [hi,this]
  · have h1 : off+w₂+(i-w₂) = off+i := by omega
    have h2 : i-w₂ < w₁ ↔ i < w₁+w₂ := by omega
    simp [hi,h1,h2]

end Bits
