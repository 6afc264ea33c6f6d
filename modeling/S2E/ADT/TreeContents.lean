import S2E.ADT.ImmutableTree

/-!
What the operations of `ImmutableTree.h` do to the heights of the sides of a tree.
-/

namespace S2E
namespace ImmutableTree
section Heights
variable {V : Type}

def Balanced : ImmutableTree V → Prop
  | .terminator => True
  | .node l _ r =>
    l.Balanced ∧ r.Balanced ∧ l.height ≤ r.height+2 ∧ r.height ≤ l.height+2

def Near (n : Nat) (t : ImmutableTree V) : Prop :=
  t.Balanced ∧ t.height ≤ n+1 ∧ n ≤ t.height+1

lemma balanced_balance {l r : ImmutableTree V} (v : V) (hl : l.Balanced) (hr : r.Balanced)
    (hlr : l.height ≤ r.height+3) (hrl : r.height ≤ l.height+3) :
    (balance l v r).Balanced ∧ max l.height r.height ≤ (balance l v r).height ∧
      (balance l v r).height ≤ max l.height r.height+1 ∧
      (l.height ≤ r.height+2 → r.height ≤ l.height+2 →
        (balance l v r).height = max l.height r.height+1) := by
  unfold balance
  split
  next hgt =>
    cases l with
    | terminator => simp [height] at hgt
    | node ll lv lr =>
      obtain ⟨hll,hlr',hbal⟩ := hl
      simp only [height] at *
      split
      next hge =>
        simp only [Balanced,height,hll,hlr',hr,true_and]
        omega
      next hlt =>
        cases lr with
        | terminator => simp [height] at hlt
        | node lrl lrv lrr =>
          obtain ⟨hlrl,hlrr,hbal'⟩ := hlr'
          simp only [Balanced,height,hll,hlrl,hlrr,hr,true_and] at *
          omega
  next hle =>
    split
    next hgt =>
      cases r with
      | terminator => simp [height] at hgt
      | node rl rv rr =>
        obtain ⟨hrl',hrr,hbal⟩ := hr
        simp only [height] at *
        split
        next hge =>
          simp only [Balanced,height,hl,hrl',hrr,true_and]
          omega
        next hlt =>
          cases rl with
          | terminator => simp [height] at hlt
          | node rll rlv rlr =>
            obtain ⟨hrll,hrlr,hbal'⟩ := hrl'
            simp only [Balanced,height,hl,hrll,hrlr,hrr,true_and] at *
            omega
    next hle' =>
      refine ⟨⟨hl,hr,by omega,by omega⟩,?_,Nat.le_refl _,fun _ _ => rfl⟩
      grind

lemma Balanced.near {t : ImmutableTree V} (h : t.Balanced) : Near t.height t :=
  ⟨h,Nat.le_succ _,Nat.le_succ _⟩

section Node
variable {l r t : ImmutableTree V} {v : V}

lemma Near.balance_left (h : (node l v r).Balanced) (ht : Near l.height t) (w : V) :
    Near (node l v r).height (balance t w r) := by
  obtain ⟨-,hr,hbal⟩ := h
  obtain ⟨ht,hge,hle⟩ := ht
  obtain ⟨hb,hheight⟩ := balanced_balance w ht hr (by omega) (by omega)
  refine ⟨hb,?_⟩
  grind

lemma Near.balance_right (h : (node l v r).Balanced) (ht : Near r.height t) (w : V) :
    Near (node l v r).height (balance l w t) := by
  obtain ⟨hl,-,hbal⟩ := h
  obtain ⟨ht,hge,hle⟩ := ht
  obtain ⟨hb,hheight⟩ := balanced_balance w hl ht (by omega) (by omega)
  refine ⟨hb,?_⟩
  grind

lemma Near.left (h : (node l v .terminator).Balanced) : Near (node l v .terminator).height l := by
  obtain ⟨hl,-,hbal⟩ := h
  refine ⟨hl,?_⟩
  grind

lemma Near.right (h : (node .terminator v r).Balanced) :
    Near (node .terminator v r).height r := by
  obtain ⟨-,hr,hbal⟩ := h
  refine ⟨hr,?_⟩
  grind

end Node

lemma near_popMin {l r : ImmutableTree V} {v : V} (h : (node l v r).Balanced) :
    Near (node l v r).height (popMin l v r).2 := by
  induction l generalizing v r with
  | terminator => exact Near.right h
  | node ll lv lr ihl _ => exact Near.balance_left h (ihl h.1) v

lemma near_popMax {l r : ImmutableTree V} {v : V} (h : (node l v r).Balanced) :
    Near (node l v r).height (popMax l v r).2 := by
  induction r generalizing l v with
  | terminator => exact Near.left h
  | node rl rv rr _ ihr => exact Near.balance_right h (ihr h.2.1) v

lemma near_joined {l r : ImmutableTree V} {v : V} (h : (node l v r).Balanced) :
    Near (node l v r).height (joined l r) := by
  cases l with
  | terminator => exact Near.right h
  | node ll lv lr =>
    cases r with
    | terminator => exact Near.left h
    | node rl rv rr => exact Near.balance_right h (near_popMin h.2.1) _

lemma two_pow_le_size {t : ImmutableTree V} (h : t.Balanced) :
    2^(t.height/3) ≤ t.toList.length+1 := by
  induction t with
  | terminator => simp [height]
  | node l v r ihl ihr =>
    obtain ⟨hl,hr,hbal⟩ := h
    simp only [toList,List.length_append,List.length_cons]
    rcases Nat.lt_or_ge (node l v r).height 3 with hlt | hge
    · rw [Nat.div_eq_of_lt hlt]
      omega
    have hsub : (node l v r).height/3 = ((node l v r).height-3)/3+1 := by omega
    have hleft : 2^(((node l v r).height-3)/3) ≤ 2^(l.height/3) :=
      Nat.pow_le_pow_right (by decide) (by grind)
    have hright : 2^(((node l v r).height-3)/3) ≤ 2^(r.height/3) :=
      Nat.pow_le_pow_right (by decide) (by grind)
    have ihl := ihl hl
    have ihr := ihr hr
    rw [hsub,Nat.pow_succ]
    omega

lemma Balanced.height_lt {t : ImmutableTree V} (h : t.Balanced)
    (hsize : t.toList.length < 2^64) : t.height < 195 := by
  by_contra hge
  have hpow : 2^65 ≤ 2^(t.height/3) := Nat.pow_le_pow_right (by decide) (by omega)
  have hle := two_pow_le_size h
  omega

end Heights

variable {K D : Type} {lt : K → K → Bool}

lemma near_insert {t : ImmutableTree (K × D)} (h : t.Balanced) (v : K × D) :
    Near t.height (insert lt v t) := by
  induction t with
  | terminator => exact ⟨⟨h,h,by simp [height]⟩,by simp [insert,height]⟩
  | node l w r ihl ihr =>
    rw [insert]
    split
    · exact Near.balance_left h (ihl h.1) w
    · split
      · exact Near.balance_right h (ihr h.2.1) w
      · exact h.near

lemma near_replace {t : ImmutableTree (K × D)} (h : t.Balanced) (v : K × D) :
    Near t.height (replace lt v t) := by
  induction t with
  | terminator => exact ⟨⟨h,h,by simp [height]⟩,by simp [replace,height]⟩
  | node l w r ihl ihr =>
    rw [replace]
    split
    · exact Near.balance_left h (ihl h.1) w
    · split
      · exact Near.balance_right h (ihr h.2.1) w
      · exact Balanced.near h

lemma near_remove {t : ImmutableTree (K × D)} (h : t.Balanced) (k : K) :
    Near t.height (remove lt k t) := by
  induction t with
  | terminator => exact ⟨h,by simp [remove,height]⟩
  | node l w r ihl ihr =>
    rw [remove]
    split
    · exact Near.balance_left h (ihl h.1) w
    · split
      · exact Near.balance_right h (ihr h.2.1) w
      · exact near_joined h

end ImmutableTree
end S2E
