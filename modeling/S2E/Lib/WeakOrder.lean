import Mathlib

/-!
Lists of entries whose keys increase in a strict weak order, split at a key: the entries below
it, the entry that is the same to the order, and the entries above.
-/

namespace WeakOrder
open List

variable {K E : Type} (lt : K → K → Bool) (key : E → K)

def below (k : K) (es : List E) : List E := es.filter fun e => lt (key e) k

def above (k : K) (es : List E) : List E := es.filter fun e => lt k (key e)

def same (k : K) (es : List E) : List E := es.filter fun e => !lt (key e) k && !lt k (key e)

def Increasing (es : List E) : Prop := es.Pairwise fun x y => lt (key x) (key y) = true

section Order
variable {lt} [IsStrictWeakOrder K fun a b => lt a b = true]

lemma lt_irrefl (a : K) : lt a a = false :=
  Bool.eq_false_iff.mpr (irrefl_of (fun a b => lt a b) a)

lemma lt_trans {a b c : K} (hab : lt a b) (hbc : lt b c) : lt a c :=
  trans_of (fun a b => lt a b) hab hbc

lemma lt_asymm {a b : K} (h : lt a b) : lt b a = false := by
  rw [Bool.eq_false_iff]
  intro h'
  exact irrefl_of (fun a b => lt a b) a (lt_trans h h')

lemma lt_or_lt {a b : K} (h : lt a b) (c : K) : lt a c ∨ lt c b := by
  by_contra hc
  obtain ⟨hac,hcb⟩ := not_or.mp hc
  have hca : ¬ lt c a := fun hca => hcb (lt_trans hca h)
  have hbc : ¬ lt b c := fun hbc => hac (lt_trans h hbc)
  have hab := @IsStrictWeakOrder.incomp_trans K (fun a b => lt a b) _ a c b
    ⟨hac,hca⟩ ⟨hcb,hbc⟩
  exact hab.1 h

end Order

section Split
variable {lt key}

lemma below_append (k : K) (xs ys : List E) :
    below lt key k (xs ++ ys) = below lt key k xs ++ below lt key k ys := filter_append ..

lemma above_append (k : K) (xs ys : List E) :
    above lt key k (xs ++ ys) = above lt key k xs ++ above lt key k ys := filter_append ..

lemma same_append (k : K) (xs ys : List E) :
    same lt key k (xs ++ ys) = same lt key k xs ++ same lt key k ys := filter_append ..

variable {es : List E}

lemma mem_below {k : K} {e : E} : e ∈ below lt key k es ↔ e ∈ es ∧ lt (key e) k := mem_filter

lemma mem_above {k : K} {e : E} : e ∈ above lt key k es ↔ e ∈ es ∧ lt k (key e) := mem_filter

lemma mem_same {k : K} {e : E} :
    e ∈ same lt key k es ↔ e ∈ es ∧ lt (key e) k = false ∧ lt k (key e) = false := by
  simp [same,mem_filter]

/-- Of two entries in this order, the first is below the key or the second is above it, and no
entry is both. -/
structure Divides (lt : K → K → Bool) (key : E → K) (k : K) (es : List E) : Prop where
  pairwise : es.Pairwise fun x y => lt (key x) k = true ∨ lt k (key y) = true
  asymm : ∀ e ∈ es, lt (key e) k = true → lt k (key e) = false

variable {xs ys : List E} {e : E} {k : K}

namespace Divides

lemma left (h : Divides lt key k (xs ++ ys)) : Divides lt key k xs :=
  ⟨(pairwise_append.mp h.pairwise).1,fun x hx => h.asymm x (mem_append_left _ hx)⟩

lemma right (h : Divides lt key k (xs ++ e :: ys)) : Divides lt key k ys :=
  ⟨(pairwise_cons.mp (pairwise_append.mp h.pairwise).2.1).2,
    fun y hy => h.asymm y (mem_append_right _ (mem_cons_of_mem _ hy))⟩

lemma of_lt (h : Divides lt key k (xs ++ ys)) (hlt : ∀ x ∈ xs, lt (key x) k) :
    below lt key k xs = xs ∧ same lt key k xs = [] ∧ above lt key k xs = [] := by
  refine ⟨filter_eq_self.mpr hlt,?_,?_⟩
  · exact filter_eq_nil_iff.mpr fun x hx => by simp [hlt x hx]
  · exact filter_eq_nil_iff.mpr fun x hx => by simp [h.left.asymm x hx (hlt x hx)]

lemma of_gt (h : Divides lt key k (xs ++ ys)) (hgt : ∀ y ∈ ys, lt k (key y)) :
    below lt key k ys = [] ∧ same lt key k ys = [] ∧ above lt key k ys = ys := by
  refine ⟨?_,?_,filter_eq_self.mpr hgt⟩
  · refine filter_eq_nil_iff.mpr fun y hy hlt => ?_
    have := h.asymm y (mem_append_right _ hy) hlt
    rw [hgt y hy] at this
    cases this
  · exact filter_eq_nil_iff.mpr fun y hy => by simp [hgt y hy]

section
variable (h : Divides lt key k (xs ++ e :: ys))
include h

lemma lt_of_left (hk : lt k (key e) = false) : ∀ x ∈ xs, lt (key x) k := fun x hx =>
  ((pairwise_append.mp h.pairwise).2.2 x hx e mem_cons_self).resolve_right (by simp [hk])

lemma gt_of_right (hk : lt (key e) k = false) : ∀ y ∈ ys, lt k (key y) := fun y hy =>
  ((pairwise_cons.mp (pairwise_append.mp h.pairwise).2.1).1 y hy).resolve_left
    (by simp [hk])

lemma split_left (hk : lt k (key e)) : below lt key k (xs ++ e :: ys) = below lt key k xs ∧
      same lt key k (xs ++ e :: ys) = same lt key k xs ∧
      above lt key k (xs ++ e :: ys) = above lt key k xs ++ e :: ys := by
  have he : lt (key e) k = false := by
    by_contra he
    have := h.asymm e (by simp) (by simpa using he)
    simp [hk] at this
  obtain ⟨hb,hs,ha⟩ := h.of_gt (forall_mem_cons.mpr ⟨hk,h.gt_of_right he⟩)
  rw [below_append,same_append,above_append,hb,hs,ha]
  simp

lemma split_right (hk : lt (key e) k) :
    below lt key k (xs ++ e :: ys) = xs ++ e :: below lt key k ys ∧
      same lt key k (xs ++ e :: ys) = same lt key k ys ∧
      above lt key k (xs ++ e :: ys) = above lt key k ys := by
  have hxs : ∀ x ∈ xs ++ [e], lt (key x) k := by
    intro x hx
    rcases mem_append.mp hx with hx | hx
    · exact h.lt_of_left (h.asymm e (by simp) hk) x hx
    · rw [mem_singleton.mp hx]
      exact hk
  rw [append_cons] at h ⊢
  obtain ⟨hb,hs,ha⟩ := h.of_lt hxs
  rw [below_append,same_append,above_append,hb,hs,ha]
  simp

lemma split_at (hke : lt k (key e) = false) (hek : lt (key e) k = false) :
    below lt key k (xs ++ e :: ys) = xs ∧ same lt key k (xs ++ e :: ys) = [e] ∧
      above lt key k (xs ++ e :: ys) = ys := by
  obtain ⟨hb,hs,ha⟩ := h.of_lt (h.lt_of_left hke)
  have hys := h.gt_of_right hek
  rw [append_cons] at h ⊢
  obtain ⟨hb',hs',ha'⟩ := h.of_gt hys
  rw [below_append,same_append,above_append,below_append,same_append,above_append,hb,hs,ha,
    hb',hs',ha']
  simp [below,same,above,hke,hek]

end

lemma eq_append (h : Divides lt key k es) :
    es = below lt key k es ++ (same lt key k es ++ above lt key k es) := by
  induction es with
  | nil => rfl
  | cons e es ih =>
    have hsplit : Divides lt key k ([] ++ e :: es) := h
    have ih := ih hsplit.right
    cases hke : lt k (key e) with
    | true =>
      obtain ⟨hb,hs,ha⟩ := hsplit.split_left hke
      rw [nil_append] at hb hs ha
      rw [hb,hs,ha]
      rfl
    | false =>
      cases hek : lt (key e) k with
      | true =>
        obtain ⟨hb,hs,ha⟩ := hsplit.split_right hek
        rw [nil_append] at hb hs ha
        rw [hb,hs,ha,nil_append,cons_append,← ih]
      | false =>
        obtain ⟨hb,hs,ha⟩ := hsplit.split_at hke hek
        rw [nil_append] at hb hs ha
        rw [hb,hs,ha]
        rfl

end Divides

section
variable (h : Increasing lt key es)
include h

lemma Increasing.put (ht : ∀ {a c : K}, lt a (key e) → lt (key e) c → lt a c) :
    Increasing lt key (below lt key (key e) es ++ e :: above lt key (key e) es) := by
  refine pairwise_append.mpr ⟨Pairwise.filter _ h,?_,fun x hx y hy => ?_⟩
  · exact pairwise_cons.mpr ⟨fun y hy => (mem_above.mp hy).2,Pairwise.filter _ h⟩
  · have hxe := (mem_below.mp hx).2
    rcases mem_cons.mp hy with rfl | hy
    · exact hxe
    · exact ht hxe (mem_above.mp hy).2

lemma Increasing.without (ht : ∀ {a c : K}, lt a k → lt k c → lt a c) :
    Increasing lt key (below lt key k es ++ above lt key k es) := by
  refine pairwise_append.mpr ⟨Pairwise.filter _ h,Pairwise.filter _ h,?_⟩
  intro x hx y hy
  exact ht (mem_below.mp hx).2 (mem_above.mp hy).2

variable [IsStrictWeakOrder K fun a b => lt a b = true]

lemma Increasing.divides (k : K) : Divides lt key k es :=
  ⟨Pairwise.imp (fun hxy => lt_or_lt hxy k) h,fun _ _ => lt_asymm⟩

lemma Increasing.same_cases (k : K) : same lt key k es = [] ∨ ∃ e, same lt key k es = [e] := by
  have hinc : (same lt key k es).Pairwise fun x y => lt (key x) (key y) := h.filter _
  have hmem : ∀ e ∈ same lt key k es, lt (key e) k = false ∧ lt k (key e) = false :=
    fun e he => (mem_same.mp he).2
  generalize same lt key k es = mid at hinc hmem
  match mid with
  | [] => exact .inl rfl
  | [e] => exact .inr ⟨e,rfl⟩
  | x :: y :: _ =>
    have hxy : lt (key x) (key y) := rel_of_pairwise_cons hinc mem_cons_self
    rcases lt_or_lt hxy k with hk | hk
    · rw [(hmem x mem_cons_self).1] at hk
      cases hk
    · rw [(hmem y (mem_cons_of_mem _ mem_cons_self)).2] at hk
      cases hk

lemma Increasing.head_cases (k : K) {e : E} (he : es[(below lt key k es).length]? = some e) :
    (lt k (key e) = false ∧ same lt key k es = [e]) ∨ (lt k (key e) ∧ same lt key k es = []) := by
  have he : (below lt key k es ++ (same lt key k es ++ above lt key k es))[
      (below lt key k es).length]? = some e := by
    rw [← (h.divides k).eq_append]
    exact he
  rw [getElem?_append_right (Nat.le_refl _),Nat.sub_self] at he
  rcases h.same_cases k with hs | ⟨e',hs⟩
  · rw [hs,nil_append] at he
    exact .inr ⟨(mem_above.mp (mem_of_getElem? he)).2,hs⟩
  rw [hs] at he
  cases he
  have hmem : e ∈ same lt key k es := by simp [hs]
  exact .inl ⟨(mem_same.mp hmem).2.2,hs⟩

lemma Increasing.lt_iff_lt_below (k : K) {i : Nat}
    {e : E} (he : es[i]? = some e) : lt (key e) k ↔ i < (below lt key k es).length := by
  have he : (below lt key k es ++ (same lt key k es ++ above lt key k es))[i]? = some e := by
    rw [← (h.divides k).eq_append]
    exact he
  constructor
  · intro hlt
    by_contra hge
    rw [getElem?_append_right (by omega)] at he
    rcases mem_append.mp (mem_of_getElem? he) with hmem | hmem
    · rw [(mem_same.mp hmem).2.1] at hlt
      cases hlt
    · rw [lt_asymm (mem_above.mp hmem).2] at hlt
      cases hlt
  · intro hi
    rw [getElem?_append_left hi] at he
    exact (mem_below.mp (mem_of_getElem? he)).2

lemma Increasing.lt_iff_le_above (k : K) {i : Nat} {e : E} (he : es[i]? = some e) : lt k (key e) ↔
      (below lt key k es).length+(same lt key k es).length ≤ i := by
  have he : ((below lt key k es ++ same lt key k es) ++ above lt key k es)[i]? = some e := by
    rw [append_assoc,← (h.divides k).eq_append]
    exact he
  rw [← length_append]
  constructor
  · intro hlt
    by_contra hge
    rw [getElem?_append_left (by omega)] at he
    rcases mem_append.mp (mem_of_getElem? he) with hmem | hmem
    · rw [lt_asymm (mem_below.mp hmem).2] at hlt
      cases hlt
    · rw [(mem_same.mp hmem).2.2] at hlt
      cases hlt
  · intro hi
    rw [getElem?_append_right hi] at he
    exact (mem_above.mp (mem_of_getElem? he)).2

lemma Increasing.lt_iff_lt {i j : Nat} {x y : E}
    (hx : es[i]? = some x) (hy : es[j]? = some y) : lt (key x) (key y) ↔ i < j := by
  obtain ⟨hi,rfl⟩ := List.getElem?_eq_some_iff.mp hx
  obtain ⟨hj,rfl⟩ := List.getElem?_eq_some_iff.mp hy
  have hpair := pairwise_iff_getElem.mp h
  constructor
  · intro hlt
    by_contra hge
    rcases Nat.lt_or_eq_of_le (Nat.le_of_not_lt hge) with hji | rfl
    · rw [lt_asymm (hpair j i hj hi hji)] at hlt
      cases hlt
    · rw [lt_asymm hlt] at hlt
      cases hlt
  · exact hpair i j hi hj

lemma Increasing.nodup : es.Nodup := by
  refine Pairwise.imp ?_ h
  rintro x y hxy rfl
  exact irrefl_of (fun a b => lt a b) (key x) hxy

end
end Split
end WeakOrder
