import Mathlib

/-!
Maps from closed intervals of numbers to values: what an implementation of such a map promises,
and a sorted list that keeps the promise.
-/

namespace Intervals
open List

structure Interval (V : Type) where
  start : Nat
  stop : Nat
  value : V

variable {V : Type}

def Interval.Covers (i : Interval V) (x : Nat) : Prop := i.start ≤ x ∧ x ≤ i.stop

instance (i : Interval V) (x : Nat) : Decidable (i.Covers x) :=
  inferInstanceAs (Decidable (_ ∧ _))

@[simp]
lemma covers_mk {a b x : Nat} {v : V} : (⟨a,b,v⟩ : Interval V).Covers x ↔ a ≤ x ∧ x ≤ b := Iff.rfl

structure Ascending (l : List (Interval V)) : Prop where
  nonempty : ∀ i ∈ l, i.start ≤ i.stop
  order : l.Pairwise fun i j => i.stop < j.start

def valueAt (l : List (Interval V)) (x : Nat) : Option V :=
  (l.find? fun i => i.Covers x).map Interval.value

variable {l : List (Interval V)}

lemma valueAt_eq_none {x : Nat} : valueAt l x = none ↔ ∀ i ∈ l, ¬ i.Covers x := by
  simp [valueAt]

lemma exists_of_valueAt {x : Nat} {v : V} (h : valueAt l x = some v) :
    ∃ i ∈ l, i.Covers x ∧ i.value = v := by
  obtain ⟨i,hi,hv⟩ := Option.map_eq_some_iff.mp h
  exact ⟨i,mem_of_find?_eq_some hi,by simpa using find?_some hi,hv⟩

lemma Ascending.unique (h : Ascending l) {i j : Interval V}
    (hi : i ∈ l) (hj : j ∈ l) {x : Nat} (hix : i.Covers x) (hjx : j.Covers x) : i = j := by
  obtain ⟨m,hm,rfl⟩ := getElem_of_mem hi
  obtain ⟨n,hn,rfl⟩ := getElem_of_mem hj
  have horder := pairwise_iff_getElem.mp h.order
  obtain ⟨hi₁,hi₂⟩ := hix
  obtain ⟨hj₁,hj₂⟩ := hjx
  rcases Nat.lt_trichotomy m n with hmn | rfl | hmn
  · have := horder m n hm hn hmn
    omega
  · rfl
  · have := horder n m hn hm hmn
    omega

lemma Ascending.valueAt_eq (h : Ascending l) {i : Interval V} (hi : i ∈ l)
    {x : Nat} (hx : i.Covers x) : valueAt l x = some i.value := by
  cases hv : valueAt l x with
  | none => exact absurd hx (valueAt_eq_none.mp hv i hi)
  | some v =>
    obtain ⟨j,hj,hjx,rfl⟩ := exists_of_valueAt hv
    rw [h.unique hi hj hx hjx]

lemma Ascending.valueAt_eq_some (h : Ascending l) {x : Nat} {v : V} :
    valueAt l x = some v ↔ ∃ i ∈ l, i.Covers x ∧ i.value = v :=
  ⟨exists_of_valueAt,fun ⟨_,hi,hx,hv⟩ => hv ▸ h.valueAt_eq hi hx⟩

lemma Ascending.tail {j : Interval V} (h : Ascending (j :: l)) : Ascending l :=
  ⟨fun i hi => h.nonempty i (mem_cons_of_mem _ hi),(pairwise_cons.mp h.order).2⟩

lemma Ascending.cons {j : Interval V} (hj : j.start ≤ j.stop) (hjl : ∀ k ∈ l, j.stop < k.start)
    (h : Ascending l) : Ascending (j :: l) :=
  ⟨forall_mem_cons.mpr ⟨hj,h.nonempty⟩,pairwise_cons.mpr ⟨hjl,h.order⟩⟩

/-- What an interval map offers. Nothing is said of an insertion over keys that are mapped. -/
structure IntervalMap (V : Type) where
  M : Type
  empty : M
  insert : M → Interval V → M
  erase : M → Interval V → M
  intervals : M → List (Interval V)
  intervals_empty : intervals empty = []
  ascending : ∀ m, Ascending (intervals m)
  valueAt_insert : ∀ m i, i.start ≤ i.stop → (∀ x, i.Covers x → valueAt (intervals m) x = none) →
    ∀ x, valueAt (intervals (insert m i)) x =
      if i.Covers x then some i.value else valueAt (intervals m) x
  valueAt_erase : ∀ m i, i ∈ intervals m → ∀ x, valueAt (intervals (erase m i)) x =
    if i.Covers x then none else valueAt (intervals m) x

namespace IntervalMap
variable (I : IntervalMap V)

def find (m : I.M) (x : Nat) : Option (Interval V) := (I.intervals m).find? fun i => x ≤ i.stop

def lookup (m : I.M) (x : Nat) (notFound : V) : V := (valueAt (I.intervals m) x).getD notFound

variable {I} {m : I.M} {x : Nat} {i : Interval V}

lemma find_mem (h : I.find m x = some i) : i ∈ I.intervals m ∧ x ≤ i.stop :=
  ⟨mem_of_find?_eq_some h,by simpa using find?_some h⟩

lemma valueAt_none_of_find {y z : Nat} (h : ∀ i, I.find m x = some i → z ≤ i.start)
    (hx : x ≤ y) (hy : y < z) : valueAt (I.intervals m) y = none := by
  refine valueAt_eq_none.mpr fun j hj hc => ?_
  obtain ⟨hj₁,hj₂⟩ := hc
  obtain ⟨i,hi⟩ : ∃ i, I.find m x = some i :=
    Option.isSome_iff_exists.mp (find?_isSome.mpr ⟨j,hj,by simpa using Nat.le_trans hx hj₂⟩)
  have hz := h i hi
  obtain ⟨-,before,after,hl,hbefore⟩ := find?_eq_some_iff_append.mp hi
  have horder := (I.ascending m).order
  have hne := (I.ascending m).nonempty i (find_mem hi).1
  rw [hl] at hj horder
  rcases mem_append.mp hj with hj | hj
  · have := hbefore j hj
    simp at this
    omega
  rcases mem_cons.mp hj with rfl | hj
  · omega
  · have := (pairwise_cons.mp (pairwise_append.mp horder).2.1).1 j hj
    omega

end IntervalMap

section
variable [DecidableEq V]

def insertInto (i : Interval V) : List (Interval V) → List (Interval V)
  | [] => [i]
  | j :: l =>
    if i.stop+1 = j.start ∧ i.value = j.value then ⟨i.start,j.stop,i.value⟩ :: l
    else if i.stop < j.start then i :: j :: l
    else if j.stop+1 = i.start ∧ j.value = i.value then insertInto ⟨j.start,i.stop,i.value⟩ l
    else j :: insertInto i l

def Apart (i : Interval V) (l : List (Interval V)) : Prop :=
  i.start ≤ i.stop ∧ ∀ j ∈ l, j.stop < i.start ∨ i.stop < j.start

instance (i : Interval V) (l : List (Interval V)) : Decidable (Apart i l) :=
  inferInstanceAs (Decidable (_ ∧ _))

lemma covers_join {a b c d x : Nat} (h : b+1 = c) (hab : a ≤ b) (hcd : c ≤ d) :
    a ≤ x ∧ x ≤ d ↔ a ≤ x ∧ x ≤ b ∨ c ≤ x ∧ x ≤ d := by
  omega

lemma insertInto_spec (h : Ascending l) {i : Interval V} (hi : Apart i l) :
    Ascending (insertInto i l) ∧
      (∀ n, n < i.start → (∀ j ∈ l, n < j.start) → ∀ j ∈ insertInto i l, n < j.start) ∧
      ∀ x v, (∃ j ∈ insertInto i l, j.Covers x ∧ j.value = v) ↔
        i.Covers x ∧ i.value = v ∨ ∃ j ∈ l, j.Covers x ∧ j.value = v := by
  induction l generalizing i with
  | nil => simp [insertInto,hi.1,Ascending.mk]
  | cons j l ih =>
    have hj := h.nonempty j mem_cons_self
    have hjl := (pairwise_cons.mp h.order).1
    obtain ⟨hii,hall⟩ := hi
    obtain ⟨hij,htail⟩ := forall_mem_cons.mp hall
    simp only [mem_cons,forall_eq_or_imp,exists_eq_or_imp]
    unfold insertInto
    split
    next hright =>
      refine ⟨.cons ?_ hjl h.tail,fun n hn hlt => forall_mem_cons.mpr ⟨hn,hlt.2⟩,fun x v => ?_⟩
      · show i.start ≤ j.stop
        omega
      · simp only [mem_cons,exists_eq_or_imp,Interval.Covers,hright.2]
        rw [covers_join hright.1 hii hj,or_and_right,or_assoc]
    next hright =>
      split
      next hlt =>
        refine ⟨.cons hii (forall_mem_cons.mpr ⟨hlt,fun k hk => ?_⟩) h,
          fun n hn hall => forall_mem_cons.mpr ⟨hn,forall_mem_cons.mpr hall⟩,fun x v => by simp⟩
        have := hjl k hk
        omega
      next hlt =>
        have hji : j.stop < i.start := by omega
        split
        next hleft =>
          have happ : Apart (⟨j.start,i.stop,i.value⟩ : Interval V) l := by
            refine ⟨by show j.start ≤ i.stop; omega,fun k hk => .inr ?_⟩
            have := hjl k hk
            have := htail k hk
            have := h.tail.nonempty k hk
            show i.stop < k.start
            omega
          obtain ⟨hasc,hstart,hcov⟩ := ih h.tail happ
          refine ⟨hasc,fun n hn hall => hstart n hall.1 hall.2,fun x v => ?_⟩
          rw [hcov x v]
          simp only [Interval.Covers,hleft.2]
          rw [covers_join hleft.1 hj hii,or_and_right,or_assoc,or_left_comm]
        next =>
          obtain ⟨hasc,hstart,hcov⟩ := ih h.tail ⟨hii,htail⟩
          refine ⟨.cons hj (hstart j.stop hji hjl) hasc,
            fun n hn hall => forall_mem_cons.mpr ⟨hall.1,hstart n hn hall.2⟩,fun x v => ?_⟩
          simp only [mem_cons,exists_eq_or_imp,hcov x v]
          exact or_left_comm

def sortedLists (V : Type) [DecidableEq V] : IntervalMap V where
  M := {l : List (Interval V) // Ascending l}
  empty := ⟨[],nofun,List.Pairwise.nil⟩
  insert m i := if h : Apart i m.1 then ⟨insertInto i m.1,(insertInto_spec m.2 h).1⟩ else m
  erase m i := ⟨m.1.filter fun j => j.start ≠ i.start,
    fun j hj => m.2.nonempty j (mem_filter.mp hj).1,m.2.order.filter _⟩
  intervals m := m.1
  intervals_empty := rfl
  ascending m := m.2
  valueAt_insert m i hi hfree x := by
    have happ : Apart i m.1 := by
      refine ⟨hi,fun j hj => ?_⟩
      refine Decidable.byContradiction fun hc => ?_
      have hne := m.2.nonempty j hj
      have hmax : i.Covers (max i.start j.start) ∧ j.Covers (max i.start j.start) := by
        unfold Interval.Covers
        omega
      exact valueAt_eq_none.mp (hfree _ hmax.1) j hj hmax.2
    obtain ⟨hasc,-,hcov⟩ := insertInto_spec m.2 happ
    refine Option.ext fun v => ?_
    rw [dif_pos happ,hasc.valueAt_eq_some,hcov,← m.2.valueAt_eq_some]
    split
    next hx => simp [hx,hfree x hx]
    next hx => simp [hx]
  valueAt_erase m i hi x := by
    have hsame : ∀ j ∈ m.1, j.start = i.start → j = i := fun j hj hs =>
      m.2.unique hj hi ⟨Nat.le_refl _,m.2.nonempty j hj⟩
        ⟨by omega,by have := m.2.nonempty i hi; omega⟩
    refine Option.ext fun v => ?_
    rw [Ascending.valueAt_eq_some (Subtype.property _)]
    split
    next hx =>
      simp only [reduceCtorEq,iff_false,mem_filter]
      rintro ⟨j,⟨hj,hne⟩,hjx,-⟩
      rw [m.2.unique hj hi hjx hx] at hne
      simp at hne
    next hx =>
      rw [m.2.valueAt_eq_some]
      refine exists_congr fun j => and_congr_left fun hj => ?_
      rw [mem_filter]
      refine and_iff_left_of_imp fun hmem => decide_eq_true fun hs => hx ?_
      rw [← hsame j hmem hs]
      exact hj.1

end
end Intervals
