import S2E.Lib.WeakOrder

/-!
What a persistent tree is for: finitely many values, at most one for each key up to the order of
the keys.
-/

namespace S2E
open WeakOrder List

structure FiniteMap {V K : Type} (kov : V → K) (lt : K → K → Bool) where
  entries : Set V
  finite : entries.Finite
  unique : ∀ {v w : V}, v ∈ entries → w ∈ entries → lt (kov v) (kov w) = false →
    lt (kov w) (kov v) = false → v = w

namespace FiniteMap
section Operations
variable {V K : Type} {kov : V → K} {lt : K → K → Bool} (M : FiniteMap kov lt)

def HasKey (kov : V → K) (lt : K → K → Bool) (k : K) (v : V) : Prop :=
  lt (kov v) k = false ∧ lt k (kov v) = false

def empty (kov : V → K) (lt : K → K → Bool) : FiniteMap kov lt where
  entries := ∅
  finite := Set.finite_empty
  unique h := h.elim

def filter (P : V → Prop) : FiniteMap kov lt where
  entries := {w | w ∈ M.entries ∧ P w}
  finite := M.finite.subset fun _ h => h.1
  unique hv hw := M.unique hv.1 hw.1

def add (v : V) (hnew : ∀ w ∈ M.entries, ¬ HasKey kov lt (kov v) w) : FiniteMap kov lt where
  entries := {w | w = v ∨ w ∈ M.entries}
  finite := M.finite.insert v
  unique := by
    rintro u w (rfl | hu) (rfl | hw) huw hwu
    · rfl
    · exact absurd ⟨hwu,huw⟩ (hnew w hw)
    · exact absurd ⟨huw,hwu⟩ (hnew u hu)
    · exact M.unique hu hw huw hwu

def remove (k : K) : FiniteMap kov lt := M.filter fun w => ¬ HasKey kov lt k w

def replace (v : V) : FiniteMap kov lt := (M.remove (kov v)).add v fun _ h => h.2

open Classical in
noncomputable def insert (v : V) : FiniteMap kov lt :=
  if h : ∀ w ∈ M.entries, ¬ HasKey kov lt (kov v) w then M.add v h else M

def popMin : FiniteMap kov lt := M.filter fun w => ∃ v ∈ M.entries, lt (kov v) (kov w) = true

def popMax : FiniteMap kov lt := M.filter fun w => ∃ v ∈ M.entries, lt (kov w) (kov v) = true

def Least (P : V → Prop) : Option V → Prop
  | none => ∀ v ∈ M.entries, ¬ P v
  | some v => v ∈ M.entries ∧ P v ∧ ∀ w ∈ M.entries, P w → lt (kov w) (kov v) = false

def Greatest (P : V → Prop) : Option V → Prop
  | none => ∀ v ∈ M.entries, ¬ P v
  | some v => v ∈ M.entries ∧ P v ∧ ∀ w ∈ M.entries, P w → lt (kov v) (kov w) = false

structure Listed (vs : List V) : Prop where
  increasing : Increasing lt kov vs
  mem_iff : ∀ v, v ∈ M.entries ↔ v ∈ vs

end Operations

section Lists
variable {V K : Type} {kov : V → K} {lt : K → K → Bool} {M : FiniteMap kov lt} {vs : List V}

lemma Listed.same_eq_nil_iff (h : M.Listed vs) (k : K) :
    same lt kov k vs = [] ↔ ∀ w ∈ M.entries, ¬ HasKey kov lt k w := by
  rw [eq_nil_iff_forall_not_mem]
  simp [mem_same,HasKey,h.mem_iff]

lemma not_hasKey_iff {k : K} {w : V} : ¬ HasKey kov lt k w ↔ lt (kov w) k ∨ lt k (kov w) := by
  rw [HasKey,not_and_or,Bool.not_eq_false,Bool.not_eq_false]

variable [IsStrictWeakOrder K fun a b => lt a b = true]

lemma Listed.ncard (h : M.Listed vs) : M.entries.ncard = vs.length := by
  classical
  have heq : M.entries = ↑vs.toFinset := by
    ext v
    rw [h.mem_iff,coe_toFinset]
    rfl
  rw [heq,Set.ncard_coe_finset,toFinset_card_of_nodup h.increasing.nodup]

lemma Listed.remove (h : M.Listed vs) (k : K) :
    (M.remove k).Listed (below lt kov k vs ++ above lt kov k vs) := by
  refine ⟨h.increasing.without lt_trans,fun v => ?_⟩
  show v ∈ M.entries ∧ ¬ HasKey kov lt k v ↔ _
  rw [mem_append,mem_below,mem_above,h.mem_iff,not_hasKey_iff,and_or_left]

lemma Listed.replace (h : M.Listed vs) (v : V) :
    (M.replace v).Listed (below lt kov (kov v) vs ++ v :: above lt kov (kov v) vs) := by
  refine ⟨h.increasing.put lt_trans,fun w => ?_⟩
  show w = v ∨ w ∈ (M.remove (kov v)).entries ↔ _
  rw [(h.remove (kov v)).mem_iff,mem_append,mem_append,mem_cons,or_left_comm]

lemma Listed.insert (h : M.Listed vs) (v : V) :
    (M.insert v).Listed (if same lt kov (kov v) vs = [] then
      below lt kov (kov v) vs ++ v :: above lt kov (kov v) vs else vs) := by
  unfold FiniteMap.insert
  by_cases hnew : ∀ w ∈ M.entries, ¬ HasKey kov lt (kov v) w
  · have hsame := (h.same_eq_nil_iff (kov v)).mpr hnew
    rw [dif_pos hnew,if_pos hsame]
    refine ⟨h.increasing.put lt_trans,fun w => ?_⟩
    have hparts := (h.increasing.divides (kov v)).eq_append
    rw [hsame,nil_append] at hparts
    show w = v ∨ w ∈ M.entries ↔ _
    rw [h.mem_iff,mem_append,mem_cons,or_left_comm,← mem_append,← hparts]
  · rw [dif_neg hnew,if_neg fun hsame => hnew ((h.same_eq_nil_iff (kov v)).mp hsame)]
    exact h

lemma Listed.popMin {v : V} (h : M.Listed (v :: vs)) : M.popMin.Listed vs := by
  obtain ⟨hlt,hinc⟩ := pairwise_cons.mp h.increasing
  refine ⟨hinc,fun w => ?_⟩
  show w ∈ M.entries ∧ (∃ u ∈ M.entries, lt (kov u) (kov w)) ↔ _
  simp only [h.mem_iff,mem_cons]
  constructor
  · rintro ⟨rfl | hw,u,rfl | hu,huw⟩
    · rw [lt_asymm huw] at huw
      cases huw
    · rw [lt_asymm (hlt u hu)] at huw
      cases huw
    · exact hw
    · exact hw
  · intro hw
    exact ⟨.inr hw,v,.inl rfl,hlt w hw⟩

lemma Listed.popMax {v : V} (h : M.Listed (vs ++ [v])) : M.popMax.Listed vs := by
  obtain ⟨hinc,-,hlt⟩ := pairwise_append.mp h.increasing
  have hlt : ∀ w ∈ vs, lt (kov w) (kov v) := fun w hw => hlt w hw v mem_cons_self
  refine ⟨hinc,fun w => ?_⟩
  show w ∈ M.entries ∧ (∃ u ∈ M.entries, lt (kov w) (kov u)) ↔ _
  simp only [h.mem_iff,mem_append,mem_singleton]
  constructor
  · rintro ⟨hw | rfl,u,hu | rfl,hwu⟩
    · exact hw
    · exact hw
    · rw [lt_asymm (hlt u hu)] at hwu
      cases hwu
    · rw [lt_asymm hwu] at hwu
      cases hwu
  · intro hw
    exact ⟨.inl hw,v,.inr rfl,hlt w hw⟩

lemma Listed.least_at (h : M.Listed vs) {P : V → Prop} {p : Nat}
    (hP : ∀ {i : Nat} {v : V}, vs[i]? = some v → (P v ↔ p ≤ i)) : M.Least P vs[p]? := by
  cases hp : vs[p]? with
  | none =>
    intro v hv hPv
    obtain ⟨i,hi⟩ := getElem?_of_mem ((h.mem_iff v).mp hv)
    have hle := (hP hi).mp hPv
    rw [getElem?_eq_none ((getElem?_eq_none_iff.mp hp).trans hle)] at hi
    cases hi
  | some v =>
    refine ⟨(h.mem_iff v).mpr (mem_of_getElem? hp),(hP hp).mpr (Nat.le_refl p),?_⟩
    intro w hw hPw
    obtain ⟨i,hi⟩ := getElem?_of_mem ((h.mem_iff w).mp hw)
    rw [Bool.eq_false_iff]
    intro hlt
    exact Nat.not_lt.mpr ((hP hi).mp hPw) ((h.increasing.lt_iff_lt hi hp).mp hlt)

lemma Listed.greatest_at (h : M.Listed vs) {P : V → Prop} {p : Nat} (hp : p ≤ vs.length)
    (hP : ∀ {i : Nat} {v : V}, vs[i]? = some v → (P v ↔ i < p)) :
    M.Greatest P vs[if p = 0 then vs.length else p-1]? := by
  split
  next hzero =>
    rw [getElem?_eq_none (Nat.le_refl _)]
    intro v hv hPv
    obtain ⟨i,hi⟩ := getElem?_of_mem ((h.mem_iff v).mp hv)
    have hlt := (hP hi).mp hPv
    omega
  next hpos =>
    have hlt : p-1 < vs.length := by omega
    have hlast := getElem?_eq_getElem hlt
    rw [hlast]
    refine ⟨(h.mem_iff _).mpr (getElem_mem hlt),(hP hlast).mpr (by omega),?_⟩
    intro w hw hPw
    obtain ⟨i,hi⟩ := getElem?_of_mem ((h.mem_iff w).mp hw)
    rw [Bool.eq_false_iff]
    intro hlt'
    have hlt' := (h.increasing.lt_iff_lt hlast hi).mp hlt'
    have hle := (hP hi).mp hPw
    omega

lemma Listed.least_hasKey (h : M.Listed vs) (k : K) :
    M.Least (HasKey kov lt k) (same lt kov k vs)[0]? := by
  rcases h.increasing.same_cases k with hsame | ⟨v,hsame⟩
  · rw [hsame]
    exact (h.same_eq_nil_iff k).mp hsame
  have hmem : v ∈ same lt kov k vs := by simp [hsame]
  obtain ⟨hv,hkey⟩ := mem_same.mp hmem
  rw [hsame]
  refine ⟨(h.mem_iff v).mpr hv,hkey,fun w hw hkey' => ?_⟩
  have hmem' : w ∈ same lt kov k vs := mem_same.mpr ⟨(h.mem_iff w).mp hw,hkey'⟩
  rw [hsame,mem_singleton] at hmem'
  subst hmem'
  exact lt_irrefl (kov w)

end Lists
end FiniteMap
end S2E
