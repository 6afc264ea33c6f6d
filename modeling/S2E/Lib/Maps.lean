import Mathlib

/-!
Entries of finite maps whose keys are compared by a lawful order: what each entry of the
changed map was before.
-/

namespace Maps
open Std TreeMap

variable {K V : Type} [Ord K] [TransOrd K] [LawfulEqOrd K] {m : TreeMap K V} {k a : K} {v x : V}

omit [LawfulEqOrd K] in
lemma empty_ne_some : (∅ : TreeMap K V)[a]? ≠ some x := by
  rw [getElem?_emptyc]
  exact nofun

lemma insert_of_ne (h : a ≠ k) : (m.insert k v)[a]? = m[a]? := by
  rw [getElem?_insert,if_neg fun hc => h (LawfulEqCmp.eq_of_compare hc).symm]

lemma insertIfNew_of_ne (h : a ≠ k) : (m.insertIfNew k v)[a]? = m[a]? := by
  rw [getElem?_insertIfNew,if_neg fun hc => h (LawfulEqCmp.eq_of_compare hc.1).symm]

lemma erase_of_ne (h : a ≠ k) : (m.erase k)[a]? = m[a]? := by
  rw [getElem?_erase,if_neg fun hc => h (LawfulEqCmp.eq_of_compare hc).symm]

lemma getD_insert [DecidableEq K] (x : V) :
    (m.insert k v)[a]?.getD x = if a = k then v else m[a]?.getD x := by
  by_cases h : a = k
  · simp [h]
  · simp [insert_of_ne h,h]

lemma getD_erase [DecidableEq K] (x : V) :
    (m.erase k)[a]?.getD x = if a = k then x else m[a]?.getD x := by
  by_cases h : a = k
  · simp [h]
  · simp [erase_of_ne h,h]

lemma insert_eq_some : (m.insert k v)[a]? = some x ↔ a = k ∧ x = v ∨ a ≠ k ∧ m[a]? = some x := by
  by_cases h : a = k
  · simp [h,eq_comm]
  · simp [insert_of_ne h,h]

lemma erase_eq_some : (m.erase k)[a]? = some x ↔ a ≠ k ∧ m[a]? = some x := by
  by_cases h : a = k
  · simp [h]
  · simp [erase_of_ne h,h]

lemma modify_eq_some {f : V → V} (h : (m.modify k f)[a]? = some x) :
    m[a]? = some x ∨ ∃ y, m[a]? = some y ∧ x = f y := by
  rw [getElem?_modify] at h
  split at h
  next hc =>
    obtain rfl := LawfulEqCmp.eq_of_compare hc
    obtain ⟨y,hy,rfl⟩ := Option.map_eq_some_iff.mp h
    exact .inr ⟨y,hy,rfl⟩
  · exact .inl h

lemma filter_eq_some {f : K → V → Bool} : (m.filter f)[a]? = some x ↔ m[a]? = some x ∧ f a x := by
  simp [getElem?_filter]

omit [LawfulEqOrd K] in
lemma mem_iff : a ∈ m ↔ ∃ x, m[a]? = some x := by
  rw [mem_iff_isSome_getElem?,Option.isSome_iff_exists]

lemma mem_toList : (a,x) ∈ m.toList ↔ m[a]? = some x := mem_toList_iff_getElem?_eq_some

lemma mem_insert : a ∈ m.insert k v ↔ a = k ∨ a ∈ m := by
  rw [TreeMap.mem_insert,LawfulEqCmp.compare_eq_iff_eq,eq_comm]

lemma mem_insert_of_mem (h : k ∈ m) : a ∈ m.insert k v ↔ a ∈ m := by
  rw [mem_insert,or_iff_right_of_imp]
  rintro rfl
  exact h

lemma mem_insertIfNew : a ∈ m.insertIfNew k v ↔ a = k ∨ a ∈ m := by
  rw [TreeMap.mem_insertIfNew,LawfulEqCmp.compare_eq_iff_eq,eq_comm]

lemma mem_erase : a ∈ m.erase k ↔ a ≠ k ∧ a ∈ m := by
  rw [TreeMap.mem_erase,Ne,LawfulEqCmp.compare_eq_iff_eq,eq_comm]

lemma foldl_insert_of_mem {f : K → V} {l : List K} (h : a ∈ l) :
    (l.foldl (fun m k => m.insert k (f k)) m)[a]? = some (f a) := by
  have hkeep : ∀ (l : List K) (m : TreeMap K V), m[a]? = some (f a) →
      (l.foldl (fun m k => m.insert k (f k)) m)[a]? = some (f a) := by
    intro l m hm
    refine List.foldlRecOn (motive := fun m' : TreeMap K V => m'[a]? = some (f a)) l _ hm
      fun m' hm' k _ => ?_
    by_cases hak : a = k
    · exact insert_eq_some.mpr (.inl ⟨hak,hak ▸ rfl⟩)
    · exact (insert_of_ne hak).trans hm'
  induction l generalizing m with
  | nil => cases h
  | cons k l ih =>
    rcases List.mem_cons.mp h with rfl | h
    · exact hkeep l _ (insert_eq_some.mpr (.inl ⟨rfl,rfl⟩))
    · exact ih h

lemma foldl_insert_of_not_mem {f : K → V} {l : List K} (h : a ∉ l) :
    (l.foldl (fun m k => m.insert k (f k)) m)[a]? = m[a]? := by
  refine List.foldlRecOn (motive := fun m' : TreeMap K V => m'[a]? = m[a]?) l _ rfl
    fun m' hm' k hk => ?_
  have hne : a ≠ k := fun heq => h (heq ▸ hk)
  exact (insert_of_ne hne).trans hm'

end Maps

/-! The same for finite sets. -/

namespace Sets
open Std

variable {K : Type} [Ord K] [TransOrd K] [LawfulEqOrd K] {s : TreeSet K} {k a : K}

lemma mem_insert : a ∈ s.insert k ↔ a = k ∨ a ∈ s := by
  rw [TreeSet.mem_insert,LawfulEqCmp.compare_eq_iff_eq,eq_comm]

lemma mem_erase : a ∈ s.erase k ↔ a ≠ k ∧ a ∈ s := by
  rw [TreeSet.mem_erase,Ne,LawfulEqCmp.compare_eq_iff_eq,eq_comm]

lemma nodup_toList (s : TreeSet K) : s.toList.Nodup := by
  refine TreeSet.distinct_toList.imp fun h heq => ?_
  exact h (LawfulEqCmp.compare_eq_iff_eq.mpr heq)

end Sets
