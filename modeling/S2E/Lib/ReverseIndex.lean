import S2E.Lib.Maps

/-!
A table of places that hold at most one key each, and a map from the keys in it to the lists of
their places.
-/

open Std Function List

structure Indexes {K C : Type} [Ord K] (m : TreeMap K (List C)) (f : C → Option K) : Prop where
  nodup : ∀ {k : K} {l : List C}, m[k]? = some l → l.Nodup
  ne_nil : ∀ {k : K} {l : List C}, m[k]? = some l → l ≠ []
  mem : ∀ {k : K} {c : C}, f c = some k ↔ ∃ l, m[k]? = some l ∧ c ∈ l

namespace Indexes
variable {K C : Type} [Ord K] [TransOrd K] [LawfulEqOrd K]
variable {m : TreeMap K (List C)} {f : C → Option K} {k k' : K} {c : C} {l : List C}

omit [LawfulEqOrd K] in
lemma empty (hf : ∀ c, f c = none) : Indexes (∅ : TreeMap K (List C)) f where
  nodup h := absurd h Maps.empty_ne_some
  ne_nil h := absurd h Maps.empty_ne_some
  mem := by
    intro k c
    rw [hf]
    exact ⟨nofun,fun ⟨l,hl,_⟩ => absurd hl Maps.empty_ne_some⟩

omit [TransOrd K] [LawfulEqOrd K] in
lemma key_of_mem (h : Indexes m f) (hl : m[k]? = some l) (hc : c ∈ l) : f c = some k :=
  h.mem.mpr ⟨l,hl,hc⟩

omit [TransOrd K] [LawfulEqOrd K] in
lemma mem_of_key (h : Indexes m f) (hl : m[k]? = some l) (hc : f c = some k) : c ∈ l := by
  obtain ⟨l',hl',hmem⟩ := h.mem.mp hc
  rw [hl] at hl'
  cases hl'
  exact hmem

omit [TransOrd K] [LawfulEqOrd K] in
lemma getElem?_eq_none (h : Indexes m f) (hk : ∀ c, f c ≠ some k) : m[k]? = none := by
  cases hm : m[k]? with
  | none => rfl
  | some l =>
    obtain ⟨c,hc⟩ := exists_mem_of_ne_nil l (h.ne_nil hm)
    exact absurd (h.key_of_mem hm hc) (hk c)

lemma insert_same (h : Indexes m f) (hl : m[k]? = some l) : Indexes (m.insert k l) f := by
  have hget : ∀ a : K, (m.insert k l)[a]? = m[a]? := by
    intro a
    by_cases ha : a = k
    · rw [ha,TreeMap.getElem?_insert_self,hl]
    · exact Maps.insert_of_ne ha
  refine ⟨fun {a _} ha => ?_,fun {a _} ha => ?_,fun {a _} => ?_⟩
  · exact h.nodup ((hget a).symm.trans ha)
  · exact h.ne_nil ((hget a).symm.trans ha)
  · rw [hget]
    exact h.mem

variable [DecidableEq C]

lemma remove [BEq C] [LawfulBEq C] (h : Indexes m f) (hl : m[k]? = some l) (hc : f c = some k) :
    Indexes (if l.erase c = [] then m.erase k else m.insert k (l.erase c)) (update f c none) := by
  have hother : ∀ {k' : K}, k' ≠ k →
      (if l.erase c = [] then m.erase k else m.insert k (l.erase c))[k']? = m[k']? := by
    intro k' hne
    split
    · exact Maps.erase_of_ne hne
    · exact Maps.insert_of_ne hne
  have hself : ∀ {l'}, (if l.erase c = [] then m.erase k else m.insert k (l.erase c))[k]? =
      some l' ↔
      l' = l.erase c ∧ l' ≠ [] := by
    intro l'
    split
    next hnil =>
      rw [Maps.erase_eq_some,hnil]
      exact ⟨fun h => absurd rfl h.1,fun h => absurd h.1 h.2⟩
    rename_i hne
    rw [Maps.insert_eq_some]
    constructor
    · rintro (⟨-,rfl⟩ | ⟨hk,-⟩)
      · exact ⟨rfl,hne⟩
      · exact absurd rfl hk
    · rintro ⟨rfl,-⟩
      exact .inl ⟨rfl,rfl⟩
  refine ⟨fun {k' l'} hl' => ?_,fun {k' l'} hl' => ?_,fun {k' c'} => ?_⟩
  · by_cases hk : k' = k
    · subst hk
      rw [(hself.mp hl').1]
      exact (h.nodup hl).erase c
    · exact h.nodup ((hother hk).symm.trans hl')
  · by_cases hk : k' = k
    · subst hk
      exact (hself.mp hl').2
    · exact h.ne_nil ((hother hk).symm.trans hl')
  · by_cases hk : k' = k
    · subst hk
      by_cases hcc : c' = c
      · subst hcc
        rw [update_self]
        refine ⟨nofun,fun ⟨l',hl',hmem⟩ => ?_⟩
        rw [(hself.mp hl').1] at hmem
        exact absurd hmem (h.nodup hl).not_mem_erase
      · rw [update_of_ne hcc]
        have herase : c' ∈ l.erase c ↔ c' ∈ l := mem_erase_of_ne hcc
        constructor
        · intro hf
          have hmem := herase.mpr (h.mem_of_key hl hf)
          exact ⟨_,hself.mpr ⟨rfl,ne_nil_of_mem hmem⟩,hmem⟩
        · rintro ⟨l',hl',hmem⟩
          rw [(hself.mp hl').1] at hmem
          exact h.key_of_mem hl (herase.mp hmem)
    · rw [hother hk,← h.mem]
      by_cases hcc : c' = c
      · subst hcc
        rw [update_self,hc]
        exact ⟨nofun,fun heq => absurd (Option.some.inj heq).symm hk⟩
      · rw [update_of_ne hcc]

lemma add (h : Indexes m f) (hc : f c = none) :
    Indexes (m.insert k (m.getD k [] ++ [c])) (update f c (some k)) := by
  have hfresh : ∀ {k' : K} {l' : List C}, m[k']? = some l' → c ∉ l' := by
    intro k' l' hl' hmem
    rw [h.key_of_mem hl' hmem] at hc
    cases hc
  have hgetD : m.getD k [] = m[k]?.getD [] := TreeMap.getD_eq_getD_getElem?
  refine ⟨fun {k' l'} hl' => ?_,fun {k' l'} hl' => ?_,fun {k' c'} => ?_⟩
  · rcases Maps.insert_eq_some.mp hl' with ⟨rfl,rfl⟩ | ⟨-,hl'⟩
    · rw [hgetD]
      cases hm : m[k']? with
      | none => exact nodup_singleton c
      | some l =>
        exact List.Nodup.append (h.nodup hm) (nodup_singleton c)
          (disjoint_singleton.mpr (hfresh hm))
    · exact h.nodup hl'
  · rcases Maps.insert_eq_some.mp hl' with ⟨rfl,rfl⟩ | ⟨-,hl'⟩
    · exact append_ne_nil_of_right_ne_nil _ (cons_ne_nil c [])
    · exact h.ne_nil hl'
  · by_cases hk : k' = k
    · subst hk
      have hself : (m.insert k' (m.getD k' [] ++ [c]))[k']? = some (m.getD k' [] ++ [c]) :=
        TreeMap.getElem?_insert_self
      simp only [hself,Option.some.injEq,exists_eq_left',mem_append,mem_singleton]
      by_cases hcc : c' = c
      · simp [hcc]
      · rw [update_of_ne hcc,h.mem,hgetD]
        cases m[k']? <;> simp [hcc]
    · rw [Maps.insert_of_ne hk,← h.mem]
      by_cases hcc : c' = c
      · subst hcc
        rw [update_self,hc]
        exact ⟨fun heq => absurd (Option.some.inj heq).symm hk,nofun⟩
      · rw [update_of_ne hcc]

omit [DecidableEq C] in
lemma rename (h : Indexes m f) (hl : m[k]? = some l) (hne : k' ≠ k) (hfree : m[k']? = none)
    {f' : C → Option K} (hold : ∀ c, f c = some k → f' c = some k')
    (hother : ∀ c, f c ≠ some k → f' c = f c) : Indexes ((m.insert k' l).erase k) f' := by
  have hget : ∀ {a : K} {l' : List C}, ((m.insert k' l).erase k)[a]? = some l' ↔
      a = k' ∧ l' = l ∨ a ≠ k ∧ a ≠ k' ∧ m[a]? = some l' := by
    intro a l'
    rw [Maps.erase_eq_some,Maps.insert_eq_some]
    constructor
    · rintro ⟨hak,hcase⟩
      exact hcase.imp id fun hcase => ⟨hak,hcase⟩
    · rintro (⟨rfl,rfl⟩ | ⟨hak,hcase⟩)
      · exact ⟨hne,.inl ⟨rfl,rfl⟩⟩
      · exact ⟨hak,.inr hcase⟩
  refine ⟨fun hl' => ?_,fun hl' => ?_,fun {a c} => ?_⟩
  · rcases hget.mp hl' with ⟨-,rfl⟩ | ⟨-,-,hl'⟩
    · exact h.nodup hl
    · exact h.nodup hl'
  · rcases hget.mp hl' with ⟨-,rfl⟩ | ⟨-,-,hl'⟩
    · exact h.ne_nil hl
    · exact h.ne_nil hl'
  · by_cases hc : f c = some k
    · rw [hold c hc]
      constructor
      · rintro ⟨⟩
        exact ⟨l,hget.mpr (.inl ⟨rfl,rfl⟩),h.mem_of_key hl hc⟩
      · rintro ⟨l',hl',hmem⟩
        rcases hget.mp hl' with ⟨rfl,-⟩ | ⟨hak,-,hl'⟩
        · rfl
        · rw [h.key_of_mem hl' hmem] at hc
          exact absurd (Option.some.inj hc) hak
    · rw [hother c hc]
      constructor
      · intro hkey
        obtain ⟨l',hl',hmem⟩ := h.mem.mp hkey
        refine ⟨l',hget.mpr (.inr ⟨?_,?_,hl'⟩),hmem⟩
        · rintro rfl
          exact hc hkey
        · rintro rfl
          rw [hfree] at hl'
          cases hl'
      · rintro ⟨l',hl',hmem⟩
        rcases hget.mp hl' with ⟨-,rfl⟩ | ⟨-,-,hl'⟩
        · exact absurd (h.key_of_mem hl hmem) hc
        · exact h.key_of_mem hl' hmem

omit [DecidableEq C] in
lemma replace [DecidableEq K] (h : Indexes m f) (hl : m[k]? = some l)
    (hk' : k' = k ∨ m[k']? = none) {f' : C → Option K} (hold : ∀ c, f c = some k → f' c = some k')
    (hother : ∀ c, f c ≠ some k → f' c = f c) :
    Indexes (if k' ≠ k then (m.insert k' l).erase k else m.insert k' l) f' := by
  by_cases heq : k' = k
  · subst heq
    have hsame : f' = f := by
      funext c
      by_cases hc : f c = some k'
      · rw [hold c hc,hc]
      · exact hother c hc
    rw [if_neg (not_not.mpr rfl),hsame]
    exact h.insert_same hl
  · rw [if_pos heq]
    exact h.rename hl heq (hk'.resolve_left heq) hold hother

end Indexes
