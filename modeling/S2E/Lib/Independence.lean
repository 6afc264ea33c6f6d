import Mathlib

/-! When a part of a set of constraints decides a query as the whole set does. -/

namespace Independence
variable {K V ι : Type} {sat : ι → (K → V) → Prop} {support : ι → Set K}

def Models (sat : ι → (K → V) → Prop) (C : Set ι) (a : K → V) : Prop := ∀ c ∈ C, sat c a

def Entails (sat : ι → (K → V) → Prop) (C : Set ι) (q : ι) : Prop :=
  ∀ a, Models sat C a → sat q a

/-- Constraints that share no variable with the query or with a constraint that is kept
may be dropped: a model of the kept ones is completed by a model of all of them. -/
lemma entails_iff_of_separated {C R : Set ι} {q : ι} (hdepq : DependsOn (sat q) (support q))
    (hdep : ∀ c ∈ C, DependsOn (sat c) (support c)) (hRC : R ⊆ C)
    (hq : ∀ c ∈ C, c ∉ R → Disjoint (support c) (support q))
    (hR : ∀ c ∈ C, c ∉ R → ∀ r ∈ R, Disjoint (support c) (support r))
    (hsat : ∃ m, Models sat C m) : Entails sat C q ↔ Entails sat R q := by
  classical
  constructor
  · intro h a ha
    obtain ⟨m,hm⟩ := hsat
    let b : K → V := fun k => if k ∈ support q ∨ ∃ r ∈ R, k ∈ support r then a k else m k
    have hb : Models sat C b := by
      intro c hc
      by_cases hcR : c ∈ R
      · have hca : sat c b = sat c a := hdep c hc fun k hk => if_pos (.inr ⟨c,hcR,hk⟩)
        rw [hca]
        exact ha c hcR
      have hcm : sat c b = sat c m := by
        refine hdep c hc fun k hk => if_neg ?_
        rintro (hkq | ⟨r,hr,hkr⟩)
        · exact Set.disjoint_left.mp (hq c hc hcR) hk hkq
        · exact Set.disjoint_left.mp (hR c hc hcR r hr) hk hkr
      rw [hcm]
      exact hm c hc
    have hqa : sat q b = sat q a := hdepq fun k hk => if_pos (.inl hk)
    rw [← hqa]
    exact h b hb
  · intro h a ha
    exact h a fun c hc => ha c (hRC hc)

end Independence
