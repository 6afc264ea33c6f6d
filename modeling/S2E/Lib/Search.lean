import Mathlib

/-! A search with a stack and a set of visited nodes, over any successor function. -/

namespace Search
open List

variable {α : Type} [DecidableEq α]

def push (st : List α × List α) (k : α) : List α × List α :=
  if k ∈ st.2 then st else (k :: st.1,k :: st.2)

def search (succ : α → List α) : Nat → List α × List α → List α
  | 0, _ => []
  | _+1, ([],_) => []
  | n+1, (x :: stack,visited) => x :: search succ n ((succ x).foldl push (stack,visited))

structure Fresh (st : List α × List α) : Prop where
  nodup : st.2.Nodup
  subset : ∀ x ∈ st.1, x ∈ st.2
  stack_nodup : st.1.Nodup

variable {st : List α × List α} {x : α}

lemma mem_push {k : α} : x ∈ (push st k).2 ↔ x ∈ st.2 ∨ x = k := by
  unfold push
  split
  next h =>
    constructor
    · exact .inl
    · rintro (h' | rfl)
      · exact h'
      · exact h
  · simp [or_comm]

lemma mem_push_stack {k : α} : x ∈ (push st k).1 ↔ x ∈ st.1 ∨ x = k ∧ k ∉ st.2 := by
  unfold push
  split
  next h =>
    simp [h]
  next h =>
    simp [h,or_comm]

lemma Fresh.push (h : Fresh st) (k : α) : Fresh (push st k) := by
  unfold Search.push
  split
  · exact h
  rename_i hk
  refine ⟨nodup_cons.mpr ⟨hk,h.nodup⟩,?_,?_⟩
  · intro x hx
    rcases mem_cons.mp hx with rfl | hx
    · exact mem_cons_self
    · exact mem_cons_of_mem _ (h.subset x hx)
  · exact nodup_cons.mpr ⟨fun hx => hk (h.subset k hx),h.stack_nodup⟩

lemma Fresh.foldl (h : Fresh st) (ks : List α) : Fresh (ks.foldl Search.push st) := by
  induction ks generalizing st with
  | nil => exact h
  | cons k ks ih => exact ih (h.push k)

variable {ks : List α}

lemma mem_foldl : x ∈ (ks.foldl push st).2 ↔ x ∈ st.2 ∨ x ∈ ks := by
  induction ks generalizing st with
  | nil => simp
  | cons k ks ih => rw [foldl_cons,ih,mem_push,mem_cons,or_assoc]

lemma mem_foldl_stack : x ∈ (ks.foldl push st).1 ↔ x ∈ st.1 ∨ x ∈ ks ∧ x ∉ st.2 := by
  induction ks generalizing st with
  | nil => simp
  | cons k ks ih =>
    rw [foldl_cons,ih,mem_push_stack,mem_push,mem_cons]
    by_cases hxk : x = k
    · subst hxk
      by_cases hx : x ∈ st.2 <;> simp [hx]
    · simp [hxk]

def Closed (succ : α → List α) (st : List α × List α) : Prop :=
  ∀ x ∈ st.2, x ∉ st.1 → ∀ k ∈ succ x, k ∈ st.2

variable {succ : α → List α}

lemma Closed.step {stack visited : List α} (h : Closed succ (x :: stack,visited)) :
    Closed succ ((succ x).foldl push (stack,visited)) := by
  intro y hy hny k hk
  rw [mem_foldl] at hy ⊢
  rw [mem_foldl_stack] at hny
  push Not at hny
  by_cases hyx : y = x
  · subst hyx
    exact .inr hk
  have hyv : y ∈ visited := by
    rcases hy with hy | hy
    · exact hy
    · by_contra hv
      exact hv (hny.2 hy)
  refine .inl (h y hyv ?_ k hk)
  simp [hyx,hny.1]

variable {bound : List α}

omit [DecidableEq α] in
lemma Fresh.length_le (h : Fresh st) (hb : ∀ x ∈ st.2, x ∈ bound) : st.2.length ≤ bound.length :=
  (subperm_of_subset h.nodup hb).length_le

lemma length_foldl (ks : List α) (st : List α × List α) :
    (ks.foldl push st).1.length+st.2.length = (ks.foldl push st).2.length+st.1.length := by
  induction ks generalizing st with
  | nil => exact Nat.add_comm _ _
  | cons k ks ih =>
    have h1 := ih (push st k)
    have h2 : (push st k).1.length+st.2.length = (push st k).2.length+st.1.length := by
      unfold push
      split
      · exact Nat.add_comm _ _
      · simp only [length_cons]; omega
    rw [foldl_cons]
    omega

omit [DecidableEq α] in
lemma Closed.mem_iff {visited : List α} (h : Closed succ ([],visited))
    (x : α) : x ∈ visited ↔ ∃ r ∈ visited, Relation.ReflTransGen (fun a b => b ∈ succ a) r x := by
  constructor
  · intro hx
    exact ⟨x,hx,.refl⟩
  · rintro ⟨r,hr,hrx⟩
    induction hrx with
    | refl => exact hr
    | tail _ hk ih => exact h _ ih (by simp) _ hk

/-- What the search takes off the stack is what it will have visited, apart from the
nodes that were done before. The induction is on the fuel, which bounds the nodes
that are still to be taken off. -/
lemma mem_search (hs : ∀ x ∈ bound, ∀ k ∈ succ x, k ∈ bound) (n : Nat) (st : List α × List α)
    (hf : Fresh st) (hc : Closed succ st) (hb : ∀ x ∈ st.2, x ∈ bound)
    (hn : bound.length+st.1.length ≤ n+st.2.length) (x : α) :
    (x ∈ search succ n st ∨ x ∈ st.2 ∧ x ∉ st.1) ↔
      ∃ r ∈ st.2, Relation.ReflTransGen (fun a b => b ∈ succ a) r x := by
  induction n generalizing st with
  | zero =>
    obtain ⟨stack,visited⟩ := st
    have h1 := hf.length_le hb
    obtain rfl : stack = [] := length_eq_zero_iff.mp (by simp only at hn h1; omega)
    simpa [search] using hc.mem_iff x
  | succ n ih =>
    obtain ⟨stack,visited⟩ := st
    cases stack with
    | nil => simpa [search] using hc.mem_iff x
    | cons y stack =>
      have hyv : y ∈ visited := hf.subset y mem_cons_self
      have hf0 : Fresh (stack,visited) :=
        ⟨hf.nodup,fun z hz => hf.subset z (mem_cons_of_mem _ hz),(nodup_cons.mp hf.stack_nodup).2⟩
      have hb' : ∀ z ∈ ((succ y).foldl push (stack,visited)).2, z ∈ bound := by
        intro z hz
        rw [mem_foldl] at hz
        rcases hz with hz | hz
        · exact hb z hz
        · exact hs y (hb y hyv) z hz
      have hl := length_foldl (succ y) (stack,visited)
      have hstep := ih ((succ y).foldl push (stack,visited)) (hf0.foldl _) hc.step hb' (by
        simp only [length_cons] at hn hl ⊢
        omega)
      rw [search]
      constructor
      · rintro (h | ⟨h1,h2⟩)
        · rcases mem_cons.mp h with rfl | h
          · exact ⟨x,hyv,.refl⟩
          · obtain ⟨r,hr,hrx⟩ := hstep.mp (.inl h)
            rw [mem_foldl] at hr
            rcases hr with hr | hr
            · exact ⟨r,hr,hrx⟩
            · exact ⟨y,hyv,.head hr hrx⟩
        · exact ⟨x,h1,.refl⟩
      · rintro ⟨r,hr,hrx⟩
        rcases hstep.mpr ⟨r,mem_foldl.mpr (.inl hr),hrx⟩ with h | ⟨h1,h2⟩
        · exact .inl (mem_cons_of_mem _ h)
        by_cases hxy : x = y
        · exact .inl (by simp [hxy])
        rw [mem_foldl_stack] at h2
        push Not at h2
        rw [mem_foldl] at h1
        refine .inr ⟨?_,by simp [hxy,h2.1]⟩
        rcases h1 with h1 | h1
        · exact h1
        · by_contra hv
          exact hv (h2.2 h1)

lemma mem_search_singleton {s : α} {n : Nat}
    (hs : s ∈ bound) (hsucc : ∀ x ∈ bound, ∀ k ∈ succ x, k ∈ bound) (hn : bound.length ≤ n)
    (x : α) : x ∈ search succ n ([s],[s]) ↔ Relation.ReflTransGen (fun a b => b ∈ succ a) s x := by
  have h := mem_search hsucc n ([s],[s]) ⟨by simp,by simp,by simp⟩
    (by intro y hy hny; simp_all) (by simpa using hs) (by simpa using hn) x
  simpa using h

end Search
