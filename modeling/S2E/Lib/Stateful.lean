import Mathlib

/-! Computations with a state that may fail: what a run that returns returns. -/

namespace Stateful
variable {σ α β : Type}

def Returns (m : StateT σ Option α) (s : σ) (P : α → σ → Prop) : Prop :=
  ∃ r s', m s = some (r,s') ∧ P r s'

variable {s : σ}

lemma Returns.pure {P : α → σ → Prop} {r : α} (h : P r s) :
    Returns (Pure.pure r) s P := ⟨r,s,rfl,h⟩

variable {f : α → StateT σ Option β} {Q : β → σ → Prop}

lemma Returns.bind {m : StateT σ Option α} {P : α → σ → Prop} (h : Returns m s P)
    (hf : ∀ r s', P r s' → Returns (f r) s' Q) : Returns (m >>= f) s Q := by
  obtain ⟨r,s',hm,hp⟩ := h
  obtain ⟨r',s'',hfr,hq⟩ := hf r s' hp
  refine ⟨r',s'',?_,hq⟩
  show (m s).bind (fun p => f p.1 p.2) = _
  rw [hm]
  exact hfr

lemma Returns.mono {m : StateT σ Option α} {P Q : α → σ → Prop} (h : Returns m s P)
    (hpq : ∀ r s', P r s' → Q r s') : Returns m s Q := by
  obtain ⟨r,s',hm,hp⟩ := h
  exact ⟨r,s',hm,hpq r s' hp⟩

lemma Returns.get_bind {f : σ → StateT σ Option β}
    (h : Returns (f s) s Q) : Returns (get >>= f) s Q := h

lemma Returns.modify_bind {g : σ → σ} {f : PUnit → StateT σ Option β} (h : Returns (f ⟨⟩) (g s) Q) :
    Returns (modify g >>= f) s Q := h

lemma bind_eq_some {m : StateT σ Option α} {s' : σ} {r : β}
    (h : (m >>= f) s = some (r,s')) : ∃ a s₁, m s = some (a,s₁) ∧ f a s₁ = some (r,s') := by
  obtain ⟨⟨a,s₁⟩,hm,hf⟩ := Option.bind_eq_some_iff.mp h
  exact ⟨a,s₁,hm,hf⟩

def expect (o : Option α) : OptionT (StateT σ Option) α := OptionT.lift (StateT.lift o)

def attempt (m : OptionT (StateT σ Option) α) : OptionT (StateT σ Option) (Option α) :=
  OptionT.lift m.run

variable {m : OptionT (StateT σ Option) α} {o : Option α}

lemma run_bind_of_eq {s' : σ} (h : m.run s = some (o,s')) (f : α → OptionT (StateT σ Option) β) :
    (m >>= f).run s = o.elim (some (none,s')) fun r => (f r).run s' := by
  rw [OptionT.run_bind]
  change (m.run s).bind _ = _
  rw [h]
  cases o <;> rfl

def Ends (m : OptionT (StateT σ Option) α) (s : σ) (P : Option α → σ → Prop) : Prop :=
  ∀ o s', m.run s = some (o,s') → P o s'

variable {P : Option α → σ → Prop}

lemma Ends.pure {r : α} (h : P (some r) s) : Ends (Pure.pure r) s P := by
  rintro _ _ ⟨⟩
  exact h

lemma Ends.failure (h : P none s) : Ends Alternative.failure s P := by
  rintro _ _ ⟨⟩
  exact h

lemma Ends.expect (h : ∀ r, o = some r → P (some r) s) : Ends (expect o) s P := by
  cases o with
  | none => exact nofun
  | some r =>
    rintro _ _ ⟨⟩
    exact h r rfl

lemma Ends.mono {Q : Option α → σ → Prop}
    (h : Ends m s P) (hpq : ∀ o s', P o s' → Q o s') : Ends m s Q :=
  fun o s' hrun => hpq o s' (h o s' hrun)

lemma Ends.bind {f : α → OptionT (StateT σ Option) β} {Q : Option β → σ → Prop} (h : Ends m s P)
    (hf : ∀ r s', P (some r) s' → Ends (f r) s' Q) (hnone : ∀ s', P none s' → Q none s') :
    Ends (m >>= f) s Q := by
  intro o s' hrun
  rw [OptionT.run_bind] at hrun
  obtain ⟨r,s₁,hm,hrest⟩ := bind_eq_some hrun
  cases r with
  | some r => exact hf r s₁ (h _ _ hm) o s' hrest
  | none =>
    cases hrest
    exact hnone s' (h _ _ hm)

lemma Ends.get_bind {f : σ → OptionT (StateT σ Option) β} {Q : Option β → σ → Prop}
    (h : Ends (f s) s Q) : Ends (get >>= f) s Q := h

lemma Ends.set_bind {f : PUnit → OptionT (StateT σ Option) β} {t : σ}
    {Q : Option β → σ → Prop} (h : Ends (f ⟨⟩) t Q) : Ends (set t >>= f) s Q := h

def Moves (R : σ → σ → Prop) (m : OptionT (StateT σ Option) α) : Prop :=
  ∀ s, Ends m s fun _ => R s

section Preorder
variable {R : σ → σ → Prop} (hrefl : ∀ s, R s s) (htrans : ∀ s t u, R s t → R t u → R s u)
include hrefl

lemma Moves.pure (r : α) : Moves R (Pure.pure r) := fun s => .pure (hrefl s)

lemma Moves.failure : Moves R (Alternative.failure : OptionT (StateT σ Option) α) :=
  fun s => .failure (hrefl s)

lemma Moves.expect (o : Option α) : Moves R (expect o) := fun s => .expect fun _ _ => hrefl s

omit hrefl in
lemma Moves.attempt (h : Moves R m) : Moves R (attempt m) := by
  intro s o s' hrun
  obtain ⟨r,_,hm,hrest⟩ := bind_eq_some (m := m.run) hrun
  cases hrest
  exact h s r s' hm

omit hrefl in
include htrans in
lemma Moves.bind {m : OptionT (StateT σ Option) α} {f : α → OptionT (StateT σ Option) β}
    (h : Moves R m) (hf : ∀ r, Moves R (f r)) : Moves R (m >>= f) :=
  fun s => (h s).bind (fun r t ht o u hu => htrans s t u ht (hf r t o u hu)) fun _ ht => ht

include htrans in
lemma Moves.foldlM {f : β → α → OptionT (StateT σ Option) β} {l : List α}
    (h : ∀ b, ∀ a ∈ l, Moves R (f b a)) (b : β) : Moves R (l.foldlM f b) := by
  induction l generalizing b with
  | nil => exact .pure hrefl b
  | cons a l ih =>
    have h := fun b => List.forall_mem_cons.mp (h b)
    exact .bind htrans (h b).1 fun b' => ih (fun b => (h b).2) b'

end Preorder
end Stateful
