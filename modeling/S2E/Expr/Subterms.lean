import S2E.Expr.Semantics

/-! The expressions inside an expression, the ones in its update lists included. -/

namespace S2E
open List

def Expr.parts : Expr → List Expr
  | .read ul i => i :: ul.nodes.flatMap fun n => [n.1,n.2]
  | e => e.kids

mutual
def Expr.subexprs : Expr → List Expr
  | .constant c => [.constant c]
  | .read ul i => .read ul i :: (ul.subexprs ++ i.subexprs)
  | .select c t f => .select c t f :: (c.subexprs ++ t.subexprs ++ f.subexprs)
  | .concat l r => .concat l r :: (l.subexprs ++ r.subexprs)
  | .extract e off w => .extract e off w :: e.subexprs
  | .not e => .not e :: e.subexprs
  | .zext e w => .zext e w :: e.subexprs
  | .sext e w => .sext e w :: e.subexprs
  | .binary k l r => .binary k l r :: (l.subexprs ++ r.subexprs)

def UpdateList.subexprs : UpdateList → List Expr
  | .root _ => []
  | .extend next i v => next.subexprs ++ i.subexprs ++ v.subexprs
end

variable {e k x : Expr}

lemma UpdateList.mem_subexprs (ul : UpdateList) :
    x ∈ ul.subexprs ↔ ∃ n ∈ ul.nodes, x ∈ n.1.subexprs ∨ x ∈ n.2.subexprs := by
  fun_induction UpdateList.nodes ul with
  | case1 => simp [subexprs]
  | case2 next i v ih =>
    simp only [subexprs,mem_append,mem_cons,or_and_right,exists_or,exists_eq_left,ih]
    rw [or_assoc,or_comm]

lemma Expr.mem_subexprs : x ∈ e.subexprs ↔ x = e ∨ ∃ k ∈ e.parts, x ∈ k.subexprs := by
  cases e with
  | read ul i =>
    simp only [subexprs,parts,mem_cons,mem_append,ul.mem_subexprs,
      mem_flatMap,not_mem_nil,or_false]
    constructor
    · rintro (h | ⟨n,hn,h | h⟩ | h)
      · exact .inl h
      · exact .inr ⟨n.1,.inr ⟨n,hn,.inl rfl⟩,h⟩
      · exact .inr ⟨n.2,.inr ⟨n,hn,.inr rfl⟩,h⟩
      · exact .inr ⟨i,.inl rfl,h⟩
    · rintro (h | ⟨k,rfl | ⟨n,hn,rfl | rfl⟩,h⟩)
      · exact .inl h
      · exact .inr (.inr h)
      · exact .inr (.inl ⟨n,hn,.inl h⟩)
      · exact .inr (.inl ⟨n,hn,.inr h⟩)
  | _ => simp [subexprs,parts,kids]

lemma Expr.mem_subexprs_self (e : Expr) : e ∈ e.subexprs := mem_subexprs.mpr (.inl rfl)

variable {n : Expr × Expr}

lemma UpdateList.size_lt_of_mem_nodes : (ul : UpdateList) → n ∈ ul.nodes →
    n.1.size < ul.size ∧ n.2.size < ul.size
  | .extend next i v, h => by
    rcases mem_cons.mp h with rfl | h
    · simp only [size]; omega
    · have := size_lt_of_mem_nodes next h
      simp only [size]; omega

lemma Expr.size_lt_of_mem_parts (h : k ∈ e.parts) : k.size < e.size := by
  cases e with
  | read ul i =>
    simp only [parts,mem_cons,mem_flatMap,not_mem_nil,or_false] at h
    rcases h with rfl | ⟨n,hn,rfl | rfl⟩
    · grind
    all_goals have := ul.size_lt_of_mem_nodes hn; grind
  | constant => nomatch h
  | _ =>
    simp only [parts,kids,mem_cons,not_mem_nil,or_false] at h
    rcases h with rfl | rfl | rfl <;> simp only [size] <;> omega

variable {P : Expr → Prop}

lemma Expr.parts_induction (h : ∀ e : Expr, (∀ k ∈ e.parts, P k) → P e) (e : Expr) : P e := by
  induction hn : e.size using Nat.strongRecOn generalizing e with
  | ind n ih => exact h e fun k hk => ih k.size (hn ▸ size_lt_of_mem_parts hk) k rfl

lemma UpdateList.wf_of_mem_nodes : (ul : UpdateList) → ul.WF → n ∈ ul.nodes → n.1.WF ∧ n.2.WF
  | .extend next i v, h, hn => by
    rcases mem_cons.mp hn with rfl | hn
    · exact ⟨h.2.1,h.2.2.1⟩
    · exact wf_of_mem_nodes next h.1 hn

lemma Expr.WF.of_mem_parts (h : e.WF) (hk : k ∈ e.parts) : k.WF := by
  cases e with
  | read ul i =>
    simp only [parts,mem_cons,mem_flatMap,not_mem_nil,or_false] at hk
    rcases hk with rfl | ⟨n,hn,rfl | rfl⟩
    · exact h.2.1
    · exact (ul.wf_of_mem_nodes h.1 hn).1
    · exact (ul.wf_of_mem_nodes h.1 hn).2
  | constant => nomatch hk
  | _ =>
    simp only [parts,kids,mem_cons,not_mem_nil,or_false] at hk
    simp only [WF] at h
    rcases hk with rfl | rfl | rfl <;> simp only [h]

lemma UpdateList.eval_congr {a b : Assignment} {j : Nat} : (ul : UpdateList) →
    (∀ n ∈ ul.nodes, n.1.eval a = n.1.eval b ∧ n.2.eval a = n.2.eval b) →
    ul.getRoot.initial a j = ul.getRoot.initial b j → ul.eval a j = ul.eval b j
  | .root _, _, h => h
  | .extend next i v, hn, h => by
    obtain ⟨⟨hi,hv⟩,hn⟩ := forall_mem_cons.mp hn
    rw [eval,eval,hi,hv,eval_congr next hn h]

/-- An expression has one value under two assignments if its parts have, and if a read starts
from the same byte. -/
lemma Expr.eval_congr {a b : Assignment}
    (hparts : ∀ k ∈ e.parts, k.eval a = k.eval b) (hread : ∀ ul i, e = .read ul i →
      ul.getRoot.initial a (i.eval a) = ul.getRoot.initial b (i.eval a)) : e.eval a = e.eval b := by
  cases e with
  | read ul i =>
    simp only [parts,forall_mem_cons,mem_flatMap] at hparts
    rw [eval,eval,← hparts.1]
    exact ul.eval_congr (fun n hn => ⟨hparts.2 _ ⟨n,hn,by simp⟩,hparts.2 _ ⟨n,hn,by simp⟩⟩)
      (hread ul i rfl)
  | constant => rfl
  | _ => simp_all only [parts,kids,forall_mem_cons,eval]

lemma Expr.subexprs_induction (hpart : ∀ x, P x → ∀ k ∈ x.parts, P k)
    (he : P e) (hx : x ∈ e.subexprs) : P x := by
  induction hn : e.size using Nat.strongRecOn generalizing e with
  | ind n ih =>
    rcases mem_subexprs.mp hx with rfl | ⟨k,hk,hx⟩
    · exact he
    · exact ih k.size (hn ▸ size_lt_of_mem_parts hk) (hpart e he k hk) hx rfl

lemma Expr.size_le_of_mem_subexprs (hx : x ∈ e.subexprs) : x.size ≤ e.size :=
  subexprs_induction (P := fun x => x.size ≤ e.size)
    (fun _ ih _ hk => Nat.le_trans (Nat.le_of_lt (size_lt_of_mem_parts hk)) ih) (Nat.le_refl _) hx

lemma Expr.mem_subexprs_trans {y : Expr} (hy : y ∈ x.subexprs) (hx : x ∈ e.subexprs) :
    y ∈ e.subexprs := by
  refine subexprs_induction (P := fun x => ∀ y ∈ x.subexprs, y ∈ e.subexprs) ?_
    (fun _ h => h) hx y hy
  exact fun x ih k hk y hy => ih y (mem_subexprs.mpr (.inr ⟨k,hk,hy⟩))

end S2E
